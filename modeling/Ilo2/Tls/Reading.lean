import Ilo2.Tls.Stream

/-!
# What the client has read

Whatever a transport delivers, the client takes it apart into records, and the records
into handshake messages.

* `Observed` - a transport with a history: what it delivered and what it was given.
* `Frame` - what reading leaves alone.
* `Progress` - **everything delivered so far is the records opened so far and what is
  still in `rx`; their handshake bytes are the messages returned so far and what is still
  in `hs`**.
-/

namespace Ilo2.Tls

open Crypto Attempt

/-! ### Transports with a history -/

/-- The bytes in a result of `recv`. -/
def RecvResult.data : RecvResult → List UInt8
  | .bytes bs => bs
  | _ => []

/-- `delivered` is what `recv` returned so far, `sent` is what `send_all` was given. -/
class Observed (T : Type) [Transport T] where
  delivered : T → List UInt8
  sent : T → List (List UInt8)
  delivered_recv {t t' : T} {cap : Nat} {r : RecvResult} :
    Transport.recv t cap = (r, t') → delivered t' = delivered t ++ r.data
  sent_recv {t t' : T} {cap : Nat} {r : RecvResult} :
    Transport.recv t cap = (r, t') → sent t' = sent t
  delivered_sendAll {t t' : T} {data : List UInt8} {ok : Bool} :
    Transport.sendAll t data = (ok, t') → delivered t' = delivered t
  sent_sendAll {t t' : T} {data : List UInt8} {ok : Bool} :
    Transport.sendAll t data = (ok, t') → sent t' = sent t ++ [data]

/-- Any transport, with a history kept beside it. -/
structure Logged (T : Type) where
  sock : T
  delivered : List UInt8 := []
  sent : List (List UInt8) := []

namespace Logged

variable {T : Type} [Transport T]

def recv (t : Logged T) (cap : Nat) : RecvResult × Logged T :=
  match Transport.recv t.sock cap with
  | (.bytes bs, sock) => (.bytes bs, { t with sock := sock, delivered := t.delivered ++ bs })
  | (r, sock) => (r, { t with sock := sock })

def sendAll (t : Logged T) (data : List UInt8) : Bool × Logged T :=
  match Transport.sendAll t.sock data with
  | (ok, sock) => (ok, { t with sock := sock, sent := t.sent ++ [data] })

instance : Transport (Logged T) := ⟨recv, sendAll⟩

instance : Observed (Logged T) where
  delivered := delivered
  sent := sent
  delivered_recv {t t' cap r} h := by
    replace h : recv t cap = (r, t') := h
    unfold recv at h
    split at h
    · cases h
      rfl
    · rename_i hne _
      cases h
      cases r with
      | bytes bs => exact (hne bs rfl).elim
      | timeout => simp [RecvResult.data]
      | error => simp [RecvResult.data]
  sent_recv {t t' cap r} h := by
    replace h : recv t cap = (r, t') := h
    unfold recv at h
    split at h <;> cases h <;> rfl
  delivered_sendAll {t t' data ok} h := by
    replace h : sendAll t data = (ok, t') := h
    unfold sendAll at h
    cases h
    rfl
  sent_sendAll {t t' data ok} h := by
    replace h : sendAll t data = (ok, t') := h
    unfold sendAll at h
    cases h
    rfl

end Logged

namespace ClientT

variable {T : Type}

/-- What reading leaves alone. -/
structure Frame (c c' : ClientT T) : Prop where
  opt : c'.opt = c.opt
  transcript : c'.transcript = c.transcript
  serverKey : c'.serverKey = c.serverKey
  serverCert : c'.serverCert = c.serverCert
  suite : c'.suite = c.suite
  connected : c'.connected = c.connected
  rng : c'.rng = c.rng
  writer : c'.recLayer.writer = c.recLayer.writer

theorem Frame.refl (c : ClientT T) : Frame c c := ⟨rfl, rfl, rfl, rfl, rfl, rfl, rfl, rfl⟩

theorem Frame.trans {c₁ c₂ c₃ : ClientT T} (h : Frame c₁ c₂) (g : Frame c₂ c₃) : Frame c₁ c₃ where
  opt := g.opt.trans h.opt
  transcript := g.transcript.trans h.transcript
  serverKey := g.serverKey.trans h.serverKey
  serverCert := g.serverCert.trans h.serverCert
  suite := g.suite.trans h.suite
  connected := g.connected.trans h.connected
  rng := g.rng.trans h.rng
  writer := g.writer.trans h.writer

/-- The buffer of handshake bytes is not in the frame. -/
theorem Frame.setHs {c c' : ClientT T} (h : Frame c c') (hs : List UInt8) :
    Frame c { c' with hs := hs } :=
  ⟨h.opt, h.transcript, h.serverKey, h.serverCert, h.suite, h.connected, h.rng, h.writer⟩

theorem handleAlert_sound {pt : List UInt8} {c c' : ClientT T}
    (h : Returns (handleAlert pt) c () c') : Ignored pt ∧ c' = c := by
  simp only [handleAlert, returns_bind, returns_ofOption] at h
  obtain ⟨a, _, ⟨ha, rfl⟩, h⟩ := h
  split at h
  · simp at h
  · rename_i hdesc
    rw [returns_demand] at h
    exact ⟨⟨a, ha, h.1, hdesc⟩, h.2.symm⟩

variable [Transport T] [Observed T]

/-- The client has opened the records `xs` with the reader `r`, after the bytes `pre` of the
stream; their handshake bytes are `read` and what is still in `hs`. -/
structure Progress (r : RecordLayer) (pre : List UInt8) (xs : List Received) (read : List UInt8)
    (c : ClientT T) : Prop where
  stream : Observed.delivered c.sock = pre ++ xs.flatMap Received.wire ++ c.rx
  opens : Opens r xs c.recLayer.reader
  kinds : ∀ x ∈ xs, x.type = CT_HANDSHAKE ∨ x.type = CT_ALERT ∧ Ignored x.plaintext
  payload : payload (xs.map Received.piece) = read ++ c.hs

/-! ### Records -/

/-- Whether it succeeds or not, the loop only appends what was delivered. -/
theorem fillLoop_appends {need : Nat} {c c' : ClientT T} {res : Except Stop Unit}
    (h : fillLoop need c = (res, c')) :
    Frame c c' ∧ c'.hs = c.hs ∧ c'.recLayer = c.recLayer ∧
      Observed.sent c'.sock = Observed.sent c.sock ∧ (res = .ok () → need ≤ c'.rx.length) ∧
      ∃ more, c'.rx = c.rx ++ more ∧
        Observed.delivered c'.sock = Observed.delivered c.sock ++ more := by
  induction hn : need - c.rx.length using Nat.strongRecOn generalizing c with
  | ind n ih =>
      rw [fillLoop] at h
      split at h
      · rename_i hlt
        split at h
        · rename_i b bs sock hrecv
          have hless : need - (c.rx ++ b :: bs).length < n := by
            rw [List.length_append, List.length_cons]
            omega
          obtain ⟨hframe, hhs, hlayer, hsent, hneed, more, hrx, hdel⟩ := ih _ hless h rfl
          have hframe' : Frame c { c with sock := sock, rx := c.rx ++ b :: bs } :=
            ⟨rfl, rfl, rfl, rfl, rfl, rfl, rfl, rfl⟩
          have hbytes := Observed.delivered_recv hrecv
          refine ⟨hframe'.trans hframe, hhs, hlayer, hsent.trans (Observed.sent_recv hrecv), hneed,
            b :: bs ++ more, ?_, ?_⟩
          · rw [hrx, List.append_assoc]
          · rw [hdel, hbytes, RecvResult.data, List.append_assoc]
        all_goals
          rename_i sock hrecv
          cases h
          exact ⟨⟨rfl, rfl, rfl, rfl, rfl, rfl, rfl, rfl⟩, rfl, rfl, Observed.sent_recv hrecv,
            (by rintro ⟨⟩), [], by simp, Observed.delivered_recv hrecv⟩
      · rename_i hge
        cases h
        exact ⟨.refl _, rfl, rfl, rfl, fun _ => Nat.le_of_not_lt hge, [], by simp, by simp⟩

/-- A record that is read was delivered, and the reader opened it. -/
theorem readRecord_sound {c c' : ClientT T} {h : RecordHeader} {pt : List UInt8}
    (hr : Returns readRecord c (h, pt) c') :
    Frame c c' ∧ c'.hs = c.hs ∧ Observed.sent c'.sock = Observed.sent c.sock ∧
      isValidContentType h.type ∧ ∃ x : Received, x.type = h.type ∧ x.plaintext = pt ∧
        c.recLayer.reader.unprotect x.type x.version x.body = (some pt, c'.recLayer.reader) ∧
        ∀ pre, Observed.delivered c.sock = pre ++ c.rx →
          Observed.delivered c'.sock = pre ++ x.wire ++ c'.rx := by
  simp only [readRecord, returns_bind, returns_get, returns_ofOption, returns_demand,
    returns_pure, Prod.mk.injEq] at hr
  obtain ⟨_, c₁, hfill₁, _, _, ⟨rfl, rfl⟩, hd, _, ⟨hparse, rfl⟩, _, _, ⟨htype, rfl⟩, _, c₂, hfill₂, pt',
    _, hopen, ⟨rfl, rfl⟩, rfl⟩ := hr
  obtain ⟨hf₁, hhs₁, hl₁, hs₁, -, more₁, hrx₁, hd₁⟩ := fillLoop_appends hfill₁
  obtain ⟨hf₂, hhs₂, hl₂, hs₂, hneed, more₂, hrx₂, hd₂⟩ := fillLoop_appends hfill₂
  replace hneed := hneed rfl
  unfold Returns openRecord at hopen
  dsimp only at hopen
  split at hopen
  · cases hopen
  · rename_i layer hun
    cases hopen
    have hlen : ((c₂.rx.drop RECORD_HEADER_LEN).take hd.length.toNat).length = hd.length.toNat := by
      rw [List.length_take, List.length_drop]
      omega
    refine ⟨(hf₁.trans hf₂).trans ?_, hhs₂.trans hhs₁, hs₂.trans hs₁, htype,
      ⟨hd.type, hd.version, (c₂.rx.drop RECORD_HEADER_LEN).take hd.length.toNat, pt'⟩, rfl, rfl, ?_, ?_⟩
    · have hw := RecordLayerT.unprotect_writer c₂.recLayer hd.type hd.version
        ((c₂.rx.drop RECORD_HEADER_LEN).take hd.length.toNat)
      rw [hun] at hw
      exact ⟨rfl, rfl, rfl, rfl, rfl, rfl, rfl, hw⟩
    · rw [← hl₁, ← hl₂, RecordLayerT.unprotect_reader, hun]
    · intro pre hpre
      have hwire : RecordLayerT.header hd.version hd.type hd.length.toNat ++
          (c₂.rx.drop RECORD_HEADER_LEN).take hd.length.toNat ++
            c₂.rx.drop (RECORD_HEADER_LEN + hd.length.toNat) = c₂.rx := by
        have hhead := parseRecordHeader_sound hparse
        have hfive : RECORD_HEADER_LEN ≤ c₁.rx.length := by
          have := congrArg List.length hhead
          rw [List.length_take, RecordLayerT.length_header] at this
          omega
        have htake : c₂.rx.take RECORD_HEADER_LEN = c₁.rx.take RECORD_HEADER_LEN := by
          rw [hrx₂, List.take_append_of_le_length hfive]
        rw [← hhead, ← htake,
          ← List.drop_drop, List.append_assoc, List.take_append_drop, List.take_append_drop]
      show Observed.delivered c₂.sock = _
      rw [hd₂, hd₁, hpre, Received.wire]
      dsimp only
      rw [hlen, List.append_assoc pre (RecordLayerT.header _ _ _ ++ _), hwire, hrx₂, hrx₁]
      simp only [List.append_assoc]

variable {r : RecordLayer} {pre read : List UInt8} {xs : List Received} {c c' : ClientT T}

theorem payload_piece {x : Received} (xs : List Received) :
    payload ((xs ++ [x]).map Received.piece) = payload (xs.map Received.piece) ++
      if x.type = CT_HANDSHAKE then x.plaintext else [] := by
  rw [List.map_append, payload_append]
  simp [payload, Received.piece]

/-- **One more record**, of handshake bytes or an alert that is ignored. -/
theorem Progress.snoc (hp : Progress r pre xs read c) {h : RecordHeader} {pt hs : List UInt8}
    (hr : Returns readRecord c (h, pt) c')
    (hkind : h.type = CT_HANDSHAKE ∨ h.type = CT_ALERT ∧ Ignored pt)
    (hhs : hs = c'.hs ++ if h.type = CT_HANDSHAKE then pt else []) :
    ∃ x, Progress r pre (xs ++ [x]) read { c' with hs := hs } := by
  obtain ⟨-, hkept, -, -, x, hxt, rfl, hopen, hstream⟩ := readRecord_sound hr
  rw [← hxt] at hkind hhs
  refine ⟨x, ?_, .snoc hp.opens hopen, ?_, ?_⟩
  · rw [List.flatMap_append, List.flatMap_singleton, ← List.append_assoc]
    exact hstream _ hp.stream
  · intro y hy
    rcases List.mem_append.mp hy with hy | hy
    · exact hp.kinds y hy
    · rw [List.mem_singleton.mp hy]
      exact hkind
  · rw [payload_piece, hp.payload, hhs, List.append_assoc, hkept]

/-- One more record of handshake bytes. -/
theorem Progress.handshake (hp : Progress r pre xs read c) {h : RecordHeader} {pt : List UInt8}
    (hr : Returns readRecord c (h, pt) c') (ht : h.type = CT_HANDSHAKE) :
    ∃ x, Progress r pre (xs ++ [x]) read { c' with hs := c'.hs ++ pt } :=
  hp.snoc hr (Or.inl ht) (by rw [if_pos ht])

/-- One more alert. -/
theorem Progress.alert (hp : Progress r pre xs read c) {h : RecordHeader} {pt : List UInt8}
    (hr : Returns readRecord c (h, pt) c') (ht : h.type = CT_ALERT) (ha : Ignored pt) :
    ∃ x, Progress r pre (xs ++ [x]) read c' := by
  have hne : ¬ h.type = CT_HANDSHAKE := by
    rw [ht]
    decide
  exact hp.snoc hr (Or.inr ⟨ht, ha⟩) (by rw [if_neg hne, List.append_nil])

/-! ### Messages -/

/-- **A message that is returned was received.** -/
theorem nextHandshake_sound {records : Nat} {msg : List UInt8} {m : HandshakeMessage}
    (hp : Progress r pre xs read c) (h : Returns (nextHandshake records) c (msg, m) c') :
    Frame c c' ∧ Observed.sent c'.sock = Observed.sent c.sock ∧ msg = frame m.type m.body ∧
      m.body.length < 2 ^ 24 ∧ ∃ xs', Progress r pre xs' (read ++ msg) c' := by
  induction records generalizing c xs with
  | zero => simp [nextHandshake] at h
  | succ records ih =>
      simp only [nextHandshake, returns_bind, returns_get] at h
      obtain ⟨_, _, ⟨rfl, rfl⟩, h⟩ := h
      split at h
      · rename_i m' hparse
        simp only [returns_bind, returns_modify, returns_ofOption, returns_pure, Prod.mk.injEq] at h
        obtain ⟨_, _, rfl, out, _, ⟨hout, rfl⟩, ⟨rfl, rfl⟩, rfl⟩ := h
        obtain ⟨hfront, hlen, htotal⟩ := parseHandshake_sound hparse
        have hstore : c.hs.take m'.total = frame m'.type m'.body := by
          rw [hfront, htotal, ← length_frame m'.type m'.body, List.take_left]
        rw [hstore, ← List.append_nil (frame _ _), parseHandshake_frame hlen] at hout
        cases hout
        refine ⟨⟨rfl, rfl, rfl, rfl, rfl, rfl, rfl, rfl⟩, rfl, hstore, hlen, xs, hp.stream,
          hp.opens, hp.kinds, ?_⟩
        rw [hp.payload, List.append_assoc, List.take_append_drop]
      · simp only [returns_bind, Prod.exists] at h
        obtain ⟨hd, pt, c₁, hrec, h⟩ := h
        obtain ⟨hf, -, hs, -⟩ := readRecord_sound hrec
        split at h
        · rename_i ht
          rw [returns_bind] at h
          obtain ⟨_, c₂, halert, h⟩ := h
          obtain ⟨hign, rfl⟩ := handleAlert_sound halert
          obtain ⟨x, hp'⟩ := hp.alert hrec ht hign
          obtain ⟨hf', hs', hrest⟩ := ih hp' h
          exact ⟨hf.trans hf', hs'.trans hs, hrest⟩
        · simp only [returns_bind, returns_demand, returns_modify] at h
          obtain ⟨_, _, ⟨ht, rfl⟩, _, _, rfl, h⟩ := h
          obtain ⟨x, hp'⟩ := hp.handshake hrec ht
          obtain ⟨hf', hs', hrest⟩ := ih hp' h
          exact ⟨(hf.setHs _).trans hf', hs'.trans hs, hrest⟩

/-- The records up to a ChangeCipherSpec, and that record itself. -/
structure Switched (r : RecordLayer) (pre : List UInt8) (xs : List Received) (x : Received)
    (read : List UInt8) (c : ClientT T) : Prop where
  stream : Observed.delivered c.sock = pre ++ (xs ++ [x]).flatMap Received.wire ++ c.rx
  opens : Opens r (xs ++ [x]) c.recLayer.reader
  kinds : ∀ y ∈ xs, y.type = CT_HANDSHAKE ∨ y.type = CT_ALERT ∧ Ignored y.plaintext
  payload : payload (xs.map Received.piece) = read
  type : x.type = CT_CHANGE_CIPHER_SPEC
  plaintext : x.plaintext = [0x01]

theorem readChangeCipherSpec_sound {records : Nat} (hp : Progress r pre xs read c)
    (hhs : c.hs = []) (h : Returns (readChangeCipherSpec records) c () c') :
    Frame c c' ∧ Observed.sent c'.sock = Observed.sent c.sock ∧ c'.hs = [] ∧
      ∃ xs' x, Switched r pre xs' x read c' := by
  induction records generalizing c xs with
  | zero => simp [readChangeCipherSpec] at h
  | succ records ih =>
      simp only [readChangeCipherSpec, returns_bind, Prod.exists] at h
      obtain ⟨hd, pt, c₁, hrec, h⟩ := h
      obtain ⟨hf, hh, hs, -, x, hxt, hxp, hopen, hstream⟩ := readRecord_sound hrec
      split at h
      · rename_i ht
        rw [returns_bind] at h
        obtain ⟨_, c₂, halert, h⟩ := h
        obtain ⟨hign, rfl⟩ := handleAlert_sound halert
        obtain ⟨y, hp'⟩ := hp.alert hrec ht hign
        obtain ⟨hf', hs', hrest⟩ := ih hp' (hh.trans hhs) h
        exact ⟨hf.trans hf', hs'.trans hs, hrest⟩
      · simp only [returns_bind, returns_demand] at h
        obtain ⟨_, _, ⟨ht, rfl⟩, hone, rfl⟩ := h
        refine ⟨hf, hs, hh.trans hhs, xs, x, ?_, ?_, hp.kinds, ?_, hxt.trans ht, hxp.trans hone⟩
        · rw [List.flatMap_append, List.flatMap_singleton, ← List.append_assoc]
          exact hstream _ hp.stream
        · exact .snoc hp.opens (hxp ▸ hopen)
        · rw [hp.payload, hhs, List.append_nil]

theorem expectChangeCipherSpec_sound {records : Nat} (hp : Progress r pre xs read c)
    (h : Returns (expectChangeCipherSpec records) c () c') :
    Frame c c' ∧ Observed.sent c'.sock = Observed.sent c.sock ∧ c'.hs = [] ∧
      ∃ xs' x, Switched r pre xs' x read c' := by
  simp only [expectChangeCipherSpec, returns_bind, returns_get, returns_demand] at h
  obtain ⟨_, _, ⟨rfl, rfl⟩, _, _, ⟨hhs, rfl⟩, h⟩ := h
  exact readChangeCipherSpec_sound hp hhs h

end ClientT

end Ilo2.Tls
