import Ilo2.Tls.Reading

/-!
# Records that are on their way

The other direction: when a peer in step has sent records, the client reads them, one
after the other, in whatever chunks they come.

* `Piped` - a transport that brings a stream of bytes, and may time out in between.
* `Feed` - the bytes in `rx` and on the way are the records of these pieces.
* `readRecord_feed` - **the next record is read, or the read times out and nothing is lost**.
-/

namespace Ilo2.Tls

open Crypto Attempt

/-- A transport with bytes on the way.  `recv` takes them from the front; as long as there
are some it neither fails nor ends, and it times out `waits` times at most. -/
class Piped (T : Type) [Transport T] where
  wire : T → List UInt8
  waits : T → Nat
  wire_recv {t t' : T} {cap : Nat} {r : RecvResult} :
    Transport.recv t cap = (r, t') → wire t = r.data ++ wire t'
  ready {t t' : T} {cap : Nat} {r : RecvResult} : 0 < cap → wire t ≠ [] →
    Transport.recv t cap = (r, t') →
      (r = .timeout ∧ waits t' < waits t) ∨ (r.data ≠ [] ∧ waits t' ≤ waits t)

/-- A transport that never times out while there are bytes on the way. -/
class Prompt (T : Type) [Transport T] [Piped T] : Prop where
  waits_eq (t : T) : Piped.waits t = 0

/-- A number of calls of `recv`. -/
inductive Pulled {T : Type} [Transport T] : T → T → Prop
  | refl (t : T) : Pulled t t
  | step {t t' t'' : T} {cap : Nat} {r : RecvResult} : Pulled t t' →
      Transport.recv t' cap = (r, t'') → Pulled t t''

theorem Pulled.trans {T : Type} [Transport T] {t t' t'' : T} (h : Pulled t t')
    (g : Pulled t' t'') : Pulled t t'' := by
  induction g with
  | refl => exact h
  | step _ hr ih => exact ih.step hr

/-- What a record layer sends for a piece that fits. -/
theorem sendPiece_fits {p : Piece} (h : p.Fits) (w : RecordLayer) :
    sendPiece w p =
      (RecordLayerT.header w.version p.type (w.sealed p.type p.data).1.length ++
          (w.sealed p.type p.data).1,
        { w with writeCipher := (w.sealed p.type p.data).2, writeSeq := w.writeSeq + 1 }) := by
  rw [sendPiece, RecordLayerT.protect_eq, if_neg (Nat.not_lt.mpr h.2)]

namespace ClientT

variable {T : Type} [Transport T]

/-- A message at the front of the buffer is the one that stands there. -/
theorem message_unique {type : UInt8} {body hs pay more : List UInt8} {m : HandshakeMessage}
    (hlen : body.length < 2 ^ 24) (hparse : parseHandshake hs = some m)
    (hbytes : hs ++ pay = frame type body ++ more) :
    m = ⟨type, body, HANDSHAKE_HEADER_LEN + body.length⟩ ∧ hs.drop m.total ++ pay = more := by
  obtain ⟨hfront, hmlen, htotal⟩ := parseHandshake_sound hparse
  have hm : m = ⟨type, body, HANDSHAKE_HEADER_LEN + body.length⟩ := by
    have hparse₁ := @parseHandshake_frame m.type _ hmlen (hs.drop m.total ++ pay)
    have hparse₂ := @parseHandshake_frame type _ hlen more
    rw [← List.append_assoc, ← hfront, hbytes, hparse₂, ← htotal] at hparse₁
    exact (Option.some.inj hparse₁).symm
  refine ⟨hm, ?_⟩
  rw [hfront, hm, List.append_assoc] at hbytes
  rw [hm]
  exact List.append_cancel_left hbytes

/-- A message in the buffer is returned at once. -/
theorem nextHandshake_buffered {c : ClientT T} {records : Nat} {m : HandshakeMessage}
    (hparse : parseHandshake c.hs = some m) :
    Returns (nextHandshake (records + 1)) c (frame m.type m.body, m)
      { c with hs := c.hs.drop m.total } := by
  obtain ⟨hfront, hmlen, htotal⟩ := parseHandshake_sound hparse
  have hstore : c.hs.take m.total = frame m.type m.body := by
    rw [hfront, htotal, ← length_frame m.type m.body, List.take_left]
  have hout : parseHandshake (c.hs.take m.total) = some m := by
    rw [hstore, ← List.append_nil (frame _ _), parseHandshake_frame hmlen, ← htotal]
  unfold nextHandshake
  refine get_returns.bind ?_
  rw [hparse]
  refine (modify_returns _).bind <| (ofOption_returns hout).bind ?_
  rw [hstore]
  exact pure_returns _

variable [Piped T]

/-- The bytes in `rx` and on the way are the records of the pieces `ps`, from a writer in step
with the client's reader, and then `rest`; after the pieces the writer is `w'`. -/
def Feed (w' : RecordLayer) (ps : List Piece) (rest : List UInt8) (c : ClientT T) : Prop :=
  ∃ w : RecordLayer, w.InStep c.recLayer ∧ (sendPieces w ps).2.writer = w' ∧
    c.rx ++ Piped.wire c.sock = (sendPieces w ps).1 ++ rest

/-- What a read changes, apart from the record layer. -/
structure Kept (c c' : ClientT T) : Prop where
  frame : Frame c c'
  hs : c'.hs = c.hs
  eof : c'.eof = c.eof
  pulled : Pulled c.sock c'.sock
  waits : Piped.waits c'.sock ≤ Piped.waits c.sock

theorem Kept.trans {c₁ c₂ c₃ : ClientT T} (h : Kept c₁ c₂) (g : Kept c₂ c₃) : Kept c₁ c₃ :=
  ⟨h.frame.trans g.frame, g.hs.trans h.hs, g.eof.trans h.eof, h.pulled.trans g.pulled,
    Nat.le_trans g.waits h.waits⟩

/-- A read that found nothing in time. -/
abbrev timedOut : Stop := .failed "timed out waiting for data"

/-- Filling `rx` from a stream that is long enough: it succeeds, or it times out. -/
theorem fillLoop_piped {need : Nat} {c c' : ClientT T} {res : Except Stop Unit}
    (h : fillLoop need c = (res, c')) (hneed : need ≤ (c.rx ++ Piped.wire c.sock).length) :
    (∃ sock rx, c' = { c with sock := sock, rx := rx }) ∧ Pulled c.sock c'.sock ∧
      c'.rx ++ Piped.wire c'.sock = c.rx ++ Piped.wire c.sock ∧
      ((res = .ok () ∧ need ≤ c'.rx.length ∧ Piped.waits c'.sock ≤ Piped.waits c.sock) ∨
        (res = .error timedOut ∧ Piped.waits c'.sock < Piped.waits c.sock)) := by
  induction hn : need - c.rx.length using Nat.strongRecOn generalizing c with
  | ind n ih =>
      rw [fillLoop] at h
      split at h
      · rename_i hlt
        have hwire : Piped.wire c.sock ≠ [] := by
          intro hnil
          rw [hnil, List.append_nil] at hneed
          omega
        split at h
        · rename_i b bs sock hrecv
          have hstep := Piped.wire_recv hrecv
          have hless : Piped.waits sock ≤ Piped.waits c.sock := by
            rcases Piped.ready (by decide) hwire hrecv with ⟨h', -⟩ | ⟨-, h'⟩
            · cases h'
            · exact h'
          have hsame : c.rx ++ b :: bs ++ Piped.wire sock = c.rx ++ Piped.wire c.sock := by
            rw [hstep, RecvResult.data, List.append_assoc]
          obtain ⟨⟨sock', rx', hc'⟩, hpull, hstream, hres⟩ :=
            ih (need - (c.rx ++ b :: bs).length)
              (by rw [List.length_append, List.length_cons]; omega) h (by rw [hsame]; exact hneed) rfl
          refine ⟨⟨sock', rx', hc'⟩, .trans (.step (.refl _) hrecv) hpull, hstream.trans hsame, ?_⟩
          rcases hres with ⟨hok, hlen, hwaits⟩ | ⟨htimed, hwaits⟩
          · exact Or.inl ⟨hok, hlen, Nat.le_trans hwaits hless⟩
          · exact Or.inr ⟨htimed, Nat.lt_of_lt_of_le hwaits hless⟩
        · rename_i sock hrecv
          rcases Piped.ready (by decide) hwire hrecv with ⟨h', -⟩ | ⟨h', -⟩
          · cases h'
          · exact absurd rfl h'
        · rename_i sock hrecv
          cases h
          refine ⟨⟨_, _, rfl⟩, .step (.refl _) hrecv, ?_, Or.inr ⟨rfl, ?_⟩⟩
          · rw [Piped.wire_recv hrecv]
            rfl
          · rcases Piped.ready (by decide) hwire hrecv with ⟨-, h'⟩ | ⟨h', -⟩
            · exact h'
            · exact absurd rfl h'
        · rename_i sock hrecv
          rcases Piped.ready (by decide) hwire hrecv with ⟨h', -⟩ | ⟨h', -⟩
          · cases h'
          · exact absurd rfl h'
      · rename_i hge
        cases h
        exact ⟨⟨_, _, rfl⟩, .refl _, rfl, Or.inl ⟨rfl, Nat.le_of_not_lt hge, Nat.le_refl _⟩⟩

variable {w' : RecordLayer} {p : Piece} {ps : List Piece} {rest : List UInt8} {c : ClientT T}

/-- Filling keeps the feed. -/
theorem Feed.fill (hfeed : Feed w' ps rest c) {need : Nat}
    (hneed : need ≤ (c.rx ++ Piped.wire c.sock).length) :
    (∃ c', Returns (fill need) c () c' ∧ Feed w' ps rest c' ∧ Kept c c' ∧
        c'.recLayer = c.recLayer ∧ c'.rx ++ Piped.wire c'.sock = c.rx ++ Piped.wire c.sock ∧
        need ≤ c'.rx.length) ∨
      ∃ c', Fails (fill need) c timedOut c' ∧ Feed w' ps rest c' ∧ Kept c c' ∧
        Piped.waits c'.sock < Piped.waits c.sock := by
  rcases hfill : fillLoop need c with ⟨res, c'⟩
  obtain ⟨⟨sock, rx, rfl⟩, hpull, hstream, hres⟩ := fillLoop_piped hfill hneed
  obtain ⟨w, hin, hw, hbytes⟩ := hfeed
  have hfeed' : Feed w' ps rest { c with sock := sock, rx := rx } := ⟨w, hin, hw, hstream.trans hbytes⟩
  have hframe : Frame c { c with sock := sock, rx := rx } := ⟨rfl, rfl, rfl, rfl, rfl, rfl, rfl, rfl⟩
  rcases hres with ⟨rfl, hle, hwaits⟩ | ⟨rfl, hwaits⟩
  · exact Or.inl ⟨_, hfill, hfeed', ⟨hframe, rfl, rfl, hpull, hwaits⟩, rfl, hstream, hle⟩
  · exact Or.inr ⟨_, hfill, hfeed', ⟨hframe, rfl, rfl, hpull, Nat.le_of_lt hwaits⟩, hwaits⟩

/-- A record that stands in `rx` is opened. -/
theorem openRecord_feed {w : RecordLayer} {len : UInt16} {body more : List UInt8}
    (hin : w.InStep c.recLayer) (hfits : p.Fits) (hbody : (w.sealed p.type p.data).1 = body)
    (hlen : len.toNat = body.length) (hle : RECORD_HEADER_LEN + body.length ≤ c.rx.length)
    (hbytes : c.rx ++ Piped.wire c.sock =
      RecordLayerT.header w.version p.type body.length ++ body ++ more) :
    ∃ c', Returns (openRecord ⟨p.type, w.version, len⟩) c p.data c' ∧ Kept c c' ∧
      (sendPiece w p).2.InStep c'.recLayer ∧ c'.rx ++ Piped.wire c'.sock = more := by
  have hhead := RecordLayerT.length_header w.version p.type body.length
  have hrx : c.rx = RecordLayerT.header w.version p.type body.length ++ body ++
      c.rx.drop (RECORD_HEADER_LEN + body.length) := by
    have htake := congrArg (List.take (RECORD_HEADER_LEN + body.length)) hbytes
    rw [List.take_append_of_le_length hle, List.take_left' (by rw [List.length_append, hhead])]
      at htake
    rw [← htake, List.take_append_drop]
  have hcut : (c.rx.drop RECORD_HEADER_LEN).take len.toNat = (w.sealed p.type p.data).1 := by
    rw [hrx, List.append_assoc, ← hhead, List.drop_left, hlen, List.take_left, hbody]
  have hun := hin.unprotect_sealed p.type hfits.2
  unfold Returns openRecord
  dsimp only
  rw [hcut, hun]
  refine ⟨_, rfl, ⟨⟨rfl, rfl, rfl, rfl, rfl, rfl, rfl, rfl⟩, rfl, rfl, .refl _, Nat.le_refl _⟩, ?_, ?_⟩
  · rw [sendPiece_fits hfits]
    exact ⟨rfl, congrArg (· + 1) hin.seq⟩
  · rw [hrx, List.append_assoc] at hbytes
    rw [hlen]
    exact List.append_cancel_left hbytes

/-- **The next record.**  It is read, or the read times out and nothing is lost. -/
theorem readRecord_feed (hfeed : Feed w' (p :: ps) rest c) (hfits : p.Fits) :
    (∃ h c', Returns readRecord c (h, p.data) c' ∧ h.type = p.type ∧ Feed w' ps rest c' ∧
        Kept c c') ∨
      ∃ c', Fails readRecord c timedOut c' ∧ Feed w' (p :: ps) rest c' ∧ Kept c c' ∧
        Piped.waits c'.sock < Piped.waits c.sock := by
  obtain ⟨w, hin, hw, hbytes⟩ := id hfeed
  have hlen := RecordLayerT.length_sealed_le w p.type hfits.2
  have hpiece := sendPiece_fits hfits w
  generalize hbody : (w.sealed p.type p.data).1 = body at hpiece hlen
  have hfirst : (sendPiece w p).1 = RecordLayerT.header w.version p.type body.length ++ body :=
    congrArg Prod.fst hpiece
  have hbytes' : c.rx ++ Piped.wire c.sock = RecordLayerT.header w.version p.type body.length ++
      body ++ ((sendPieces (sendPiece w p).2 ps).1 ++ rest) := by
    rw [hbytes, ← hfirst, ← List.append_assoc]
    rfl
  have hhead := RecordLayerT.length_header w.version p.type body.length
  have hneed : RECORD_HEADER_LEN + body.length ≤ (c.rx ++ Piped.wire c.sock).length := by
    rw [hbytes']
    simp only [List.length_append]
    omega
  unfold readRecord
  -- the header
  rcases @Feed.fill _ _ _ _ _ _ _ hfeed RECORD_HEADER_LEN (by omega) with
    ⟨c₁, hfill₁, hfeed₁, hkept₁, hlayer₁, hstream₁, hle₁⟩ | ⟨c₁, hfail, hfeed₁, hkept₁, hwaits⟩
  swap
  · exact Or.inr ⟨c₁, hfail.bind, hfeed₁, hkept₁, hwaits⟩
  obtain ⟨len, hparse, hval⟩ := @RecordLayerT.parseRecordHeader_header w.version p.type body hlen
  have hparse₁ : Returns (ofOption (Stop.failed "malformed record header") (parseRecordHeader c₁.rx))
      c₁ ⟨p.type, w.version, len⟩ c₁ := by
    rw [returns_ofOption, ← parseRecordHeader_append hle₁ (Piped.wire c₁.sock), hstream₁, hbytes',
      List.append_assoc, parseRecordHeader_append (Nat.le_of_eq hhead.symm)]
    rw [parseRecordHeader_append (Nat.le_of_eq hhead.symm)] at hparse
    exact ⟨hparse, rfl⟩
  have hvalid : Returns (demand (isValidContentType p.type = true)
      (Stop.failed ("invalid record content type " ++ toString p.type.toNat))) c₁ () c₁ :=
    demand_returns hfits.1
  -- the body
  have hneed₁ : RECORD_HEADER_LEN + len.toNat ≤ (c₁.rx ++ Piped.wire c₁.sock).length := by
    rw [hstream₁, hval]
    exact hneed
  rcases hfeed₁.fill hneed₁ with
    ⟨c₂, hfill₂, hfeed₂, hkept₂, hlayer₂, hstream₂, hle₂⟩ | ⟨c₂, hfail, hfeed₂, hkept₂, hwaits⟩
  swap
  · exact Or.inr ⟨c₂, hfill₁.bind_fails <| get_returns.bind_fails <|
      hparse₁.bind_fails <| hvalid.bind_fails hfail.bind, hfeed₂, hkept₁.trans hkept₂,
      Nat.lt_of_lt_of_le hwaits hkept₁.waits⟩
  obtain ⟨c₃, hopen, hkept₃, hin₃, hstream₃⟩ := @openRecord_feed _ _ _ _ c₂ _ len _ _
    (by rw [hlayer₂, hlayer₁]; exact hin) hfits hbody hval (by rw [← hval]; exact hle₂)
    ((hstream₂.trans hstream₁).trans hbytes')
  exact Or.inl ⟨_, c₃, hfill₁.bind <| get_returns.bind <| hparse₁.bind <|
    hvalid.bind <| hfill₂.bind <| hopen.bind (pure_returns _), rfl,
    ⟨_, hin₃, hw, hstream₃⟩, (hkept₁.trans hkept₂).trans hkept₃⟩

/-- Without timeouts, the next record is read. -/
theorem readRecord_prompt [hprompt : Prompt T] (hfeed : Feed w' (p :: ps) rest c)
    (hfits : p.Fits) : ∃ h c', Returns readRecord c (h, p.data) c' ∧ h.type = p.type ∧
      Feed w' ps rest c' ∧ Kept c c' := by
  rcases readRecord_feed hfeed hfits with h | ⟨_, _, _, _, hwaits⟩
  · exact h
  · rw [hprompt.waits_eq, hprompt.waits_eq] at hwaits
    exact absurd hwaits (Nat.lt_irrefl 0)

theorem handleAlert_ignored {T : Type} {c : ClientT T} {body : List UInt8} (h : Ignored body) :
    Returns (handleAlert body) c () c := by
  obtain ⟨a, ha, hlevel, hdesc⟩ := h
  unfold handleAlert
  refine (ofOption_returns ha).bind ?_
  rw [if_neg hdesc]
  exact demand_returns hlevel

/-! ### Messages -/

/-- What a message read changes, apart from the record layer and `hs`. -/
structure KeptHs (c c' : ClientT T) : Prop where
  frame : Frame c c'
  eof : c'.eof = c.eof
  pulled : Pulled c.sock c'.sock

/-- **The next message.**  It is read, however it was cut into records. -/
theorem nextHandshake_feed [Prompt T] {type : UInt8} {body more : List UInt8}
    (hlen : body.length < 2 ^ 24) (hfeed : Feed w' ps rest c) (hlegal : ∀ p ∈ ps, p.Legal)
    (hbytes : c.hs ++ payload ps = frame type body ++ more) {records : Nat}
    (hrecords : ps.length < records) :
    ∃ c' qs, Returns (nextHandshake records) c
        (frame type body, ⟨type, body, HANDSHAKE_HEADER_LEN + body.length⟩) c' ∧
      Feed w' qs rest c' ∧ (∀ p ∈ qs, p.Legal) ∧ c'.hs ++ payload qs = more ∧
      qs.length ≤ ps.length ∧ KeptHs c c' := by
  induction ps generalizing c records with
  | nil =>
      obtain ⟨records, rfl⟩ : ∃ n, records = n + 1 := ⟨records - 1, by omega⟩
      have hparse : parseHandshake c.hs =
          some ⟨type, body, HANDSHAKE_HEADER_LEN + body.length⟩ := by
        rw [← List.append_nil c.hs]
        exact hbytes ▸ parseHandshake_frame hlen more
      refine ⟨_, [], nextHandshake_buffered hparse, hfeed, hlegal,
        (message_unique hlen hparse hbytes).2, Nat.le_refl _, ⟨(Frame.refl c).setHs _, rfl, .refl _⟩⟩
  | cons p ps ih =>
      obtain ⟨records, rfl⟩ : ∃ n, records = n + 1 := ⟨records - 1, by omega⟩
      rcases hparse : parseHandshake c.hs with _ | m
      · obtain ⟨h, c₁, hread, htype, hfeed₁, hkept⟩ :=
          readRecord_prompt hfeed (hlegal p List.mem_cons_self).fits
        have hrest : ∀ q ∈ ps, q.Legal := fun q hq => hlegal q (List.mem_cons_of_mem p hq)
        have hless : ps.length < records := by
          rw [List.length_cons] at hrecords
          omega
        rw [payload_cons] at hbytes
        rw [nextHandshake]
        cases hlegal p List.mem_cons_self with
        | @fragment data hne hdata =>
            have hnot : ¬ h.type = CT_ALERT := by
              rw [htype]
              exact (by decide : ¬ CT_HANDSHAKE = CT_ALERT)
            rw [if_pos rfl, ← List.append_assoc, ← hkept.hs] at hbytes
            obtain ⟨c', qs, hret, hfeed', hlegal', hmore, hle, hkept'⟩ :=
              @ih { c₁ with hs := c₁.hs ++ data } hfeed₁ hrest hbytes _ hless
            refine ⟨c', qs, ?_, hfeed', hlegal', hmore, Nat.le_succ_of_le hle,
              ⟨(hkept.frame.setHs _).trans hkept'.frame, hkept'.eof.trans hkept.eof,
                hkept.pulled.trans hkept'.pulled⟩⟩
            refine get_returns.bind ?_
            rw [hparse]
            refine hread.bind ?_
            dsimp only
            rw [if_neg hnot]
            exact (demand_returns htype).bind <| (modify_returns _).bind hret
        | @alert data hign =>
            rw [if_neg (by decide : ¬ CT_ALERT = CT_HANDSHAKE), List.nil_append, ← hkept.hs] at hbytes
            obtain ⟨c', qs, hret, hfeed', hlegal', hmore, hle, hkept'⟩ := ih hfeed₁ hrest hbytes hless
            refine ⟨c', qs, ?_, hfeed', hlegal', hmore, Nat.le_succ_of_le hle,
              ⟨hkept.frame.trans hkept'.frame, hkept'.eof.trans hkept.eof,
                hkept.pulled.trans hkept'.pulled⟩⟩
            refine get_returns.bind ?_
            rw [hparse]
            refine hread.bind ?_
            dsimp only
            rw [if_pos htype]
            exact (handleAlert_ignored hign).bind hret
      · obtain ⟨rfl, hmore⟩ := message_unique hlen hparse hbytes
        exact ⟨_, p :: ps, nextHandshake_buffered hparse, hfeed, hlegal, hmore, Nat.le_refl _,
          ⟨(Frame.refl c).setHs _, rfl, .refl _⟩⟩

/-- The switch, after any number of alerts. -/
theorem readChangeCipherSpec_feed [Prompt T] {qs : List Piece}
    (hfeed : Feed w' (qs ++ [⟨CT_CHANGE_CIPHER_SPEC, [0x01]⟩]) rest c)
    (hqs : ∀ q ∈ qs, q.type = CT_ALERT ∧ Ignored q.data) {records : Nat}
    (hrecords : qs.length < records) :
    ∃ c', Returns (readChangeCipherSpec records) c () c' ∧ Feed w' [] rest c' ∧ Kept c c' := by
  induction qs generalizing c records with
  | nil =>
      obtain ⟨records, rfl⟩ : ∃ n, records = n + 1 := ⟨records - 1, by omega⟩
      obtain ⟨h, c₁, hread, htype, hfeed₁, hkept⟩ := readRecord_prompt hfeed ⟨rfl, by decide⟩
      have hnot : ¬ h.type = CT_ALERT := by
        rw [htype]
        decide
      refine ⟨c₁, ?_, hfeed₁, hkept⟩
      unfold readChangeCipherSpec
      refine hread.bind ?_
      dsimp only
      rw [if_neg hnot]
      exact (demand_returns htype).bind (demand_returns rfl)
  | cons q qs ih =>
      obtain ⟨records, rfl⟩ : ∃ n, records = n + 1 := ⟨records - 1, by omega⟩
      obtain ⟨htype, hign⟩ := hqs q List.mem_cons_self
      have hfits : q.Fits := by
        refine ⟨by rw [htype]; rfl, ?_⟩
        rw [hign.length]
        decide
      obtain ⟨h, c₁, hread, htype₁, hfeed₁, hkept⟩ := readRecord_prompt hfeed hfits
      obtain ⟨c', hret, hfeed', hkept'⟩ := ih (c := c₁) hfeed₁
        (fun q' hq' => hqs q' (List.mem_cons_of_mem q hq')) (Nat.lt_of_succ_lt_succ hrecords)
      refine ⟨c', ?_, hfeed', hkept.trans hkept'⟩
      unfold readChangeCipherSpec
      refine hread.bind ?_
      dsimp only
      rw [if_pos (htype₁.trans htype)]
      exact (handleAlert_ignored hign).bind hret

end ClientT

end Ilo2.Tls
