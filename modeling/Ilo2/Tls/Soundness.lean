import Ilo2.Tls.Talk

/-!
# Soundness of the handshake

* `handshake_sound` - **whatever the transport delivers, a handshake that returns has completed
  a conversation**.
* `keeps_handshake` - the client touches its socket through `recv` and `send_all` only.
* `handshake_not_only_warnings` - an alert of a level that is neither warning nor fatal is ignored,
  too.
-/

namespace Ilo2.Tls

open Crypto Attempt

namespace ClientT

section

variable {T : Type} [Transport T] [Observed T] {c' : ClientT T}

/-- **A handshake that returns has completed a conversation.** -/
theorem handshake_sound {records : Nat} {opt : Options} {sock : T} {rng : Rng}
    (hr : Returns (handshake records) (fresh opt sock rng) () c') :
    ∃ v : Conversation, v.Completed Ignored (fresh opt sock rng) c' := by
  simp only [handshake, returns_bind, returns_modify] at hr
  obtain ⟨random, c₁, h₁, sh, c₂, h₂, _, c₃, h₃, asked, c₄, h₄, _, c₅, h₅, premaster, c₆, h₆, _, c₇, h₇,
    _, c₈, h₈, rfl⟩ := hr
  have ho : Opening (fresh opt sock rng) [] [] [] (fresh opt sock rng) :=
    ⟨rfl, ⟨[], by simp [fresh], .nil _, by simp, rfl⟩, .start, by simp⟩
  obtain ⟨ho₁, hc₁⟩ := sendClientHello_sound ho ⟨rfl, rfl⟩ h₁
  obtain ⟨helloBody, ho₂, hc₂, hparse, hversion, hsuite, hcomp⟩ := receiveServerHello_sound ho₁ h₂
  obtain ⟨certificateBody, certs, ho₃, hc₃, hcerts, hkey⟩ := receiveCertificate_sound ho₂ h₃
  obtain ⟨requests, doneBody, ho₄, hc₄, hkey₄, hasked⟩ := receiveUntilDone_sound ho₃ h₄
  obtain ⟨ho₅, hc₅, hkey₅⟩ := sendCertificate_sound ho₄ (hc₄ (hc₃ (hc₂ hc₁))) h₅
  obtain ⟨cke, rng₁, rng₂, hcke, ho₆, hc₆⟩ := sendClientKeyExchange_sound ho₅ hc₅ h₆
  obtain ⟨fin, hfin, ho₇⟩ := sendFinished_sound ho₆ hc₆ h₇
  let v : Conversation :=
    ⟨opt.version, random, sh, helloBody, certificateBody, requests, doneBody, premaster, cke⟩
  have hcert : v.certificate = if asked then [buildEmptyCertificate] else [] := by
    cases asked with
    | true => exact if_neg (by simpa using hasked)
    | false => exact if_pos (by simpa using hasked)
  have hcertflat : v.certificate.flatten = if asked then buildEmptyCertificate else [] := by
    rw [hcert]
    cases asked <;> simp
  have hmsgs : [] ++ v.clientHello ++ frame HT_SERVER_HELLO helloBody ++
      frame HT_CERTIFICATE certificateBody ++ requests.flatMap (frame HT_CERTIFICATE_REQUEST) ++
        frame HT_SERVER_HELLO_DONE doneBody ++ (if asked then buildEmptyCertificate else []) ++ cke =
      v.messages := by
    rw [← hcertflat]
    simp only [Conversation.messages, Conversation.flight, List.nil_append, List.append_assoc, v]
  have hflight : [] ++ frame HT_SERVER_HELLO helloBody ++ frame HT_CERTIFICATE certificateBody ++
      requests.flatMap (frame HT_CERTIFICATE_REQUEST) ++ frame HT_SERVER_HELLO_DONE doneBody =
        v.flight := rfl
  replace hfin : fin = v.clientFinished := by
    rw [hfin, Conversation.clientFinished, ← hmsgs]
    rfl
  have ho₈ : Opening (fresh opt sock rng) v.flight (v.messages ++ v.clientFinished) v.sent c₇ := by
    rw [← hmsgs, ← hflight, ← hfin]
    have hsent : v.sent = [] ++ [plainRecord CT_HANDSHAKE v.clientHello] ++
        (if asked then [plainRecord CT_HANDSHAKE buildEmptyCertificate] else []) ++
          [plainRecord CT_HANDSHAKE cke] ++ [plainRecord CT_CHANGE_CIPHER_SPEC [0x01],
            (sendPiece (({} : RecordLayer).enableWriteCipher v.keys.clientMac v.keys.clientKey)
              ⟨CT_HANDSHAKE, fin⟩).1] := by
      rw [Conversation.sent, Conversation.sealedFinished, hcert, hfin]
      cases asked <;> rfl
    rw [hsent]
    exact ho₇
  obtain ⟨hsent, hreceived⟩ := receiveFinished_sound v ho₈ h₈
  exact ⟨v, rfl, hparse, hversion, hsuite, hcomp,
    ⟨certs, _, rng₁, rng₂, hcerts, hkey, by rw [← hkey₄, ← hkey₅]; exact hcke⟩, hreceived,
    hsent.trans ho₈.sent, rfl⟩

end

/-- The handshake with `quietServer` is one. -/
theorem handshake_sound_quiet : ∃ (records : Nat) (c' : ClientT Network) (v : Conversation),
    v.Completed Ignored (fresh {} { server := { conf := quietServer }, chunk := fun n => n % 7 } ones)
      c' ∧ Returns (handshake records)
        (fresh {} { server := { conf := quietServer }, chunk := fun n => n % 7 } ones) () c' := by
  obtain ⟨bound, hbound⟩ := @handshake_complete quietServer {}
    { server := { conf := quietServer }, chunk := fun n => n % 7 } ones rfl rfl rngSucceeds_ones
  obtain ⟨c', -, hret, -⟩ := hbound bound (Nat.le_refl _)
  obtain ⟨v, hv⟩ := handshake_sound hret
  exact ⟨bound, c', v, hv, hret⟩

/-! ### The socket -/

section

variable {T : Type} [Transport T] {I : T → Prop}

/-- A property that both operations of a transport keep. -/
structure Closed (I : T → Prop) : Prop where
  recv : ∀ t cap, I t → I (Transport.recv t cap).2
  sendAll : ∀ t data, I t → I (Transport.sendAll t data).2

/-- It holds of the client's socket. -/
abbrev On (I : T → Prop) (c : ClientT T) : Prop := I c.sock

omit [Transport T] in
/-- What does not touch the socket. -/
theorem keeps_store {f : ClientT T → ClientT T} (h : ∀ c, (f c).sock = c.sock) :
    Keeps (On I) (modify f : ClientM T Unit) := keeps_modify fun c hc => by
  rw [On, h]
  exact hc

variable (hI : Closed I)

include hI

theorem keeps_fill (need : Nat) : Keeps (On I) (fill (T := T) need) := by
  intro c h
  show I (fillLoop need c).2.sock
  induction hn : need - c.rx.length using Nat.strongRecOn generalizing c with
  | ind n ih =>
      rw [fillLoop]
      split
      · rename_i hlt
        have hrecv := hI.recv c.sock 4096 h
        split
        · rename_i b bs sock heq
          rw [heq] at hrecv
          exact ih _ (by rw [List.length_append, List.length_cons]; omega) _ hrecv rfl
        all_goals
          rename_i sock heq
          rw [heq] at hrecv
          exact hrecv
      · exact h

theorem keeps_sendRecord (type : UInt8) (data : List UInt8) :
    Keeps (On I) (sendRecord (T := T) type data) := by
  intro c h
  unfold sendRecord
  split
  · exact h
  · rename_i record layer _
    have hsend := hI.sendAll c.sock record h
    split <;> rename_i sock heq <;> rw [heq] at hsend <;> exact hsend

omit hI [Transport T] in
theorem keeps_openRecord (h : RecordHeader) : Keeps (On I) (openRecord (T := T) h) := by
  intro c hc
  unfold openRecord
  dsimp only
  split <;> exact hc

theorem keeps_readRecord : Keeps (On I) (readRecord (T := T)) :=
  (keeps_fill hI _).bind fun _ => keeps_get.bind fun _ => keeps_ofOption.bind fun _ =>
    keeps_demand.bind fun _ => (keeps_fill hI _).bind fun _ => (keeps_openRecord _).bind fun _ =>
      keeps_pure

omit hI [Transport T] in
theorem keeps_handleAlert (body : List UInt8) : Keeps (On I) (handleAlert (T := T) body) := by
  refine keeps_ofOption.bind fun a => Keeps.ite ?_ keeps_demand
  exact Keeps.bind (keeps_store fun _ => rfl) fun _ => keeps_fail

theorem keeps_nextHandshake (records : Nat) : Keeps (On I) (nextHandshake (T := T) records) := by
  induction records with
  | zero => exact keeps_fail
  | succ records ih =>
      refine keeps_get.bind fun c => ?_
      split
      · exact Keeps.bind (keeps_store fun _ => rfl) fun _ => keeps_ofOption.bind fun _ => keeps_pure
      · refine (keeps_readRecord hI).bind fun x => Keeps.ite ?_ ?_
        · exact (keeps_handleAlert _).bind fun _ => ih
        · exact keeps_demand.bind fun _ => Keeps.bind (keeps_store fun _ => rfl) fun _ => ih

theorem keeps_readChangeCipherSpec (records : Nat) :
    Keeps (On I) (readChangeCipherSpec (T := T) records) := by
  induction records with
  | zero => exact keeps_fail
  | succ records ih =>
      refine (keeps_readRecord hI).bind fun x => Keeps.ite ?_ ?_
      · exact (keeps_handleAlert _).bind fun _ => ih
      · exact keeps_demand.bind fun _ => keeps_demand

omit hI [Transport T] in
theorem keeps_draw {α : Type} (err : String) (f : Rng → Option α × Rng) :
    Keeps (On I) (draw (T := T) err f) := by
  intro c h
  unfold draw
  split <;> exact h

omit hI [Transport T] in
theorem keeps_absorb (msg : List UInt8) : Keeps (On I) (absorb (T := T) msg) :=
  keeps_store fun _ => rfl

theorem keeps_receiveUntilDone (records messages : Nat) (asked : Bool) :
    Keeps (On I) (receiveUntilDone (T := T) records messages asked) := by
  induction messages generalizing asked with
  | zero => exact keeps_fail
  | succ messages ih =>
      refine (keeps_nextHandshake hI _).bind fun x => (keeps_absorb _).bind fun _ => ?_
      exact keeps_pure.ite <| (ih true).ite <| keeps_fail.ite keeps_fail

/-- The whole handshake keeps what the two operations keep. -/
theorem keeps_handshake (records : Nat) : Keeps (On I) (handshake (T := T) records) := by
  have hnext := keeps_nextHandshake hI records
  have hsend := keeps_sendRecord hI
  refine Keeps.bind ?_ fun random => Keeps.bind ?_ fun sh => Keeps.bind ?_ fun _ =>
    (keeps_receiveUntilDone hI _ _ _).bind fun asked => Keeps.bind ?_ fun _ => Keeps.bind ?_ fun _ =>
      Keeps.bind ?_ fun _ => Keeps.bind ?_ fun _ => keeps_store fun _ => rfl
  · exact keeps_get.bind fun _ => (keeps_draw _ _).bind fun _ => (keeps_absorb _).bind fun _ =>
      (hsend _ _).bind fun _ => keeps_pure
  · exact hnext.bind fun _ => keeps_demand.bind fun _ => (keeps_absorb _).bind fun _ =>
      keeps_ofOption.bind fun _ => keeps_get.bind fun _ => keeps_demand.bind fun _ =>
        keeps_demand.bind fun _ => keeps_demand.bind fun _ =>
        Keeps.bind (keeps_store fun _ => rfl) fun _ =>
          keeps_pure
  · refine hnext.bind fun _ => keeps_demand.bind fun _ => (keeps_absorb _).bind fun _ =>
      keeps_ofOption.bind fun _ => Keeps.bind (keeps_store fun _ => rfl) fun _ => Keeps.bind ?_ fun _ =>
        keeps_store fun _ => rfl
    unfold certificateKey
    split
    · exact keeps_pure
    · exact keeps_fail
    · exact keeps_fail
  · exact ((keeps_absorb _).bind fun _ => hsend _ _).ite keeps_pure
  · exact keeps_get.bind fun _ => (keeps_draw _ _).bind fun _ => (keeps_draw _ _).bind fun _ =>
      (keeps_absorb _).bind fun _ => (hsend _ _).bind fun _ => keeps_pure
  · exact (hsend _ _).bind fun _ => Keeps.bind (keeps_store fun _ => rfl) fun _ =>
      keeps_get.bind fun _ =>
      (keeps_absorb _).bind fun _ => hsend _ _
  · refine Keeps.bind ?_ fun _ => Keeps.bind (keeps_store fun _ => rfl) fun _ => hnext.bind fun _ =>
      keeps_demand.bind fun _ => keeps_get.bind fun _ => keeps_demand.bind fun _ => keeps_absorb _
    exact keeps_get.bind fun _ => keeps_demand.bind fun _ => keeps_readChangeCipherSpec hI _

end

/-! ### An alert of an unknown level -/

/-- It is neither a warning nor fatal. -/
theorem ignored_unknown : ∀ data ∈ [[(0 : UInt8), 90]], Ignored data := by
  intro data hdata
  rw [List.mem_singleton.mp hdata]
  exact ⟨⟨0, 90⟩, rfl, by decide, by decide⟩

/-- A server whose first record is such an alert. -/
def unknownServer : HonestServer := mersenneServer [[0, 90]] ignored_unknown

/-- The server has answered, and with that record first; or it has not answered. -/
def FirstRecord (t : Network) : Prop :=
  (∃ more, t.delivered ++ t.wire = [21, 3, 1, 0, 2, 0, 90] ++ more) ∨
    (t.delivered ++ t.wire = [] ∧ (t.server.phase = .broken ∨
      t.server.phase = .clientHello ∧ t.server.conf = unknownServer ∧ t.server.layer.writer = {}))

theorem answerHello_unknown {s : Server} {pt : List UInt8} {version : UInt16}
    {random : Vector UInt8 RANDOM_LEN} (hconf : s.conf = unknownServer)
    (hwriter : s.layer.writer = {}) :
    ∃ more, (s.answerHello pt version random).1 = [21, 3, 1, 0, 2, 0, 90] ++ more := by
  obtain ⟨ps, hcut⟩ : ∃ ps, s.conf.flight.cut (Server.flight s.conf version).flatten =
      [⟨CT_ALERT, [0, 90]⟩] ++ ps := by
    rw [hconf]
    exact ⟨_, rfl⟩
  have hfirst : (sendPieces s.layer [⟨CT_ALERT, [0, 90]⟩]).1 = [21, 3, 1, 0, 2, 0, 90] := by
    rw [(@sendPieces_congr s.layer {} hwriter _).1]
    decide
  show ∃ more, (sendPieces s.layer (s.conf.flight.cut _)).1 = _
  rw [hcut, sendPieces_append, hfirst]
  exact ⟨_, rfl⟩

theorem closed_firstRecord : Closed FirstRecord where
  recv t cap h := by
    have htotal : (Network.recv t cap).2.delivered ++ (Network.recv t cap).2.wire =
        t.delivered ++ t.wire := by
      unfold Network.recv
      split
      · rfl
      · dsimp only
        rw [List.append_assoc, List.take_append_drop]
    have hserver : (Network.recv t cap).2.server = t.server := by
      unfold Network.recv
      split <;> rfl
    show FirstRecord (Network.recv t cap).2
    unfold FirstRecord
    rw [htotal, hserver]
    exact h
  sendAll t data h := by
    rcases h with ⟨more, hmore⟩ | ⟨hnil, hserver⟩
    · refine Or.inl ⟨more ++ (t.server.receive data).1, ?_⟩
      show t.delivered ++ (t.wire ++ (t.server.receive data).1) = _
      rw [← List.append_assoc, hmore, List.append_assoc]
    · have hanswer : (∃ more, (t.server.receive data).1 = [21, 3, 1, 0, 2, 0, 90] ++ more) ∨
          ((t.server.receive data).1 = [] ∧ (t.server.receive data).2.phase = .broken) := by
        unfold Server.receive
        split
        · rename_i h pt layer _ hopen
          have hwriter : layer.writer = t.server.layer.writer := by
            have hw := RecordLayerT.receive_writer t.server.layer data
            rw [hopen] at hw
            exact hw
          unfold Server.handle
          dsimp only
          rcases hserver with hphase | ⟨hphase, hconf, hfresh⟩
          · rw [hphase]
            exact Or.inr ⟨rfl, rfl⟩
          · rw [hphase]
            dsimp only
            repeat' split
            · exact Or.inl (answerHello_unknown hconf (hwriter.trans hfresh))
            all_goals exact Or.inr ⟨rfl, rfl⟩
        · exact Or.inr ⟨rfl, rfl⟩
      rcases hanswer with ⟨more, hout⟩ | ⟨hout, hphase⟩
      · refine Or.inl ⟨more, ?_⟩
        show t.delivered ++ (t.wire ++ (t.server.receive data).1) = _
        rw [← List.append_assoc, hnil, hout, List.nil_append]
      · refine Or.inr ⟨?_, Or.inl hphase⟩
        show t.delivered ++ (t.wire ++ (t.server.receive data).1) = _
        rw [← List.append_assoc, hnil, hout]
        rfl

/-- Not only warnings are ignored: with `unknownServer` the handshake returns, too. -/
theorem handshake_not_only_warnings : ¬ ∀ (records : Nat) (sock : Network) (rng : Rng)
    (c' : ClientT Network), Returns (handshake records) (fresh {} sock rng) () c' →
      ∃ v : Conversation, v.Completed (fun body => ∃ description ≠ 0, body = [1, description])
        (fresh {} sock rng) c' := by
  intro hall
  obtain ⟨bound, hbound⟩ := @handshake_complete unknownServer {}
    { server := { conf := unknownServer }, chunk := fun _ => 0 } ones rfl rfl rngSucceeds_ones
  obtain ⟨c', -, hret, -⟩ := hbound bound (Nat.le_refl _)
  obtain ⟨v, hv⟩ := hall _ _ _ _ hret
  obtain ⟨stream, before, switch, after, rest, hdelivered, hreads⟩ := hv.received
  have hfirst := (keeps_handshake closed_firstRecord bound).returns hret
    (Or.inr ⟨rfl, Or.inr ⟨rfl, rfl, rfl⟩⟩)
  replace hdelivered : c'.sock.delivered = stream := hdelivered
  obtain ⟨x, xs, hxs⟩ : ∃ x xs, before ++ switch :: after = x :: xs := by
    cases before with
    | nil => exact ⟨_, _, rfl⟩
    | cons x xs => exact ⟨_, _, rfl⟩
  have htotal : c'.sock.delivered ++ c'.sock.wire = x.wire ++
      (xs.flatMap Received.wire ++ rest ++ c'.sock.wire) := by
    rw [hdelivered, hreads.stream_eq, hxs, List.flatMap_cons]
    simp only [List.append_assoc]
  rcases hfirst with ⟨more, hmore⟩ | ⟨hnil, -⟩
  · rw [htotal] at hmore
    have htype : x.type = CT_ALERT := (List.cons.inj hmore).1
    cases before with
    | nil =>
        obtain ⟨rfl, -⟩ := List.cons.inj hxs
        rw [hreads.switch_type] at htype
        exact absurd htype (by decide)
    | cons y before =>
        obtain ⟨rfl, -⟩ := List.cons.inj hxs
        rcases hreads.before_kinds y List.mem_cons_self with hkind | ⟨-, description, -, hplain⟩
        · rw [hkind] at htype
          exact absurd htype (by decide)
        · have hbody := (hreads.cleartext y List.mem_cons_self).symm.trans hplain
          rw [Received.wire, hbody] at hmore
          have hlevel := congrArg (fun bs => bs[5]?) hmore
          exact absurd hlevel (by simp [RecordLayerT.header])
  · rw [htotal] at hnil
    cases hnil

end ClientT

end Ilo2.Tls
