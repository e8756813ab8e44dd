import Ilo2.Session.Outbound

/-!
# The preamble of the login token

`connect` arms `sending_encrypt_command_` and leaves it to `transmit` to write the key index
over the first bytes of the token.  But `Telnet::connect` returns early when the session is
connected, or its host is not reached, and `transmit` looks at the flag only if there is an
encrypter: then the flag outlives the call and meets the next string that is sent, which need
not be six bytes long.

* `preamble_step` - one operation.
* `preamble_iff` - **when the preamble is applied to login tokens only**: no string is sent
  while a token is outstanding.
* `preamble_hits` - a keep-alive message after a connection that failed.
-/

namespace Ilo2.Session.Outbound

open Crypto

/-! ### Sequences of operations -/

/-- `CimSession::change_key`. -/
def changeKey (o : Outbound) : Outbound := { o with session := o.session.changeKey }

/-- `disconnect`; what has been set up, and the flags of the encryption, stay. -/
def disconnect (o : Outbound) : Outbound := if o.connected then { o with connected := false } else o

/-- The public operations.  `reached` says whether a socket could be connected to the host. -/
inductive Op where
  | setupDecryption (key : Vector UInt8 16)
  | setupEncryption (key : Vector UInt8 16) (keyIndex : UInt32)
  | connect (reached : Bool) (login : List UInt8)
  | transmit (s : List UInt8)
  | changeKey
  | disconnect

def apply (accept : Accept) (o : Outbound) : Op → Outbound
  | .setupDecryption key => o.setupDecryption key
  | .setupEncryption key keyIndex => o.setupEncryption key keyIndex
  | .connect reached login => (o.connect accept reached login).2
  | .transmit s => o.transmit accept s
  | .changeKey => o.changeKey
  | .disconnect => o.disconnect

/-- The state in which `CimSession::connect` calls `Telnet::connect`. -/
def armed (o : Outbound) : Outbound :=
  if o.encryptionEnabled then { o with encryptionActive := true, sendingEncryptCommand := true }
  else o

/-- The token that `connect` builds. -/
def token (o : Outbound) (login : List UInt8) : List UInt8 :=
  if o.encryptionEnabled then preamble ++ login else login

/-- One run of `transmit` with a string that is not empty: the state it starts in, and whether
`connect` called it with its token. -/
structure Transmission where
  before : Outbound
  text : List UInt8
  isToken : Bool

/-- The runs of `transmit` in an operation. -/
def transmissions (o : Outbound) : Op → List Transmission
  | .connect reached login =>
      if o.connected = false ∧ reached = true ∧ o.token login ≠ [] then
        [⟨{ o.armed with connected := true }, o.token login, true⟩]
      else []
  | .transmit s => if s ≠ [] then [⟨o, s, false⟩] else []
  | _ => []

/-- The runs of `transmit` in a sequence of operations. -/
def sent (accept : Accept) : Outbound → List Op → List Transmission
  | _, [] => []
  | o, op :: ops => o.transmissions op ++ sent accept (o.apply accept op) ops

/-- `out` of `CimSession::transmit`: what is handed to `Telnet::transmit`. -/
def out (o : Outbound) (s : List UInt8) : List UInt8 :=
  match o.encryptionActive, o.session.rc4Encrypter with
  | true, some rc =>
      let head :=
        if o.sendingEncryptCommand then
          ([s.getD 0 0, s.getD 1 0] ++ indexBytes o.keyIndex).take s.length
        else []
      head ++ (rc.crypt (s.drop head.length)).1
  | _, _ => s

/-- `out`, for a string of which no byte is treated differently. -/
def whole (o : Outbound) (s : List UInt8) : List UInt8 :=
  match o.encryptionActive, o.session.rc4Encrypter with
  | true, some rc => (rc.crypt s).1
  | _, _ => s

/-- With the flag set, the string is the token and has room for the preamble; any other string
goes out as a whole. -/
structure Transmission.Proper (t : Transmission) : Prop where
  token : t.before.sendingEncryptCommand = true → t.isToken = true
  room : t.before.sendingEncryptCommand = true → preamble.length ≤ t.text.length
  other : t.isToken = false → t.before.out t.text = t.before.whole t.text

/-- The preamble is applied to login tokens only. -/
def TokensOnly (accept : Accept) (ops : List Op) : Prop := ∀ t ∈ sent accept {} ops, t.Proper

/-! ### The condition -/

/-- `connect` sends its token under the encrypter. -/
def Delivers (o : Outbound) (reached : Bool) : Prop :=
  o.connected = false ∧ reached = true ∧ o.session.rc4Encrypter.isSome

instance (o : Outbound) (reached : Bool) : Decidable (Delivers o reached) :=
  inferInstanceAs (Decidable (_ ∧ _ ∧ _))

/-- Whether a token is outstanding after an operation: the last `connect` with encryption
enabled has not sent it under the encrypter. -/
def outstanding (pending : Bool) (o : Outbound) : Op → Bool
  | .connect reached _ => if o.encryptionEnabled then ¬ o.Delivers reached else pending
  | _ => pending

/-- No string is sent while a token is outstanding. -/
def Careful (accept : Accept) : (pending : Bool) → Outbound → List Op → Prop
  | _, _, [] => True
  | pending, o, op :: ops =>
      (∀ s, op = .transmit s → s ≠ [] → pending = false) ∧
        Careful accept (outstanding pending o op) (o.apply accept op) ops

/-! ### One operation -/

variable {accept : Accept} {o : Outbound} {s login : List UInt8} {pending : Bool}

/-- The flags agree: encryption is enabled and active when the flag is set, and the flag says
whether a token is outstanding. -/
structure Flagged (pending : Bool) (o : Outbound) : Prop where
  enabled : o.sendingEncryptCommand = true → o.encryptionEnabled = true
  active : o.sendingEncryptCommand = true → o.encryptionActive = true
  pending : o.sendingEncryptCommand = pending

theorem Flagged.start : Flagged false {} := ⟨nofun, nofun, rfl⟩

/-- What an operation that is no `connect` leaves alone. -/
theorem Flagged.keep {o' : Outbound} (h : Flagged pending o)
    (hflag : o'.sendingEncryptCommand = o.sendingEncryptCommand)
    (henabled : o.encryptionEnabled = true → o'.encryptionEnabled = true)
    (hactive : o'.encryptionActive = o.encryptionActive) : Flagged pending o' := by
  refine ⟨?_, ?_, ?_⟩
  · intro hf
    exact henabled (h.enabled (hflag ▸ hf))
  · intro hf
    rw [hactive]
    exact h.active (hflag ▸ hf)
  · rw [hflag]
    exact h.pending

/-- Writing changes nothing but what is written. -/
theorem write_flags (accept : Accept) (o : Outbound) (data : List UInt8) :
    (o.write accept data).sendingEncryptCommand = o.sendingEncryptCommand ∧
      (o.write accept data).encryptionEnabled = o.encryptionEnabled ∧
      (o.write accept data).encryptionActive = o.encryptionActive := by
  rw [write]
  split
  · exact ⟨rfl, rfl, rfl⟩
  · exact ⟨rfl, rfl, rfl⟩

/-- **`transmit`** clears the flag if it encrypts, and hands on `out`. -/
theorem transmit_flags (accept : Accept) (o : Outbound) (hs : s ≠ []) :
    (o.transmit accept s).encryptionEnabled = o.encryptionEnabled ∧
      (o.transmit accept s).encryptionActive = o.encryptionActive ∧
      (o.transmit accept s).sendingEncryptCommand =
        (o.sendingEncryptCommand && ¬ (o.encryptionActive ∧ o.session.rc4Encrypter.isSome)) ∧
      ∃ o' : Outbound, o.transmit accept s = o'.write accept (o.out s) := by
  rw [transmit, if_neg hs, out]
  cases hactive : o.encryptionActive with
  | false =>
      obtain ⟨h₁, h₂, h₃⟩ := write_flags accept o s
      refine ⟨h₂, h₃.trans hactive, ?_, o, rfl⟩
      simp [h₁]
  | true =>
      cases hrc : o.session.rc4Encrypter with
      | none =>
          obtain ⟨h₁, h₂, h₃⟩ := write_flags accept o s
          refine ⟨h₂, h₃.trans hactive, ?_, o, rfl⟩
          simp [h₁]
      | some rc =>
          simp only
          refine ⟨(write_flags accept _ _).2.1, (write_flags accept _ _).2.2, ?_, _, rfl⟩
          simp [(write_flags accept _ _).1]

theorem connect_eq (accept : Accept) (o : Outbound) (reached : Bool) (login : List UInt8) :
    (o.connect accept reached login).2 =
      if o.connected then o.armed
      else if reached then { o.armed with connected := true }.transmit accept (o.token login)
      else o.armed := by
  have hconn : o.armed.connected = o.connected := by
    rw [armed]
    split
    · rfl
    · rfl
  rw [connect]
  show (if o.armed.connected then (true, o.armed)
    else if reached then
      (true, { o.armed with connected := true }.transmit accept (o.token login))
    else (false, o.armed)).2 = _
  rw [hconn]
  split
  · rfl
  · split
    · rfl
    · rfl

/-- **A connection with encryption enabled** leaves the flag set unless the token goes out under
the encrypter. -/
theorem connect_flagged (accept : Accept) (hen : o.encryptionEnabled = true) (reached : Bool)
    (login : List UInt8) :
    Flagged (decide (¬ o.Delivers reached)) (o.connect accept reached login).2 := by
  have harmed : o.armed =
      { o with encryptionActive := true, sendingEncryptCommand := true } := if_pos hen
  have hnil : o.token login ≠ [] := by simp [token, hen, preamble]
  rw [connect_eq, harmed]
  cases hconn : o.connected with
  | true => exact ⟨fun _ => hen, fun _ => rfl, by simp [Delivers, hconn]⟩
  | false =>
      cases reached with
      | false => exact ⟨fun _ => hen, fun _ => rfl, by simp [Delivers]⟩
      | true =>
          obtain ⟨h₁, h₂, h₃, -⟩ := transmit_flags accept
            { o with
              encryptionActive := true
              sendingEncryptCommand := true
              connected := true } hnil
          refine ⟨fun _ => h₁.trans hen, fun _ => h₂, h₃.trans ?_⟩
          simp [Delivers, hconn]

/-- A string that is sent while no token is outstanding. -/
theorem transmit_flagged (accept : Accept) (h : Flagged false o) (s : List UInt8) :
    Flagged false (o.transmit accept s) := by
  by_cases hs : s = []
  · rw [transmit, if_pos hs]
    exact h
  · obtain ⟨h₁, h₂, h₃, -⟩ := transmit_flags accept o hs
    refine h.keep (h₃.trans ?_) h₁.trans h₂
    simp [h.pending]

theorem transmission_proper (h : Flagged pending o) (s : List UInt8) :
    Transmission.Proper ⟨o, s, false⟩ ↔ pending = false := by
  constructor
  · intro hproper
    by_contra hset
    have htoken := hproper.token (h.pending.trans (by simpa using hset))
    cases htoken
  · intro hpending
    have hclear := h.pending.trans hpending
    refine ⟨fun hset => ?_, fun hset => ?_, fun _ => ?_⟩
    · rw [hclear] at hset
      cases hset
    · rw [hclear] at hset
      cases hset
    · simp [out, whole, hclear]

/-- The token has room for the preamble, whether the flag is set by this `connect` or was set
before. -/
theorem token_proper (h : Flagged pending o) (login : List UInt8) :
    Transmission.Proper ⟨{ o.armed with connected := true }, o.token login, true⟩ := by
  refine ⟨fun _ => rfl, fun hset => ?_, nofun⟩
  have hen : o.encryptionEnabled = true := by
    by_contra hen
    have hoff : o.armed = o := if_neg hen
    rw [hoff] at hset
    exact hen (h.enabled hset)
  simp [token, hen]

/-- **What an operation sends is proper** exactly if no token is outstanding when a string is
sent. -/
theorem transmissions_proper (h : Flagged pending o) (op : Op) :
    (∀ t ∈ o.transmissions op, t.Proper) ↔
      ∀ s, op = .transmit s → s ≠ [] → pending = false := by
  cases op with
  | transmit s =>
      by_cases hs : s = []
      · simp [transmissions, hs]
      · simp [transmissions, hs, transmission_proper h]
  | connect reached login =>
      refine ⟨fun _ _ hop => (nomatch hop), fun _ t ht => ?_⟩
      simp only [transmissions] at ht
      split at ht
      · rw [List.mem_singleton] at ht
        rw [ht]
        exact token_proper h login
      · cases ht
  | setupDecryption key => simp [transmissions]
  | setupEncryption key keyIndex => simp [transmissions]
  | changeKey => simp [transmissions]
  | disconnect => simp [transmissions]

/-- **One operation**: the flag says again whether a token is outstanding. -/
theorem preamble_step (accept : Accept) (h : Flagged pending o) (op : Op)
    (hcond : ∀ s, op = .transmit s → s ≠ [] → pending = false) :
    Flagged (outstanding pending o op) (o.apply accept op) := by
  cases op with
  | setupDecryption key => exact h.keep rfl (fun _ => rfl) rfl
  | setupEncryption key keyIndex => exact h.keep rfl id rfl
  | changeKey => exact h.keep rfl id rfl
  | disconnect =>
      show Flagged pending o.disconnect
      rw [disconnect]
      split
      · exact h.keep rfl id rfl
      · exact h
  | transmit s =>
      show Flagged pending (o.transmit accept s)
      by_cases hs : s = []
      · rw [transmit, if_pos hs]
        exact h
      · have hpending := hcond s rfl hs
        subst hpending
        exact transmit_flagged accept h s
  | connect reached login =>
      by_cases hen : o.encryptionEnabled = true
      · have hout : outstanding pending o (.connect reached login) =
            decide (¬ o.Delivers reached) := by
          simp [outstanding, hen]
        rw [hout]
        exact connect_flagged accept hen reached login
      · have hpending : pending = false := by
          rw [← h.pending]
          by_contra hset
          exact hen (h.enabled (by simpa using hset))
        have hout : outstanding pending o (.connect reached login) = pending := by
          simp [outstanding, hen]
        have hoff : o.armed = o := if_neg hen
        rw [hout]
        subst hpending
        show Flagged false (o.connect accept reached login).2
        rw [connect_eq, hoff]
        split
        · exact h
        · split
          · have hopen : Flagged false { o with connected := true } := h.keep rfl id rfl
            exact transmit_flagged accept hopen _
          · exact h

/-! ### Runs -/

theorem sent_iff (accept : Accept) (ops : List Op) : ∀ {pending : Bool} {o : Outbound},
    Flagged pending o →
      ((∀ t ∈ sent accept o ops, t.Proper) ↔ Careful accept pending o ops) := by
  induction ops with
  | nil => intro pending o _; simp [sent, Careful]
  | cons op ops ih =>
      intro pending o h
      have hsplit : (∀ t ∈ sent accept o (op :: ops), t.Proper) ↔
          (∀ t ∈ o.transmissions op, t.Proper) ∧
            ∀ t ∈ sent accept (o.apply accept op) ops, t.Proper := by
        simp only [sent, List.mem_append, or_imp, forall_and]
      rw [hsplit, transmissions_proper h, Careful]
      exact and_congr_right fun hcond => ih (preamble_step accept h op hcond)

/-- **When the preamble is applied to login tokens only**: no string is sent while a token is
outstanding. -/
theorem preamble_iff (accept : Accept) (ops : List Op) :
    TokensOnly accept ops ↔ Careful accept false {} ops := sent_iff accept ops Flagged.start

/-- **A keep-alive message of three bytes** after a connection that failed: the flag is still
set, and the key index is written over the message and past its end. -/
theorem preamble_hits : ¬ TokensOnly takesAll
    [.setupDecryption (Vector.replicate 16 0), .setupEncryption (Vector.replicate 16 1) 1,
      .connect false [0x61], .transmit [0x1B, 0x5B, 0x28]] := by
  intro h
  have hroom := (h _ (List.mem_cons_self ..)).room rfl
  exact absurd hroom (by decide)

end Ilo2.Session.Outbound
