import Ilo2.Crypto.Rc4
import Ilo2.Dvc.Events

/-!
# The console transport

`telnet.hpp` and `ilo2_session.hpp`, as far as received bytes go: the escape sequence
that opens DVC mode, the decryption, and the rekeying of both directions.  What a DVC byte
does is left to the class that overrides `process_dvc`; here that is a decoder whose
hooks are a `FrontEnd`.

* `step_text`, `step_dvc` - the two kinds of a received byte.
* `feedFits_of_feed` - a stream that is taken makes the decoder store no parameter past the end
  of `cmd_p_buff`.
-/

namespace Ilo2.Session

open Dvc Checked Crypto

/-- The receiving state of `Telnet`, and the two ciphers of `CimSession`. -/
structure CimSession where
  dvcMode : Bool := false
  dvcEncryption : Bool := false
  escState : Nat := 0
  rc4Decrypter : Option RC4 := none
  rc4Encrypter : Option RC4 := none
deriving DecidableEq

/-- A call of a method of the session. -/
inductive Call where
  | changeKey
deriving DecidableEq

namespace CimSession

def setupDecryption (s : CimSession) (key : Vector UInt8 16) : CimSession :=
  { s with rc4Decrypter := some (RC4.ofSeed key) }

def setupEncryption (s : CimSession) (key : Vector UInt8 16) : CimSession :=
  { s with rc4Encrypter := some (RC4.ofSeed key) }

/-- `CimSession::change_key`: the encrypter, then `Telnet::change_key` for the decrypter. -/
def changeKey (s : CimSession) : CimSession :=
  { s with
    rc4Encrypter := s.rc4Encrypter.map RC4.updateKey
    rc4Decrypter := s.rc4Decrypter.map RC4.updateKey }

def apply (s : CimSession) : Call → CimSession
  | .changeKey => s.changeKey

/-- The first lines of `feed` in DVC mode: decrypt the byte if the mode says so. -/
def decrypt (s : CimSession) (c : UInt8) : UInt8 × CimSession :=
  match s.dvcEncryption, s.rc4Decrypter with
  | true, some rc => (c ^^^ rc.randomValue.1, { s with rc4Decrypter := some rc.randomValue.2 })
  | _, _ => (c, s)

/-- The rest of `feed`: a byte outside DVC mode. -/
def text (s : CimSession) (c : UInt8) : CimSession :=
  if c = 0x1B then { s with escState := 1 }
  else if s.escState = 1 ∧ c = 0x5B then { s with escState := 2 }
  else if s.escState = 2 ∧ c = 0x52 then { s with dvcMode := true, dvcEncryption := true }
  else if s.escState = 2 ∧ c = 0x72 then { s with dvcMode := true, dvcEncryption := false }
  else { s with escState := 0 }

end CimSession

/-- What a client adds to the decoder: what its hooks paint, and the methods of the
session that they call. -/
structure FrontEnd (F : Type) where
  handle : F → Event → F
  calls : Event → List Call

/-- A session, its decoder and its picture. -/
structure Client (F : Type) where
  session : CimSession := {}
  decoder : DvcDecoder := {}
  screen : F

/-- What one byte handed to `process_dvc` did. -/
structure Handed where
  byte : UInt8
  hooks : List Event
  calls : List Call

namespace Client

variable {F G : Type} {fe : FrontEnd F} {x x' : Client F} {c : UInt8}

/-- One round of the loop of `feed`. -/
def step (fe : FrontEnd F) (x : Client F) (c : UInt8) :
    Except Fault (Client F × List Handed) := do
  if x.session.dvcMode then
    let (byte, session) := x.session.decrypt c
    let (decoder, hooks) ← x.decoder.processDvc byte
    let calls := hooks.flatMap fe.calls
    .ok ({ session := calls.foldl CimSession.apply session
           decoder := decoder
           screen := hooks.foldl fe.handle x.screen }, [⟨byte, hooks, calls⟩])
  else .ok ({ x with session := x.session.text c }, [])

/-- `feed`, and the bytes it handed to `process_dvc`. -/
def feed (fe : FrontEnd F) (x : Client F) : List UInt8 → Except Fault (Client F × List Handed)
  | [] => .ok (x, [])
  | c :: cs => do
      let (x, handed) ← x.step fe c
      let (x, handed') ← x.feed fe cs
      .ok (x, handed ++ handed')

/-- A byte outside DVC mode. -/
theorem step_text (h : x.session.dvcMode = false) :
    x.step fe c = .ok ({ x with session := x.session.text c }, []) := by
  unfold step
  rw [h]
  rfl

/-- A byte in DVC mode. -/
theorem step_dvc (h : x.session.dvcMode = true) {d : DvcDecoder} {hooks : List Event}
    (hd : x.decoder.processDvc (x.session.decrypt c).1 = .ok (d, hooks)) :
    x.step fe c = .ok ({
      session := (hooks.flatMap fe.calls).foldl CimSession.apply (x.session.decrypt c).2
      decoder := d
      screen := hooks.foldl fe.handle x.screen },
      [⟨(x.session.decrypt c).1, hooks, hooks.flatMap fe.calls⟩]) := by
  unfold step
  rw [h, if_pos rfl]
  dsimp only
  rw [hd]
  rfl

/-- The byte makes the decoder store no parameter past the end of `cmd_p_buff`. -/
def StepFits (x : Client F) (c : UInt8) : Prop :=
  x.session.dvcMode = true → x.decoder.ByteFits (x.session.decrypt c).1

/-- So does every byte of the stream. -/
def FeedFits (fe : FrontEnd F) (x : Client F) : List UInt8 → Prop
  | [] => True
  | c :: cs => x.StepFits c ∧ ∀ x' handed, x.step fe c = .ok (x', handed) → x'.FeedFits fe cs

/-- A byte that was taken: a byte of text, or one that the decoder has taken. -/
theorem step_cases {handed : List Handed} (h : x.step fe c = .ok (x', handed)) :
    (x.session.dvcMode = false ∧ x' = { x with session := x.session.text c } ∧ handed = []) ∨
    x.session.dvcMode = true ∧ ∃ d hooks,
      x.decoder.processDvc (x.session.decrypt c).1 = .ok (d, hooks) ∧
      x' = {
        session := (hooks.flatMap fe.calls).foldl CimSession.apply (x.session.decrypt c).2
        decoder := d
        screen := hooks.foldl fe.handle x.screen } ∧
      handed = [⟨(x.session.decrypt c).1, hooks, hooks.flatMap fe.calls⟩] := by
  rcases hmode : x.session.dvcMode with _ | _
  · rw [step_text hmode] at h
    cases h
    exact Or.inl ⟨rfl, rfl, rfl⟩
  · have hstep := h
    unfold step at hstep
    rw [hmode, if_pos rfl] at hstep
    obtain ⟨⟨d, hooks⟩, hd, -⟩ := bind_eq_ok.mp hstep
    rw [step_dvc hmode hd] at h
    cases h
    exact Or.inr ⟨rfl, d, hooks, hd, rfl, rfl⟩

/-- It keeps the invariant, and its parameters went into the buffer. -/
theorem step_keeps {handed : List Handed} (hinv : ByteInv x.decoder)
    (h : x.step fe c = .ok (x', handed)) : ByteInv x'.decoder ∧ x.StepFits c := by
  obtain ⟨hmode, rfl, -⟩ | ⟨hmode, d, hooks, hd, rfl, -⟩ := step_cases h
  · exact ⟨hinv, fun hdvc => absurd (hmode.symm.trans hdvc) (by decide)⟩
  · exact ⟨processDvc_keeps hinv hd, fun _ => byteFits_of_processDvc hinv hd⟩

theorem feed_cons {x₁ : Client F} {handed : List Handed} (h : x.step fe c = .ok (x₁, handed))
    (cs : List UInt8) :
    x.feed fe (c :: cs) = x₁.feed fe cs >>= fun r => .ok (r.1, handed ++ r.2) := by
  rw [feed, h, ok_bind]

/-- A stream that was taken, by its first byte and the others. -/
theorem feed_cons_ok {handed : List Handed} {cs : List UInt8}
    (h : x.feed fe (c :: cs) = .ok (x', handed)) : ∃ x₁ handed₁ handed₂,
      x.step fe c = .ok (x₁, handed₁) ∧ x₁.feed fe cs = .ok (x', handed₂) ∧
      handed = handed₁ ++ handed₂ := by
  obtain ⟨⟨x₁, handed₁⟩, hstep, hrest⟩ := bind_eq_ok.mp h
  obtain ⟨⟨x₂, handed₂⟩, hfeed, he⟩ := bind_eq_ok.mp hrest
  cases he
  exact ⟨x₁, handed₁, handed₂, hstep, hfeed, rfl⟩

/-- The parameters of a stream that was taken went into the buffer. -/
theorem feedFits_of_feed {cs : List UInt8} : ∀ {x x' : Client F} {handed : List Handed},
    ByteInv x.decoder → x.feed fe cs = .ok (x', handed) → x.FeedFits fe cs := by
  induction cs with
  | nil => intro x x' handed _ _; trivial
  | cons c cs ih =>
      intro x x' handed hinv h
      obtain ⟨x₁, handed₁, handed₂, hstep, hfeed, -⟩ := feed_cons_ok h
      obtain ⟨hinv₁, hfits⟩ := step_keeps hinv hstep
      refine ⟨hfits, fun x'' handed'' hstep' => ?_⟩
      rw [hstep] at hstep'
      cases hstep'
      exact ih hinv₁ hfeed

end Client

end Ilo2.Session
