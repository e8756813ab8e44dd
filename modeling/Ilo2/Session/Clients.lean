import Ilo2.Session.Telnet
import Ilo2.Ui.Framebuffer

/-!
# The two console clients

`ConsoleCore` decodes into a `TrackingFramebuffer` (`console_core.hpp`), `capture_dvc` into
a `CapFb` (`capture_dvc.cpp`).  Both feed the same transport; only `CapFb` overrides
`on_change_key`, so only the capture tool follows a server that changes keys.

* `Agree` - the two clients see the same bytes, paint the same picture and rekey whenever
  the decoder says so.
* `agree_iff` - **they agree on a stream if and only if its decoder never executes
  command 9**, nor stores a parameter past the end of `cmd_p_buff`.
-/

namespace Ilo2.Session

open Dvc Checked Ui

/-! ### The clients -/

/-- The framebuffer of the capture tool. -/
structure CapFb where
  fb : Framebuffer := {}
  pastes : Nat := 0
  dims : Nat := 0

namespace CapFb

def handle (s : CapFb) : Event → CapFb
  | .paste blk x y len => { s with pastes := s.pastes + 1, fb := s.fb.onPaste blk x y len }
  | .setDimensions w h => { s with dims := s.dims + 1, fb := s.fb.onSetDimensions w h }
  | _ => s

/-- `on_key_change`, set by `CaptureSession`, calls `change_key` of the session. -/
def calls : Event → List Call
  | .changeKey => [.changeKey]
  | _ => []

theorem handle_framebuffer (s : CapFb) (e : Event) : (s.handle e).fb = s.fb.handle e := by
  cases e <;> rfl

end CapFb

def captureSession : FrontEnd CapFb := ⟨CapFb.handle, CapFb.calls⟩

/-- `TrackingFramebuffer` does not override `on_change_key`, and no other hook reaches the
session. -/
def coreSession : FrontEnd TrackingFramebuffer := ⟨TrackingFramebuffer.handle, fun _ => []⟩

/-- A session before `connect`, with the keys for receiving and sending if it is encrypted. -/
def session (keys : Option (Vector UInt8 16 × Vector UInt8 16)) : CimSession :=
  match keys with
  | none => {}
  | some (kb, kc) => (CimSession.setupDecryption {} kb).setupEncryption kc

/-! ### Agreement -/

/-- Every call of `on_change_key` is answered by one of `change_key`, before the next byte. -/
def Handed.Rekeyed (b : Handed) : Prop := b.hooks.count .changeKey = b.calls.count .changeKey

/-- **What the two clients owe each other**, from any two states. -/
def Agree (core : Client TrackingFramebuffer) (cap : Client CapFb) (stream : List UInt8) : Prop :=
  ∃ core' cap' hc hp, core.feed coreSession stream = .ok (core', hc) ∧
    cap.feed captureSession stream = .ok (cap', hp) ∧
    hc.map Handed.byte = hp.map Handed.byte ∧
    core'.screen.fb = cap'.screen.fb ∧
    (∀ b ∈ hc, b.Rekeyed) ∧ ∀ b ∈ hp, b.Rekeyed

/-- No byte of the stream makes the client's decoder execute command 9. -/
def Quiet {F : Type} (fe : FrontEnd F) (x : Client F) : List UInt8 → Prop
  | [] => True
  | c :: cs =>
      (x.session.dvcMode = true → x.decoder.Quiet (x.session.decrypt c).1) ∧
        ∀ x' handed, x.step fe c = .ok (x', handed) → Quiet fe x' cs

/-- The clients have the same session, decoder and picture. -/
structure Same (core : Client TrackingFramebuffer) (cap : Client CapFb) : Prop where
  session : core.session = cap.session
  decoder : core.decoder = cap.decoder
  screen : core.screen.fb = cap.screen.fb

/-- The two framebuffers paint the hooks alike. -/
theorem foldl_framebuffer (hooks : List Event) {t : TrackingFramebuffer} {s : CapFb}
    (h : t.fb = s.fb) : (hooks.foldl TrackingFramebuffer.handle t).fb =
      (hooks.foldl CapFb.handle s).fb := by
  induction hooks generalizing t s with
  | nil => exact h
  | cons e hooks ih =>
      apply ih
      rw [TrackingFramebuffer.handle_framebuffer, CapFb.handle_framebuffer, h]

/-- The capture tool rekeys once for every call of its hook. -/
theorem count_calls (hooks : List Event) :
    (hooks.flatMap CapFb.calls).count .changeKey = hooks.count .changeKey := by
  induction hooks with
  | nil => rfl
  | cons e hooks ih =>
      rw [List.flatMap_cons, List.count_append, ih]
      cases e <;> simp [CapFb.calls, Nat.add_comm]

/-- Without command 9 it calls nothing. -/
theorem calls_eq_nil {hooks : List Event} (h : .changeKey ∉ hooks) :
    hooks.flatMap CapFb.calls = [] := by
  rw [List.flatMap_eq_nil_iff]
  intro e he
  cases e with
  | changeKey => exact absurd he h
  | _ => rfl

/-- The console core calls nothing. -/
theorem coreSession_calls (hooks : List Event) : hooks.flatMap coreSession.calls = [] := by
  rw [List.flatMap_eq_nil_iff]
  intro e _
  rfl

/-- **One byte** that is taken, without command 9, keeps the clients the same. -/
theorem Same.step {core : Client TrackingFramebuffer} {cap : Client CapFb} (h : Same core cap)
    (hinv : ByteInv core.decoder) {c : UInt8} (hfits : core.StepFits c)
    (hq : core.session.dvcMode = true → core.decoder.Quiet (core.session.decrypt c).1) :
    ∃ core' cap' hc hp, core.step coreSession c = .ok (core', hc) ∧
      cap.step captureSession c = .ok (cap', hp) ∧ hc.map Handed.byte = hp.map Handed.byte ∧
      Same core' cap' ∧ ByteInv core'.decoder ∧ (∀ b ∈ hc, b.Rekeyed) ∧ ∀ b ∈ hp, b.Rekeyed := by
  rcases hmode : core.session.dvcMode with _ | _
  · have hmode' : cap.session.dvcMode = false := h.session ▸ hmode
    refine ⟨_, _, _, _, Client.step_text hmode, Client.step_text hmode', rfl, ?_, hinv, ?_, ?_⟩
    · exact ⟨by rw [h.session], h.decoder, h.screen⟩
    · simp
    · simp
  · have hmode' : cap.session.dvcMode = true := h.session ▸ hmode
    obtain ⟨d, hooks, hd⟩ := processDvc_of_fits hinv (hfits hmode)
    have hinv' := processDvc_keeps hinv hd
    have hd' : cap.decoder.processDvc (cap.session.decrypt c).1 = .ok (d, hooks) := by
      rw [← h.decoder, ← h.session]
      exact hd
    have hno : .changeKey ∉ hooks := by
      rw [DvcDecoder.changeKey_mem_processDvc hinv hd, not_not]
      exact hq hmode
    refine ⟨_, _, _, _, Client.step_dvc hmode hd, Client.step_dvc hmode' hd', ?_, ?_, hinv', ?_, ?_⟩
    · rw [h.session]
      rfl
    · refine ⟨?_, rfl, foldl_framebuffer hooks h.screen⟩
      rw [coreSession_calls, show hooks.flatMap captureSession.calls = [] from calls_eq_nil hno,
        h.session]
    · intro b hb
      rw [List.mem_singleton.mp hb]
      show hooks.count .changeKey = (hooks.flatMap coreSession.calls).count .changeKey
      rw [coreSession_calls, List.count_eq_zero.mpr hno]
      rfl
    · intro b hb
      rw [List.mem_singleton.mp hb]
      exact (count_calls hooks).symm

/-- Without command 9 the clients agree. -/
theorem Same.agree {stream : List UInt8} : ∀ {core : Client TrackingFramebuffer}
    {cap : Client CapFb}, Same core cap → ByteInv core.decoder → Quiet coreSession core stream →
      core.FeedFits coreSession stream → Agree core cap stream := by
  induction stream with
  | nil =>
      intro core cap h _ _ _
      exact ⟨core, cap, [], [], rfl, rfl, rfl, h.screen, by simp, by simp⟩
  | cons c cs ih =>
      rintro core cap h hinv ⟨hq, hrest⟩ ⟨hfits, hfitsRest⟩
      obtain ⟨core₁, cap₁, hc, hp, hstep, hstep', hbytes, hsame, hinv₁, hrc, hrp⟩ :=
        h.step hinv hfits hq
      obtain ⟨core', cap', hc', hp', hfeed, hfeed', hbytes', hscreen, hrc', hrp'⟩ :=
        ih hsame hinv₁ (hrest core₁ hc hstep) (hfitsRest core₁ hc hstep)
      refine ⟨core', cap', hc ++ hc', hp ++ hp', ?_, ?_, ?_, hscreen, ?_, ?_⟩
      · rw [Client.feed_cons hstep, hfeed, ok_bind]
      · rw [Client.feed_cons hstep', hfeed', ok_bind]
      · rw [List.map_append, List.map_append, hbytes, hbytes']
      · intro b hb
        exact (List.mem_append.mp hb).elim (hrc b) (hrc' b)
      · intro b hb
        exact (List.mem_append.mp hb).elim (hrp b) (hrp' b)

/-- A console core that answers every call of its hook is never called. -/
theorem quiet_of_rekeyed {stream : List UInt8} : ∀ {core core' : Client TrackingFramebuffer}
    {hc : List Handed}, ByteInv core.decoder → core.feed coreSession stream = .ok (core', hc) →
      (∀ b ∈ hc, b.Rekeyed) → Quiet coreSession core stream := by
  induction stream with
  | nil => intro core core' hc _ _ _; trivial
  | cons c cs ih =>
      intro core core' hc hinv hfeed hrekeyed
      obtain ⟨core₁, handed, handed', hstep, hfeed', rfl⟩ := Client.feed_cons_ok hfeed
      have hinv₁ := (Client.step_keeps hinv hstep).1
      constructor
      · intro hmode
        obtain ⟨hno, -⟩ | ⟨-, d, hooks, hd, rfl, rfl⟩ := Client.step_cases hstep
        · exact absurd (hno.symm.trans hmode) (by decide)
        have hb := hrekeyed _ (List.mem_append_left _ (List.mem_singleton_self _))
        unfold Handed.Rekeyed at hb
        dsimp only at hb
        rw [coreSession_calls, List.count_nil, List.count_eq_zero] at hb
        rw [DvcDecoder.changeKey_mem_processDvc hinv hd, not_not] at hb
        exact hb
      · intro x' handed'' hstep'
        rw [hstep] at hstep'
        cases hstep'
        exact ih hinv₁ hfeed' fun b hb => hrekeyed b (List.mem_append_right _ hb)

/-- **The clients agree if and only if the decoder never executes command 9**, and stores no
parameter past the end of `cmd_p_buff`. -/
theorem agree_iff (keys : Option (Vector UInt8 16 × Vector UInt8 16)) (stream : List UInt8) :
    Agree { session := session keys, screen := {} } { session := session keys, screen := {} }
        stream ↔
      Quiet coreSession { session := session keys, screen := {} } stream ∧
        Client.FeedFits coreSession { session := session keys, screen := {} } stream := by
  constructor
  · rintro ⟨core', cap', hc, hp, hfeed, -, -, -, hrekeyed, -⟩
    exact ⟨quiet_of_rekeyed .fresh hfeed hrekeyed, Client.feedFits_of_feed .fresh hfeed⟩
  · rintro ⟨hq, hfits⟩
    exact Same.agree ⟨rfl, rfl, rfl⟩ .fresh hq hfits

/-! ### A server that changes keys -/

/-- Keys for receiving and sending. -/
def sampleKeys : Option (Vector UInt8 16 × Vector UInt8 16) :=
  some (Vector.replicate 16 0, Vector.replicate 16 1)

/-- `ESC [ r`, and a command 9. -/
def rekeyStream : List UInt8 := [0x1B, 0x5B, 0x72, 0x1D, 0x12]

/-- **The clients do not agree on every stream**: the console core ignores the command. -/
theorem clients_disagree : ¬ ∀ (keys : Option (Vector UInt8 16 × Vector UInt8 16))
    (stream : List UInt8), Agree { session := session keys, screen := {} }
      { session := session keys, screen := {} } stream := by
  intro hall
  obtain ⟨core', cap', hc, hp, hfeed, -, -, -, hrekeyed, -⟩ := hall sampleKeys rekeyStream
  have hobs : (match Client.feed coreSession { session := session sampleKeys, screen := {} }
      rekeyStream with
      | .ok (_, handed) => handed.all fun b => b.hooks.count .changeKey = b.calls.count .changeKey
      | .error _ => true) = false := by decide +kernel
  rw [hfeed] at hobs
  simp only [List.all_eq_false, decide_eq_true_eq] at hobs
  obtain ⟨b, hb, hne⟩ := hobs
  exact hne (hrekeyed b hb)

end Ilo2.Session
