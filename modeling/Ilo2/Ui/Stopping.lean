import Ilo2.Ui.ConsoleCore

/-!
# Stopping

`stop` clears `running_`, disconnects the session if there is one, and waits for the
worker.  `live_thread` never looks at `running_`: a session that it publishes after the
test of `stop` enters its receive loop and nobody disconnects it.

* `stop_ends_loop` - **a stop ends or prevents the receive loop, if no session is published
  while it waits**.
* `stop_hangs` - otherwise the loop is entered and waits for the peer.
-/

namespace Ilo2.Ui.ConsoleCore

open Machine (ite_some)

variable {s s' : ConsoleCore} {out : List Out}

/-- What is asked of a step: a session is not published while `stop` waits. -/
def PublishesInTime (s : ConsoleCore) (a : Action) : Prop :=
  a = .worker .publish → s.caller ≠ .join

instance (s : ConsoleCore) (a : Action) : Decidable (s.PublishesInTime a) := by
  unfold PublishesInTime
  infer_instance

/-- While `stop` waits, `session_` is not connected. -/
def Cut (s : ConsoleCore) : Prop :=
  s.caller = .join → ∀ l, s.session = some l → l.connected = false

theorem Cut.of_ne (h : s.caller ≠ .join) : s.Cut := fun hj => absurd hj h

/-- A step that changes neither the caller nor the session. -/
theorem Cut.of_eq (h : s.Cut) (hc : s'.caller = s.caller) (hs : s'.session = s.session) :
    s'.Cut := by
  intro hj l hl
  exact h (hc ▸ hj) l (hs ▸ hl)

theorem disconnect_connected (l : Link) : l.disconnect.connected = false := by
  unfold Link.disconnect
  split
  · rfl
  · rename_i h
    exact Bool.not_eq_true _ ▸ h

/-- A step that disconnects the session. -/
theorem Cut.of_disconnect (hs : s'.session = s.session.map Link.disconnect) : s'.Cut := by
  intro _ l hl
  rw [hs] at hl
  obtain ⟨l', -, rfl⟩ := Option.map_eq_some_iff.mp hl
  exact disconnect_connected l'

theorem queueLocked_shared (s : ConsoleCore) (bytes : List UInt8) :
    (s.queueLocked bytes).1.caller = s.caller ∧ (s.queueLocked bytes).1.session = s.session := by
  unfold queueLocked
  split_ifs <;> exact ⟨rfl, rfl⟩

theorem queueAll_shared (bs : List (List UInt8)) : ∀ s : ConsoleCore,
    (s.queueAll bs).1.caller = s.caller ∧ (s.queueAll bs).1.session = s.session := by
  induction bs with
  | nil => intro s; exact ⟨rfl, rfl⟩
  | cons b bs ih =>
      intro s
      have hb := queueLocked_shared s b
      have hbs := ih (s.queueLocked b).1
      exact ⟨hbs.1.trans hb.1, hbs.2.trans hb.2⟩

/-- The input methods touch neither the caller nor the session. -/
theorem call_shared (s : ConsoleCore) (c : InputCall) :
    (s.call c).1.caller = s.caller ∧ (s.call c).1.session = s.session := by
  cases c with
  | mouseMove x y => exact queueLocked_shared _ _
  | typeText t => exact queueAll_shared _ s
  | requestRefresh => exact ⟨rfl, rfl⟩
  | _ => exact queueLocked_shared s _

theorem start_shared (s : ConsoleCore) (cfg : Config) :
    (s.start cfg).1.caller = s.caller ∧ (s.start cfg).1.session = s.session := by
  unfold start
  split_ifs <;> exact ⟨rfl, rfl⟩

theorem startReplay_shared (s : ConsoleCore) (file : Option Nat) (rate : Int) :
    (s.startReplay file rate).caller = s.caller ∧
      (s.startReplay file rate).session = s.session := by
  unfold startReplay
  by_cases hw : s.worker ≠ .none
  · rw [if_pos hw]
    exact ⟨rfl, rfl⟩
  · rw [if_neg hw]
    cases file <;> exact ⟨rfl, rfl⟩

theorem frontStep_cut {a : FrontAction} (hcut : s.Cut) (h : s.frontStep a = some (s', out)) :
    s'.Cut := by
  cases a with
  | start cfg =>
      obtain ⟨-, h⟩ := ite_some h
      have hs := start_shared s cfg
      rw [h] at hs
      exact hcut.of_eq hs.1 hs.2
  | startReplay file rate =>
      obtain ⟨-, h⟩ := ite_some h
      cases h
      have hs := startReplay_shared s file rate
      exact hcut.of_eq hs.1 hs.2
  | disconnect =>
      obtain ⟨-, h⟩ := ite_some h
      cases h
      exact .of_disconnect rfl
  | stop | join =>
      obtain ⟨-, h⟩ := ite_some h
      cases h
      exact .of_ne nofun
  | input c =>
      have hc := call_shared s c
      rw [show s.call c = (s', out) from Option.some.inj h] at hc
      exact hcut.of_eq hc.1 hc.2

theorem workerStep_cut {a : WorkerAction} (hcut : s.Cut) (h : s.workerStep a = some (s', out))
    (hallow : s.PublishesInTime (.worker a)) : s'.Cut := by
  cases a with
  | publish =>
      dsimp only [workerStep] at h
      split at h
      · cases h
        exact .of_ne (hallow rfl)
      · cases h
  | enter =>
      dsimp only [workerStep] at h
      split at h
      · rename_i l _ hl
        cases h
        intro hj l' hl'
        cases hl'
        exact hcut hj l hl
      · cases h
  | leave =>
      obtain ⟨-, h⟩ := ite_some h
      cases h
      exact .of_disconnect rfl
  | acquired ok =>
      obtain ⟨-, h⟩ := ite_some h
      cases h
      cases ok <;> exact hcut.of_eq rfl rfl
  | connected ok =>
      dsimp only [workerStep] at h
      split_ifs at h <;> cases h <;> exact hcut.of_eq rfl rfl
  | received r =>
      dsimp only [workerStep] at h
      split_ifs at h
      cases r <;> cases h <;> exact hcut.of_eq rfl rfl
  | replay fbW fbH =>
      dsimp only [workerStep] at h
      split at h
      · split_ifs at h <;> cases h <;> exact hcut.of_eq rfl rfl
      · cases h
  | setConnected | swap | finish =>
      obtain ⟨-, h⟩ := ite_some h
      cases h
      exact hcut.of_eq rfl rfl
  | test | transmit | pumped | replayStart =>
      dsimp only [workerStep] at h
      split at h
      · cases h
        exact hcut.of_eq rfl rfl
      · cases h

/-- **While `stop` waits, the session is cut**, in every run in which none is published
meanwhile. -/
theorem cut_of_run {tr : List Out} (h : machine.Run PublishesInTime tr s) : s.Cut := by
  refine Machine.Run.inv (fun _ s => s.Cut) (.of_ne (by decide)) ?_ h
  intro tr s a out s' hcut hallow hstep
  cases a with
  | front a => exact frontStep_cut hcut hstep
  | worker a => exact workerStep_cut hcut hstep hallow

/-- How far the worker is from the end of a loop that it will not enter again: the phase
of the round, and the strings that `pump` still has to hand over. -/
def loopRank : Worker → Nat × Nat
  | .swap => (4, 0)
  | .pump pending _ => (3, pending.length)
  | .recv => (2, 0)
  | .test => (1, 0)
  | _ => (0, 0)

/-- Once the session is cut, every step of the worker takes it closer to the end. -/
theorem loopRank_lt {a : WorkerAction} (hcut : ∀ l, s.session = some l → l.connected = false)
    (hloop : s.worker.InLoop) (h : s.workerStep a = some (s', out)) :
    Prod.Lex (· < ·) (· < ·) (loopRank s'.worker) (loopRank s.worker) := by
  cases a with
  | test =>
      dsimp only [workerStep] at h
      split at h
      · rename_i l hw hl
        cases h
        have hcond : ¬ (l.running = true ∧ l.connected = true) := by
          rintro ⟨-, hconn⟩
          rw [hcut l hl] at hconn
          cases hconn
        rw [hw, if_neg hcond]
        exact .left _ _ (by decide)
      · cases h
  | swap =>
      obtain ⟨hw, h⟩ := ite_some h
      cases h
      rw [hw]
      exact .left _ _ (by decide)
  | transmit =>
      dsimp only [workerStep] at h
      split at h
      · rename_i b pending refresh hw
        cases h
        rw [hw]
        exact .right _ (Nat.lt_succ_self _)
      · cases h
  | pumped due =>
      dsimp only [workerStep] at h
      split at h
      · rename_i refresh hw
        cases h
        rw [hw]
        exact .left _ _ (by decide)
      · cases h
  | received r =>
      dsimp only [workerStep] at h
      split_ifs at h with hw
      rw [hw]
      cases r <;> cases h <;> exact .left _ _ (by decide)
  | acquired | connected | setConnected | leave | finish =>
      -- These steps are taken outside the loop.
      dsimp only [workerStep] at h
      split_ifs at h with hw
      all_goals
        rw [hw] at hloop
        exact hloop.elim
  | publish | replayStart | replay =>
      dsimp only [workerStep] at h
      split at h
      · rename_i hw
        rw [hw] at hloop
        exact hloop.elim
      · cases h
  | enter =>
      dsimp only [workerStep] at h
      split at h
      · rename_i l hw _
        rw [hw] at hloop
        exact hloop.elim
      · cases h

/-- **A stop ends the receive loop, or prevents it.**  While it waits the worker is not in
the loop with a connected session, in every run in which no session is published meanwhile;
the worker leaves the loop at its next test, which every step of its own brings closer,
whether or not the peer closes. -/
theorem stop_ends_loop (tr : List Out) (s : ConsoleCore) (h : machine.Run PublishesInTime tr s)
    (hj : s.caller = .join) :
    ¬ (s.worker.InLoop ∧ ∃ l, s.session = some l ∧ l.connected = true) ∧
    (∀ s' out, s.step (.worker .test) = some (s', out) → s'.worker = .leave) ∧
    ∀ a s' out, s.worker.InLoop → s.step (.worker a) = some (s', out) →
      Prod.Lex (· < ·) (· < ·) (loopRank s'.worker) (loopRank s.worker) := by
  have hcut := cut_of_run h hj
  refine ⟨?_, ?_, fun a s' out hloop hstep => loopRank_lt hcut hloop hstep⟩
  · rintro ⟨-, l, hl, hconn⟩
    rw [hcut l hl] at hconn
    cases hconn
  · intro s' out hstep
    have hstep : s.workerStep .test = some (s', out) := hstep
    dsimp only [workerStep] at hstep
    split at hstep
    · rename_i l _ hl
      cases hstep
      exact if_neg fun hrun => by rw [hcut l hl] at hrun; exact absurd hrun.2 (by decide)
    · cases hstep

/-- A session that is published, and the start of a `stop`. -/
def stopLive : List Action :=
  [.front (.start ⟨"a", 0⟩), .worker (.acquired true), .worker (.connected true),
    .worker .publish, .worker .setConnected, .worker .enter, .front .stop, .front .disconnect]

/-- A `stop` of a session that has just entered its loop. -/
theorem stop_ends_loop_live : ∃ tr s, machine.Run PublishesInTime tr s ∧ s.caller = .join ∧
    s.worker.InLoop ∧ (∃ l, s.session = some l) ∧
    ¬ (s.worker.InLoop ∧ ∃ l, s.session = some l ∧ l.connected = true) := by
  have hexec : (machine.exec PublishesInTime machine.start stopLive).map
      (fun r => (r.1.caller, r.1.worker, r.1.session.isSome)) = some (.join, .test, true) := by
    decide
  obtain ⟨⟨s, tr⟩, hexec, hobs⟩ := Option.map_eq_some_iff.mp hexec
  simp only [Prod.mk.injEq, Option.isSome_iff_exists] at hobs
  obtain ⟨hj, hw, hl⟩ := hobs
  have hrun := Machine.run_of_exec hexec
  exact ⟨tr, s, hrun, hj, by rw [hw]; trivial, hl, (stop_ends_loop tr s hrun hj).1⟩

/-- A `stop` between `connect` and the publication of the session. -/
def stopConnecting : List Action :=
  [.front (.start ⟨"a", 0⟩), .worker (.acquired true), .worker (.connected true),
    .front .stop, .front .disconnect, .worker .publish, .worker .setConnected, .worker .enter]

/-- **A stop can be missed**: the worker enters the receive loop, connected, while `stop`
waits for it. -/
theorem stop_hangs : ¬ ∀ (tr : List Out) (s : ConsoleCore),
    machine.Run (fun _ _ => True) tr s → s.caller = .join →
      ¬ (s.worker.InLoop ∧ ∃ l, s.session = some l ∧ l.connected = true) := by
  intro hall
  have hexec : (machine.exec (fun _ _ => True) machine.start stopConnecting).map
      (fun r => (r.1.caller, r.1.worker, r.1.session)) =
        some (.join, .test, some ⟨true, true⟩) := by
    decide
  obtain ⟨⟨s, tr⟩, hexec, hobs⟩ := Option.map_eq_some_iff.mp hexec
  simp only [Prod.mk.injEq] at hobs
  obtain ⟨hj, hw, hl⟩ := hobs
  refine hall tr s (Machine.run_of_exec hexec) hj ⟨?_, _, hl, rfl⟩
  rw [hw]
  trivial

end Ilo2.Ui.ConsoleCore
