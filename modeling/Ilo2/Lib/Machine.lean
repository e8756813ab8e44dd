import Mathlib.Tactic.Common

/-!
# Machines

A machine has a start state and a partial step function: an action is not enabled, or it
leads to one state and reports a list of outputs.  `Run allow` relates the outputs of a run
to the state it ends in; every step of it starts in a state and takes an action that
`allow` accepts.

* `Run.inv` - what holds at the start and is kept by every step holds in every run.
* `run_of_exec` - a list of actions that can be taken is a run.
* `Run.monitored` - a monitor that can follow every step accepts the outputs of every run.
* `observe` - the same machine with other outputs, and the two rules for it.
-/

structure Machine (σ α ω : Type*) where
  start : σ
  step : σ → α → Option (σ × List ω)

namespace Machine

/-- A step that is enabled under a condition. -/
theorem ite_some {α : Type*} {p : Prop} [Decidable p] {x y : α}
    (h : (if p then some x else none) = some y) : p ∧ x = y := by
  split at h
  · rename_i hp
    exact ⟨hp, Option.some.inj h⟩
  · cases h

variable {σ α ω : Type*} {M : Machine σ α ω} {allow : σ → α → Prop}

inductive Run (M : Machine σ α ω) (allow : σ → α → Prop) : List ω → σ → Prop
  | start : Run M allow [] M.start
  | step {tr s a out s'} : Run M allow tr s → allow s a → M.step s a = some (s', out) →
      Run M allow (tr ++ out) s'

/-- **The rule of invariants.** -/
theorem Run.inv (Inv : List ω → σ → Prop) (hstart : Inv [] M.start)
    (hstep : ∀ tr s a out s', Inv tr s → allow s a → M.step s a = some (s', out) →
      Inv (tr ++ out) s') {tr : List ω} {s : σ} (h : M.Run allow tr s) : Inv tr s := by
  induction h with
  | start => exact hstart
  | step _ ha hs ih => exact hstep _ _ _ _ _ ih ha hs

/-- The actions of a list, one after the other, as long as `allow` accepts them. -/
def exec (M : Machine σ α ω) (allow : σ → α → Prop) [∀ s a, Decidable (allow s a)] :
    σ → List α → Option (σ × List ω)
  | s, [] => some (s, [])
  | s, a :: as =>
      if allow s a then
        match M.step s a with
        | none => none
        | some (s', out) => (exec M allow s' as).map fun r => (r.1, out ++ r.2)
      else none

theorem Run.exec [∀ s a, Decidable (allow s a)] {as : List α} : ∀ {tr : List ω} {s : σ},
    M.Run allow tr s → ∀ {s' : σ} {out : List ω}, M.exec allow s as = some (s', out) →
      M.Run allow (tr ++ out) s' := by
  induction as with
  | nil =>
      intro tr s h s' out he
      cases he
      rwa [List.append_nil]
  | cons a as ih =>
      intro tr s h s' out he
      unfold Machine.exec at he
      split at he
      · rename_i ha
        split at he
        · cases he
        · rename_i s₁ out₁ hs
          obtain ⟨⟨s₂, out₂⟩, hrec, he⟩ := Option.map_eq_some_iff.mp he
          cases he
          rw [← List.append_assoc]
          exact ih (h.step ha hs) hrec
      · cases he

/-- A list of actions that can be taken is a run. -/
theorem run_of_exec [∀ s a, Decidable (allow s a)] {as : List α} {s : σ} {out : List ω}
    (h : M.exec allow M.start as = some (s, out)) : M.Run allow out s :=
  Run.exec .start h

/-! ### Monitors -/

variable {τ ε ι : Type*}

/-- **The rule of monitors.**  A monitor reads those outputs that `view` shows it, and may get
stuck.  If it can follow every step, from the state that `abs` gives it, then it accepts what
it sees of every run. -/
theorem Run.monitored (next : τ → ε → Option τ) (view : ω → Option ε) (abs : σ → τ)
    (hstep : ∀ s a out s', allow s a → M.step s a = some (s', out) →
      (out.filterMap view).foldlM next (abs s) = some (abs s'))
    {tr : List ω} {s : σ} (h : M.Run allow tr s) :
    (tr.filterMap view).foldlM next (abs M.start) = some (abs s) := by
  induction h with
  | start => rfl
  | step _ ha hs ih =>
      rw [List.filterMap_append, List.foldlM_append, ih]
      exact hstep _ _ _ _ ha hs

/-- The machine with other outputs, that are read off its steps. -/
def observe (M : Machine σ α ω) (report : σ → α → σ → List ω → List ε) : Machine σ α ε where
  start := M.start
  step s a := (M.step s a).map fun r => (r.1, report s a r.1 r.2)

variable {report : σ → α → σ → List ω → List ε}

theorem observe_step {s s' : σ} {a : α} {out : List ε} :
    (M.observe report).step s a = some (s', out) ↔
      ∃ out₀, M.step s a = some (s', out₀) ∧ out = report s a s' out₀ := by
  unfold observe
  simp only [Option.map_eq_some_iff, Prod.exists, Prod.mk.injEq]
  constructor
  · rintro ⟨s₁, out₀, hstep, rfl, rfl⟩
    exact ⟨out₀, hstep, rfl⟩
  · rintro ⟨out₀, hstep, rfl⟩
    exact ⟨s', out₀, hstep, rfl, rfl⟩

/-- The rule of invariants for the machine with other outputs. -/
theorem Run.observed_inv (Inv : List ε → σ → Prop) (hstart : Inv [] M.start)
    (hstep : ∀ tr s a out s', Inv tr s → allow s a → M.step s a = some (s', out) →
      Inv (tr ++ report s a s' out) s') {tr : List ε} {s : σ}
    (h : (M.observe report).Run allow tr s) : Inv tr s := by
  refine Run.inv Inv hstart ?_ h
  intro tr s a out s' ih ha hs
  obtain ⟨out₀, hs₀, rfl⟩ := observe_step.mp hs
  exact hstep tr s a out₀ s' ih ha hs₀

/-- The rule of monitors for the machine with other outputs. -/
theorem Run.observed_monitored (next : τ → ι → Option τ) (view : ε → Option ι) (abs : σ → τ)
    (hstep : ∀ s a out s', allow s a → M.step s a = some (s', out) →
      ((report s a s' out).filterMap view).foldlM next (abs s) = some (abs s'))
    {tr : List ε} {s : σ} (h : (M.observe report).Run allow tr s) :
    (tr.filterMap view).foldlM next (abs M.start) = some (abs s) := by
  refine Run.monitored next view abs ?_ h
  intro s a out s' ha hs
  obtain ⟨out₀, hs₀, rfl⟩ := observe_step.mp hs
  exact hstep s a out₀ s' ha hs₀

end Machine
