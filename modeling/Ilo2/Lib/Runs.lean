import Mathlib.Tactic.Common

/-!
# Runs of consecutive indices

`scan` passes once over the indices from `i` on and returns the maximal runs on which
`p` holds, as half-open intervals.  It remembers only where the open run began.

* `scan_true` - an interval is not empty and `p` holds all over it.
* `scan_pairwise` - the intervals come in order and do not meet.
* `scan_covers` - every index at which `p` holds is in one, if the pass ends on an index
  at which it does not.
-/

namespace Runs

/-- The runs of `p` on `i, …, i + m - 1`; `start` is where the open run began. -/
def scan (p : Nat → Bool) : (m i : Nat) → (start : Option Nat) → List (Nat × Nat)
  | 0, _, _ => []
  | m + 1, i, none => scan p m (i + 1) (if p i then some i else none)
  | m + 1, i, some a => if p i then scan p m (i + 1) (some a) else (a, i) :: scan p m (i + 1) none

/-- The open run is a run so far. -/
def Open (p : Nat → Bool) (i : Nat) (start : Option Nat) : Prop :=
  ∀ a ∈ start, a < i ∧ ∀ j, a ≤ j → j < i → p j = true

variable {p : Nat → Bool}

theorem Open.none (i : Nat) : Open p i none := fun _ h => nomatch h

theorem Open.begin {i : Nat} (h : p i = true) : Open p (i + 1) (some i) := by
  intro a ha
  cases ha
  exact ⟨Nat.lt_succ_self _, fun j h1 h2 => (show j = i by omega) ▸ h⟩

theorem Open.extend {i a : Nat} (h : Open p i (some a)) (hi : p i = true) :
    Open p (i + 1) (some a) := by
  intro b hb
  cases hb
  obtain ⟨hlt, hall⟩ := h a rfl
  refine ⟨by omega, fun j h1 h2 => ?_⟩
  rcases Nat.lt_succ_iff_lt_or_eq.mp h2 with hj | rfl
  · exact hall j h1 hj
  · exact hi

/-- An interval starts at the open run or later, is not empty, and `p` holds on it. -/
theorem scan_true {m i : Nat} {start : Option Nat} (h : Open p i start) :
    ∀ r ∈ scan p m i start, start.getD i ≤ r.1 ∧ r.1 < r.2 ∧ r.2 < i + m ∧
      ∀ j, r.1 ≤ j → j < r.2 → p j = true := by
  induction m generalizing i start with
  | zero => intro r hr; cases hr
  | succ m ih =>
      intro r hr
      cases start with
      | none =>
          rw [scan] at hr
          by_cases hp : p i = true
          · rw [if_pos hp] at hr
            obtain ⟨h1, h2, h3, h4⟩ := ih (.begin hp) r hr
            exact ⟨h1, h2, by omega, h4⟩
          · rw [if_neg hp] at hr
            obtain ⟨h1, h2, h3, h4⟩ := ih (.none _) r hr
            simp only [Option.getD_none] at h1 ⊢
            exact ⟨by omega, h2, by omega, h4⟩
      | some a =>
          rw [scan] at hr
          obtain ⟨hlt, hall⟩ := h a rfl
          by_cases hp : p i = true
          · rw [if_pos hp] at hr
            obtain ⟨h1, h2, h3, h4⟩ := ih (h.extend hp) r hr
            exact ⟨h1, h2, by omega, h4⟩
          · rw [if_neg hp] at hr
            rcases List.mem_cons.mp hr with rfl | hr
            · exact ⟨Nat.le_refl _, hlt, by dsimp only; omega, hall⟩
            · obtain ⟨h1, h2, h3, h4⟩ := ih (.none _) r hr
              simp only [Option.getD_none, Option.getD_some] at h1 ⊢
              exact ⟨by omega, h2, by omega, h4⟩

theorem scan_pairwise {m i : Nat} {start : Option Nat} (h : Open p i start) :
    (scan p m i start).Pairwise fun a b => a.2 ≤ b.1 := by
  induction m generalizing i start with
  | zero => exact List.Pairwise.nil
  | succ m ih =>
      cases start with
      | none =>
          rw [scan]
          by_cases hp : p i = true
          · rw [if_pos hp]
            exact ih (.begin hp)
          · rw [if_neg hp]
            exact ih (.none _)
      | some a =>
          rw [scan]
          by_cases hp : p i = true
          · rw [if_pos hp]
            exact ih (h.extend hp)
          · rw [if_neg hp]
            refine List.Pairwise.cons (fun r hr => ?_) (ih (.none _))
            have := (scan_true (Open.none _) r hr).1
            simp only [Option.getD_none] at this
            exact Nat.le_of_succ_le this

/-- A pass that ends on an index outside `p` misses nothing. -/
theorem scan_covers {m i : Nat} {start : Option Nat} (h : Open p i start)
    (hlast : p (i + m) = false) :
    ∀ j, start.getD i ≤ j → j < i + (m + 1) → p j = true →
      ∃ r ∈ scan p (m + 1) i start, r.1 ≤ j ∧ j < r.2 := by
  induction m generalizing i start with
  | zero =>
      intro j hj hlt hp
      have hne : j ≠ i := by
        rintro rfl
        rw [Nat.add_zero, hp] at hlast
        cases hlast
      cases start with
      | none =>
          simp only [Option.getD_none] at hj
          omega
      | some a =>
          have hi : ¬ p i = true := by
            rw [Nat.add_zero] at hlast
            rw [hlast]
            decide
          rw [scan, if_neg hi]
          exact ⟨(a, i), List.mem_cons_self, hj, by dsimp only; omega⟩
  | succ m ih =>
      intro j hj hlt hp
      have hlast' : p (i + 1 + m) = false := by rw [← hlast]; congr 1; omega
      cases start with
      | none =>
          rw [scan]
          simp only [Option.getD_none] at hj
          by_cases hpi : p i = true
          · rw [if_pos hpi]
            exact ih (.begin hpi) hlast' j hj (by omega) hp
          · rw [if_neg hpi]
            have hne : j ≠ i := fun he => hpi (he ▸ hp)
            exact ih (.none _) hlast' j (show i + 1 ≤ j by omega) (by omega) hp
      | some a =>
          rw [scan]
          simp only [Option.getD_some] at hj
          by_cases hpi : p i = true
          · rw [if_pos hpi]
            exact ih (h.extend hpi) hlast' j hj (by omega) hp
          · rw [if_neg hpi]
            rcases Nat.lt_or_ge j i with hji | hji
            · exact ⟨(a, i), List.mem_cons_self, hj, hji⟩
            · have hne : j ≠ i := fun he => hpi (he ▸ hp)
              obtain ⟨r, hr, hrange⟩ :=
                ih (.none _) hlast' j (show i + 1 ≤ j by omega) (by omega) hp
              exact ⟨r, List.mem_cons_of_mem _ hr, hrange⟩

end Runs
