import Mathlib.Algebra.GroupWithZero.Nat
import Mathlib.Algebra.BigOperators.Group.Finset.Basic
import Mathlib.Algebra.BigOperators.Group.Finset.Piecewise
import Mathlib.Algebra.Order.BigOperators.Group.Finset
import Mathlib.Order.Interval.Finset.Nat

/-!
# Intervals of positions

The interval `(first, last)` has the positions from `first` to `last`, both included.

* `total_eq` - the lengths of some intervals count the positions, as often as they are had.
* `total_le_hits` - **how long they are together**: less than the positions that there are, once
  for all of them and once more for each interval that meets an earlier one.
* `has_join` - two intervals that overlap or are adjacent have the positions of one.
-/

namespace Intervals

/-- The position `b` is in the interval. -/
def Has (r : Int × Int) (b : Int) : Prop := r.1 ≤ b ∧ b ≤ r.2

instance (r : Int × Int) (b : Int) : Decidable (Has r b) := instDecidableAnd

/-- An interval that is not empty, of `n` positions from 0 on. -/
def Inside (n : Nat) (r : Int × Int) : Prop := 0 ≤ r.1 ∧ r.1 ≤ r.2 ∧ r.2 < n

instance (n : Nat) (r : Int × Int) : Decidable (Inside n r) := instDecidableAnd

def length (r : Int × Int) : Nat := (r.2 + 1 - r.1).toNat

/-- The lengths of all of them. -/
def total (rs : List (Int × Int)) : Nat := (rs.map length).sum

/-- In how many intervals a position is. -/
def count (rs : List (Int × Int)) (b : Int) : Nat := rs.countP fun r => Has r b

/-- Two intervals have a position in common. -/
def Meets (r s : Int × Int) : Prop := ∃ b, Has r b ∧ Has s b

variable {n : Nat} {r s : Int × Int} {rs ss : List (Int × Int)}

/-- Two intervals have none in common if one ends before the other starts. -/
theorem meets_iff (hr : r.1 ≤ r.2) (hs : s.1 ≤ s.2) : Meets r s ↔ ¬ (r.2 < s.1 ∨ s.2 < r.1) := by
  constructor
  · rintro ⟨b, hr, hs⟩
    unfold Has at hr hs
    omega
  · intro h
    refine ⟨max r.1 s.1, ⟨?_, ?_⟩, ?_, ?_⟩ <;> omega

/-! ### Counting -/

theorem count_cons (r : Int × Int) (rs : List (Int × Int)) (b : Int) :
    count (r :: rs) b = count rs b + if Has r b then 1 else 0 := by
  rw [count, List.countP_cons]
  simp only [decide_eq_true_eq]
  rfl

theorem count_append (rs ss : List (Int × Int)) (b : Int) :
    count (rs ++ ss) b = count rs b + count ss b := List.countP_append

theorem count_pos {b : Int} : 0 < count rs b ↔ ∃ r ∈ rs, Has r b := by
  rw [count, List.countP_pos_iff]
  simp only [decide_eq_true_eq]

/-- The length of an interval counts its positions. -/
theorem length_eq (h : Inside n r) :
    length r = ∑ b ∈ Finset.range n, if Has r b then 1 else 0 := by
  have hfilter : (Finset.range n).filter (fun b : Nat => Has r b) =
      Finset.Icc r.1.toNat r.2.toNat := by
    ext b
    obtain ⟨h0, hle, hlt⟩ := h
    rw [Finset.mem_filter, Finset.mem_range, Finset.mem_Icc, Has]
    omega
  obtain ⟨h0, hle, hlt⟩ := h
  rw [← Finset.card_filter, hfilter, Nat.card_Icc, length]
  omega

/-- **The lengths count the positions.** -/
theorem total_eq (h : ∀ r ∈ rs, Inside n r) :
    total rs = ∑ b ∈ Finset.range n, count rs b := by
  induction rs with
  | nil => exact (Finset.sum_eq_zero fun b _ => rfl).symm
  | cons r rs ih =>
      have htail := ih fun r hr => h r (List.mem_cons_of_mem _ hr)
      have hhead := length_eq (h r List.mem_cons_self)
      simp only [count_cons, Finset.sum_add_distrib]
      rw [← htail, ← hhead, total, List.map_cons, List.sum_cons, Nat.add_comm]
      rfl

theorem total_mono (hr : ∀ r ∈ rs, Inside n r) (hs : ∀ s ∈ ss, Inside n s)
    (h : ∀ b, count rs b ≤ count ss b) : total rs ≤ total ss := by
  rw [total_eq hr, total_eq hs]
  exact Finset.sum_le_sum fun b _ => h b

theorem total_le {k : Nat} (hr : ∀ r ∈ rs, Inside n r) (h : ∀ b, count rs b ≤ k) :
    total rs ≤ k * n := by
  rw [total_eq hr]
  calc ∑ b ∈ Finset.range n, count rs b
      ≤ ∑ _b ∈ Finset.range n, k := Finset.sum_le_sum fun b _ => h b
    _ = k * n := by rw [Finset.sum_const_nat fun _ _ => rfl, Finset.card_range, Nat.mul_comm]

/-! ### Intervals that meet earlier ones -/

open Classical in
/-- How many of the intervals meet one that comes before them. -/
noncomputable def hits (before : List (Int × Int)) : List (Int × Int) → Nat
  | [] => 0
  | r :: rs => hits (before ++ [r]) rs + if ∃ s ∈ before, Meets s r then 1 else 0

/-- A position is in one interval, and in others only if they meet an earlier one. -/
theorem count_le_hits (rs : List (Int × Int)) (b : Int) : ∀ before : List (Int × Int),
    count rs b ≤ hits before rs + if count before b = 0 then 1 else 0 := by
  induction rs with
  | nil => intro before; exact Nat.zero_le _
  | cons r rs ih =>
      intro before
      have htail := ih (before ++ [r])
      have hlast : count (before ++ [r]) b = count before b + if Has r b then 1 else 0 := by
        rw [count_append, count_cons]
        show count before b + (0 + _) = _
        omega
      rw [count_cons, hits]
      rw [hlast] at htail
      by_cases hb : Has r b
      · rw [if_pos hb] at htail ⊢
        by_cases h0 : count before b = 0
        · rw [if_neg (by omega)] at htail
          rw [if_pos h0]
          omega
        · obtain ⟨s, hs, hsb⟩ := count_pos.mp (Nat.pos_of_ne_zero h0)
          rw [if_neg (by omega)] at htail
          rw [if_pos ⟨s, hs, b, hsb, hb⟩]
          omega
      · rw [if_neg hb, Nat.add_zero] at htail
        rw [if_neg hb]
        omega

/-- **How long the intervals are together.** -/
theorem total_le_hits (h : ∀ r ∈ rs, Inside n r) : total rs ≤ (hits [] rs + 1) * n :=
  total_le h fun b => count_le_hits rs b []

/-! ### Joining -/

/-- **An interval that starts in another one, or right behind it**, continues it. -/
theorem has_join (h : r.1 ≤ s.1) (hadjacent : s.1 ≤ r.2 + 1) (b : Int) :
    Has (r.1, max r.2 s.2) b ↔ Has r b ∨ Has s b := by
  unfold Has
  constructor
  · rintro ⟨hfirst, hlast⟩
    rcases Int.lt_or_le r.2 b with hb | hb
    · exact Or.inr ⟨by omega, by omega⟩
    · exact Or.inl ⟨hfirst, hb⟩
  · rintro (⟨hfirst, hlast⟩ | ⟨hfirst, hlast⟩)
    · exact ⟨hfirst, by omega⟩
    · exact ⟨by omega, by omega⟩

end Intervals
