import Mathlib.Tactic.Common

/-!
# Buckets

`n` items, from 0 on, are put into `k` buckets: item `i` goes to bucket `i * k / n`, rounded
down.  The buckets keep the order of the items, and none is left out unless there are more
buckets than items.

* `mono`, `nonneg`, `lt_of_lt` - a run of items goes to a run of buckets.
* `hit` - every bucket has an item, if there are enough.
-/

namespace Buckets

/-- The bucket of item `i`. -/
def bucket (k n i : Int) : Int := i * k / n

variable {k n i j c : Int}

theorem nonneg (hk : 0 ≤ k) (hn : 0 < n) (hi : 0 ≤ i) : 0 ≤ bucket k n i :=
  Int.ediv_nonneg (Int.mul_nonneg hi hk) (Int.le_of_lt hn)

theorem mono (hk : 0 ≤ k) (hn : 0 < n) (h : i ≤ j) : bucket k n i ≤ bucket k n j :=
  Int.ediv_le_ediv hn (Int.mul_le_mul_of_nonneg_right h hk)

theorem lt_of_lt (hk : 0 < k) (hn : 0 < n) (h : i < n) : bucket k n i < k := by
  apply Int.ediv_lt_of_lt_mul hn
  rw [Int.mul_comm k n]
  exact Int.mul_lt_mul_of_pos_right h hk

/-- The first item of a bucket is the quotient, rounded up. -/
theorem hit (hk : 0 < k) (hkn : k ≤ n) (h0 : 0 ≤ c) (hc : c < k) :
    ∃ i, 0 ≤ i ∧ i < n ∧ bucket k n i = c := by
  have hn : 0 < n := by omega
  have hmod := Int.emod_add_mul_ediv (c * n + (k - 1)) k
  have hmod0 := Int.emod_nonneg (c * n + (k - 1)) (Int.ne_of_gt hk)
  have hmodk := Int.emod_lt_of_pos (c * n + (k - 1)) hk
  have hcn : 0 ≤ c * n := Int.mul_nonneg h0 (Int.le_of_lt hn)
  have hlast : c * n ≤ (k - 1) * n :=
    Int.mul_le_mul_of_nonneg_right (by omega) (Int.le_of_lt hn)
  refine ⟨(c * n + (k - 1)) / k, Int.ediv_nonneg (by omega) (Int.le_of_lt hk), ?_, ?_⟩
  · apply Int.ediv_lt_of_lt_mul hk
    rw [Int.sub_mul, Int.one_mul] at hlast
    rw [Int.mul_comm n k]
    omega
  · rw [bucket, Int.ediv_eq_iff_of_pos hn, Int.mul_comm _ k]
    omega

end Buckets
