import Mathlib.Tactic.Common
import Mathlib.Data.List.Basic

/-!
# A memory of words

A memory gives every address its word; an array is `n` words from an address on.

* `read_write` - an array that was written is read back.
* `read_write_apart` - **writing an array leaves every array apart from it**.
-/

namespace Words

variable {α : Type*}

/-- The array of `n` words at `p`. -/
def read (mem : Nat → α) (p n : Nat) : List α := (List.range n).map fun i => mem (p + i)

/-- The memory after the array `v` has been written at `p`. -/
def write (mem : Nat → α) (p : Nat) (v : List α) : Nat → α := fun q =>
  if p ≤ q then (v[q - p]?).getD (mem q) else mem q

/-- Two arrays of `n` words have no address in common. -/
def Apart (n p q : Nat) : Prop := p + n ≤ q ∨ q + n ≤ p

variable {mem : Nat → α} {v : List α} {n p q : Nat}

@[simp] theorem length_read (mem : Nat → α) (p n : Nat) : (read mem p n).length = n := by
  simp [read]

/-- An address outside the array keeps its word. -/
theorem write_of_outside (h : q < p ∨ p + v.length ≤ q) : write mem p v q = mem q := by
  unfold write
  split
  · rw [List.getElem?_eq_none (by omega)]
    rfl
  · rfl

theorem read_write (h : v.length = n) : read (write mem p v) p n = v := by
  apply List.ext_getElem
  · rw [length_read, h]
  · intro i hi hv
    simp only [read, List.getElem_map, List.getElem_range, write]
    rw [if_pos (Nat.le_add_right p i), Nat.add_sub_cancel_left, List.getElem?_eq_getElem hv]
    rfl

theorem read_write_apart (hv : v.length = n) (h : Apart n p q) :
    read (write mem p v) q n = read mem q n := by
  unfold read
  apply List.map_congr_left
  intro i hi
  rw [List.mem_range] at hi
  refine write_of_outside ?_
  rcases h with h | h <;> omega

end Words
