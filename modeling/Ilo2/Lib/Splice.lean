import Mathlib.Tactic.Common
import Mathlib.Data.List.Basic

/-!
# Writing into the middle of a list

`splice s i l` is `s` with `l` written from index `i` on.  A buffer that is filled from the
front grows by splices, each of which begins where the one before it ended.

* `take_splice` - what was written, behind what was there.
* `splice_splice` - two writes, the one behind the other, are one.
-/

namespace Splice

variable {α : Type*}

def splice (s : List α) (i : Nat) (l : List α) : List α := s.take i ++ (l ++ s.drop (i + l.length))

variable {s l m : List α} {i n : Nat}

@[simp] theorem splice_nil (s : List α) (i : Nat) : splice s i [] = s := List.take_append_drop i s

theorem length_splice (h : i + l.length ≤ s.length) : (splice s i l).length = s.length := by
  rw [splice, List.length_append, List.length_append, List.length_take, List.length_drop]
  omega

theorem take_splice (h : i ≤ s.length) : (splice s i l).take (i + l.length) = s.take i ++ l := by
  have hlen : (s.take i ++ l).length = i + l.length := by
    rw [List.length_append, List.length_take, Nat.min_eq_left h]
  rw [splice, ← List.append_assoc, ← hlen]
  exact List.take_left

theorem drop_splice (h : i ≤ s.length) :
    (splice s i l).drop (i + l.length) = s.drop (i + l.length) := by
  have hlen : (s.take i ++ l).length = i + l.length := by
    rw [List.length_append, List.length_take, Nat.min_eq_left h]
  rw [splice, ← List.append_assoc]
  exact List.drop_left' hlen

/-- What a splice has written. -/
theorem drop_take_splice (h : i ≤ s.length) : ((splice s i l).take (i + l.length)).drop i = l := by
  rw [take_splice h]
  exact List.drop_left' (by rw [List.length_take, Nat.min_eq_left h])

theorem splice_splice (h : i ≤ s.length) :
    splice (splice s i l) (i + l.length) m = splice s i (l ++ m) := by
  have hdrop : (splice s i l).drop (i + l.length + m.length) = s.drop (i + (l ++ m).length) := by
    rw [← List.drop_drop, drop_splice h, List.drop_drop, List.length_append, Nat.add_assoc]
  rw [splice, take_splice h, hdrop, splice, List.append_assoc, List.append_assoc]

/-- Storing one element is a splice. -/
theorem set_eq_splice (a : α) (h : i < s.length) : s.set i a = splice s i [a] := by
  rw [List.set_eq_take_append_cons_drop, if_pos h]
  rfl

end Splice
