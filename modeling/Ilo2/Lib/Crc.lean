import Mathlib.Tactic.Common

/-!
# Cyclic redundancy checks

The remainder of a message, whose bits come in lowest first.

* `step_xor`, `steps_xor` - the remainder is linear.
* `byte_table` - **a byte at a time**: the bits of a byte are divided at once with a table.
-/

namespace Crc

variable {n : Nat}

/-- One bit of the division by `p`. -/
def step (p c : BitVec n) : BitVec n := if c.getLsbD 0 then c >>> 1 ^^^ p else c >>> 1

def steps (p : BitVec n) : Nat → BitVec n → BitVec n
  | 0, c => c
  | k + 1, c => step p (steps p k c)

/-- The eight bits of a byte. -/
def byte (p c : BitVec n) (b : UInt8) : BitVec n := steps p 8 (c ^^^ b.toBitVec.setWidth n)

/-- The remainder after some bytes. -/
def remainder (p c : BitVec n) (bytes : List UInt8) : BitVec n := bytes.foldl (byte p) c

theorem step_xor (p a b : BitVec n) : step p (a ^^^ b) = step p a ^^^ step p b := by
  have hcancel (x y : BitVec n) : x ^^^ p ^^^ (y ^^^ p) = x ^^^ y := by
    rw [BitVec.xor_assoc, ← BitVec.xor_assoc p, BitVec.xor_comm p, BitVec.xor_assoc y,
      BitVec.xor_self, BitVec.xor_zero]
  unfold step
  rw [BitVec.getLsbD_xor, BitVec.ushiftRight_xor_distrib]
  cases a.getLsbD 0 <;> cases b.getLsbD 0
  · rfl
  · exact BitVec.xor_assoc _ _ _
  · simp only [Bool.xor_false, if_true, Bool.false_eq_true, if_false]
    rw [BitVec.xor_assoc, BitVec.xor_comm (b >>> 1), ← BitVec.xor_assoc]
  · exact (hcancel _ _).symm

theorem steps_xor (p a b : BitVec n) (k : Nat) :
    steps p k (a ^^^ b) = steps p k a ^^^ steps p k b := by
  induction k with
  | zero => rfl
  | succ k ih => rw [steps, ih, step_xor, steps, steps]

/-- Zeros only move out. -/
theorem steps_zeros (p : BitVec n) {c : BitVec n} (m : Nat) (h : ∀ i < m, c.getLsbD i = false) :
    ∀ k ≤ m, steps p k c = c >>> k := by
  intro k
  induction k with
  | zero => exact fun _ => (BitVec.ushiftRight_zero c).symm
  | succ k ih =>
      intro hk
      have hlow : (c >>> k).getLsbD 0 = false := by
        rw [BitVec.getLsbD_ushiftRight]
        exact h k hk
      rw [steps, ih (Nat.le_of_succ_le hk), step, hlow, BitVec.shiftRight_add]
      rfl

/-- **A byte at a time**, with a table of the remainders of bytes. -/
theorem byte_table (p c : BitVec n) (b : UInt8) :
    byte p c b = c >>> 8 ^^^ steps p 8 ((c.setWidth 8 ^^^ b.toBitVec).setWidth n) := by
  -- The bits of the byte, and those above it.
  have hsplit : c ^^^ b.toBitVec.setWidth n =
      c >>> 8 <<< 8 ^^^ (c.setWidth 8 ^^^ b.toBitVec).setWidth n := by
    apply BitVec.eq_of_getLsbD_eq
    intro i hi
    simp only [BitVec.getLsbD_xor, BitVec.getLsbD_setWidth, BitVec.getLsbD_shiftLeft,
      BitVec.getLsbD_ushiftRight, hi, decide_true, Bool.true_and]
    by_cases h8 : i < 8
    · simp [h8]
    · rw [BitVec.getLsbD_of_ge b.toBitVec i (by omega), Nat.add_sub_cancel' (by omega)]
      simp [h8]
  have hzeros : ∀ i < 8, (c >>> 8 <<< 8).getLsbD i = false := by
    intro i hi
    simp [BitVec.getLsbD_shiftLeft, hi]
  have hback : (c >>> 8 <<< 8) >>> 8 = c >>> 8 := by
    apply BitVec.eq_of_getLsbD_eq
    intro i hi
    simp only [BitVec.getLsbD_shiftLeft, BitVec.getLsbD_ushiftRight]
    by_cases h : 8 + i < n
    · simp [h]
    · simp [BitVec.getLsbD_of_ge c (8 + i) (by omega)]
  rw [byte, hsplit, steps_xor, steps_zeros p 8 hzeros 8 (Nat.le_refl 8), hback]

end Crc
