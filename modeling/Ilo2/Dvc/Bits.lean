import Ilo2.Lib.Checked
import Mathlib.Algebra.Group.Nat.Defs

/-!
# The DVC bit reader

`dvc_bits.hpp`: the accumulator that `add_bits` fills a byte at a time and
`get_bits` empties, and the detector of 31 zero bits that resets the decoder.

Every array access and shift of the decoder that the program leaves unchecked is
checked here: outside its range the model stops with a `Fault`.
-/

namespace Ilo2.Dvc

/-- The ways an unchecked access of the decoder can go wrong. -/
inductive Fault where
  /-- `add_bits` shifts a 32-bit value by 32 or more. -/
  | shift (count : Nat)
  /-- `get_bits(n)` with `n > 8`, or with fewer than `n` bits in the accumulator. -/
  | getBits (n avail : Nat)
  /-- A state outside `bits_to_read`, `next_0` and `next_1_`. -/
  | table (state : Nat)
  /-- An index outside `cc_color`, `cc_usage` and `cc_block`. -/
  | palette (index : Nat)
  /-- An index outside `color_remap_table`. -/
  | remap (index : Int)
  /-- An index outside `block`. -/
  | block (index : Nat)
  /-- An index outside `cmd_p_buff`. -/
  | command (index : Nat)
  /-- The loop of `process_bits` did not end within its bound. -/
  | loop
deriving Repr, DecidableEq

/-- The state in which the decoder waits for the end of a reset marker. -/
def HUNT : Nat := 43

/-! ### The reversal tables -/

/-- The inner loop of `init_reversal`, from `n6` on, with `m` rounds to go. -/
def reversalLoop : (m n6 n2 n3 n4 n5 : Nat) → Nat × Nat × Nat
  | 0, _, n2, n3, _, n5 => (n5, n2, n3)
  | m + 1, n6, n2, n3, n4, n5 =>
      if n4 &&& 1 = 1 then
        reversalLoop m (n6 + 1) (if n2 > n6 then n6 else n2) (7 - n6) (n4 >>> 1) (n5 <<< 1 ||| 1)
      else reversalLoop m (n6 + 1) n2 n3 (n4 >>> 1) (n5 <<< 1)

/-- `init_reversal` for one table index: the mirror image of `n`, the index of its
lowest set bit and seven less the index of its highest (both `8` for `0`). -/
def initReversal (n : Nat) : Nat × Nat × Nat := reversalLoop 8 0 8 8 n 0

def reversal (n : Nat) : Nat := (initReversal n).1
def right (n : Nat) : Nat := (initReversal n).2.1
def left (n : Nat) : Nat := (initReversal n).2.2

theorem reversal_lt : ∀ n < 256, reversal n < 256 := by decide +kernel

/-! ### The reader -/

structure DvcBits where
  ibAcc : Nat := 0
  ibBcnt : Nat := 0
  zeroCount : Nat := 0
  code : Nat := 0
  decoderState : Nat := 0
  nextState : Nat := 0
deriving Repr, DecidableEq

namespace DvcBits

/-- `add_bits`: 4 when the byte completes a reset marker, else 0. -/
def addBits (b : DvcBits) (c : UInt8) : Except Fault (Nat × DvcBits) :=
  if b.ibBcnt ≥ 32 then .error (.shift b.ibBcnt) else
  let b := { b with
    ibAcc := b.ibAcc ||| (c.toNat <<< b.ibBcnt) % 2 ^ 32
    ibBcnt := b.ibBcnt + 8
    zeroCount := b.zeroCount + right c.toNat }
  if b.zeroCount > 30 then
    .ok (4, { b with nextState := HUNT, decoderState := HUNT })
  else if c ≠ 0 then .ok (0, { b with zeroCount := left c.toNat })
  else .ok (0, b)

/-- `get_bits`: take `n` bits and leave their value, first bit most significant, in
`code`. -/
def getBits (b : DvcBits) (n : Nat) : Except Fault DvcBits :=
  if n > 8 ∨ n > b.ibBcnt then .error (.getBits n b.ibBcnt)
  else if n = 1 then
    .ok { b with code := b.ibAcc &&& 1, ibAcc := b.ibAcc >>> 1, ibBcnt := b.ibBcnt - 1 }
  else if n = 0 then .ok b
  else
    .ok { b with
      ibBcnt := b.ibBcnt - n
      ibAcc := b.ibAcc >>> n
      code := reversal (b.ibAcc &&& (2 ^ n - 1)) >>> (8 - n) }

/-! ### What the two operations do -/

theorem getBits_zero (b : DvcBits) : b.getBits 0 = .ok b := by simp [getBits]

/-- **`get_bits`** takes `n` bits, keeps the zero run and both states, and (for
`n ≥ 1`) leaves a value of `n` bits. -/
theorem getBits_ok (b : DvcBits) {n : Nat} (h8 : n ≤ 8) (hn : n ≤ b.ibBcnt) :
    ∃ acc code, b.getBits n = .ok { b with ibBcnt := b.ibBcnt - n, ibAcc := acc, code := code } ∧
      (1 ≤ n → code < 2 ^ n) ∧ (n = 0 → code = b.code) := by
  unfold getBits
  rw [if_neg (by omega)]
  by_cases h1 : n = 1
  · subst h1
    refine ⟨_, _, rfl, fun _ => ?_, fun h => absurd h (by decide)⟩
    exact Nat.lt_of_le_of_lt Nat.and_le_right (by decide)
  by_cases h0 : n = 0
  · subst h0
    exact ⟨_, _, rfl, fun h => absurd h (by decide), fun _ => rfl⟩
  rw [if_neg h1, if_neg h0]
  refine ⟨_, _, rfl, fun _ => ?_, fun h => absurd h h0⟩
  have hmask : b.ibAcc &&& (2 ^ n - 1) < 256 := by
    have hp : 2 ^ n ≤ 2 ^ 8 := Nat.pow_le_pow_right (by decide) h8
    have := Nat.and_le_right (n := b.ibAcc) (m := 2 ^ n - 1)
    omega
  rw [Nat.shiftRight_eq_div_pow, Nat.div_lt_iff_lt_mul (Nat.two_pow_pos _), ← Nat.pow_add,
    show n + (8 - n) = 8 by omega]
  exact reversal_lt _ hmask

/-- **`add_bits`** appends eight bits, and either completes a reset marker, which
sends both states to `HUNT`, or leaves the states alone. -/
theorem addBits_ok (b : DvcBits) (c : UInt8) (h : b.ibBcnt < 32) :
    ∃ r acc zc st nx, b.addBits c = .ok (r, { b with
        ibAcc := acc, ibBcnt := b.ibBcnt + 8, zeroCount := zc, decoderState := st,
        nextState := nx }) ∧
      ((st = HUNT ∧ nx = HUNT) ∨ (st = b.decoderState ∧ nx = b.nextState)) := by
  unfold addBits
  rw [if_neg (by omega)]
  dsimp only
  split
  · exact ⟨_, _, _, _, _, rfl, Or.inl ⟨rfl, rfl⟩⟩
  · split
    · exact ⟨_, _, _, _, _, rfl, Or.inr ⟨rfl, rfl⟩⟩
    · exact ⟨_, _, _, _, _, rfl, Or.inr ⟨rfl, rfl⟩⟩

end DvcBits

end Ilo2.Dvc
