import Ilo2.Crypto.BigInt
import Ilo2.Lib.Words

/-!
# Modular exponentiation in memory

`bigint.hpp` passes its numbers by address, and `modexp_u32` gives `mulmod` the same address
as operand and as result.  Here `mulmod` and `modexp_u32` read and write a memory, so that
addresses may be equal; what they leave there is what the functions on numbers compute.

* `read_mulmodAt` - `mulmod`, wherever its result goes.
* `read_powLoopAt` - the square-and-multiply loop on `acc`.
* `modexp_correct` - **`modexp_u32`, for every width and wherever its numbers are**.
-/

namespace Ilo2.Crypto

open Limbs Words

namespace BigInt

variable {L : Nat} {mem : Nat → UInt32} {a b n p q out base acc : Nat} {e : UInt32}

/-- The number at `p`. -/
def number (L : Nat) (mem : Nat → UInt32) (p : Nat) : BigInt L := ⟨read mem p L, length_read _ _ _⟩

/-- `mulmod`: `wide` is local, and `out` is written last. -/
def mulmodAt (L : Nat) (mem : Nat → UInt32) (a b n out : Nat) : Nat → UInt32 :=
  let wide := mulWide L (read mem a L) (read mem b L)
  write mem out (modWide L wide (read mem n L))

/-- `mod_narrow`. -/
def modNarrowAt (L : Nat) (mem : Nat → UInt32) (a n out : Nat) : Nat → UInt32 :=
  let wide := read mem a L ++ List.replicate L 0
  write mem out (modWide L wide (read mem n L))

/-- The square-and-multiply loop, over the bits below `i`. -/
def powLoopAt (L : Nat) (base n acc : Nat) (e : UInt32) : (i : Nat) → (Nat → UInt32) → Nat → UInt32
  | 0, mem => mem
  | i + 1, mem =>
      let mem := mulmodAt L mem acc acc n acc
      powLoopAt L base n acc e i (if expBit e i ≠ 0 then mulmodAt L mem acc base n acc else mem)

/-- `modexp_u32`: what it returns, and the memory.  Its locals are at `base` and `acc`. -/
def modexpU32At (L : Nat) (mem : Nat → UInt32) (m : Nat) (e : UInt32) (n out base acc : Nat) :
    Bool × (Nat → UInt32) :=
  if (read mem n L).all (fun x => x = 0) ∨ e = 0 then (false, mem)
  else
    let mem := modNarrowAt L mem m n base
    let mem := write mem acc (read mem base L)
    let mem := powLoopAt L base n acc e (topBit e 31) mem
    (true, write mem out (read mem acc L))

theorem read_mulmodAt (L : Nat) (mem : Nat → UInt32) (a b n out : Nat) :
    number L (mulmodAt L mem a b n out) out =
      mulmod (number L mem a) (number L mem b) (number L mem n) := by
  unfold number mulmodAt mulmod
  congr 1
  exact read_write (length_modWide _ _ _)

theorem mulmodAt_apart (h : Apart L out q) :
    number L (mulmodAt L mem a b n out) q = number L mem q := by
  unfold number mulmodAt
  congr 1
  exact read_write_apart (length_modWide _ _ _) h

theorem read_modNarrowAt (L : Nat) (mem : Nat → UInt32) (a n out : Nat) :
    number L (modNarrowAt L mem a n out) out = modNarrow (number L mem a) (number L mem n) := by
  unfold number modNarrowAt modNarrow
  congr 1
  exact read_write (length_modWide _ _ _)

theorem modNarrowAt_apart (h : Apart L out q) :
    number L (modNarrowAt L mem a n out) q = number L mem q := by
  unfold number modNarrowAt
  congr 1
  exact read_write_apart (length_modWide _ _ _) h

theorem number_write_apart {x : BigInt L} (h : Apart L p q) :
    number L (write mem p x.v) q = number L mem q := by
  unfold number
  congr 1
  exact read_write_apart x.length_v h

/-- **The loop**: `acc` goes through the accumulators of the loop on numbers. -/
theorem read_powLoopAt (hbase : Apart L acc base) (hn : Apart L acc n) (i : Nat) :
    ∀ mem : Nat → UInt32, number L (powLoopAt L base n acc e i mem) acc =
      powLoop (number L mem base) (number L mem n) e i (number L mem acc) := by
  induction i with
  | zero => intro mem; rfl
  | succ i ih =>
      intro mem
      rw [powLoopAt, powLoop, ih]
      split
      · simp only [read_mulmodAt, mulmodAt_apart hbase, mulmodAt_apart hn]
      · simp only [read_mulmodAt, mulmodAt_apart hbase, mulmodAt_apart hn]

/-- Outside of `acc` the loop writes nothing. -/
theorem powLoopAt_outside (h : q < acc ∨ acc + L ≤ q) (i : Nat) :
    ∀ mem : Nat → UInt32, powLoopAt L base n acc e i mem q = mem q := by
  have hmul : ∀ (mem : Nat → UInt32) (b : Nat), mulmodAt L mem acc b n acc q = mem q :=
    fun mem b => write_of_outside (by rwa [length_modWide])
  induction i with
  | zero => intro mem; rfl
  | succ i ih =>
      intro mem
      rw [powLoopAt, ih]
      split
      · rw [hmul, hmul]
      · rw [hmul]

theorem number_write (x : BigInt L) : number L (write mem p x.v) p = x := by
  unfold number
  congr 1
  exact read_write x.length_v

/-- `modexp_u32` in memory is `modexp_u32` on the numbers. -/
theorem modexpU32At_eq (mem : Nat → UInt32) (m : Nat) (e : UInt32) (out : Nat)
    (hbase : Apart L base n) (hacc : Apart L acc n)
    (hlocals : Apart L acc base) :
    modexpU32 (number L mem m) e (number L mem n) =
      if (modexpU32At L mem m e n out base acc).1 then
        some (number L (modexpU32At L mem m e n out base acc).2 out)
      else none := by
  have hz : (number L mem n).isZero = (read mem n L).all (fun x => x = 0) := rfl
  unfold modexpU32 modexpU32At
  rw [hz]
  split
  · rfl
  · dsimp only
    rw [if_pos rfl]
    have hcopy : ∀ mem' : Nat → UInt32, read mem' base L = (number L mem' base).v := fun _ => rfl
    have hout : ∀ mem' : Nat → UInt32, number L (write mem' out (read mem' acc L)) out =
        number L mem' acc := fun mem' => number_write (number L mem' acc)
    rw [hout, read_powLoopAt hlocals hacc, hcopy, number_write, number_write_apart hlocals,
      number_write_apart hacc, read_modNarrowAt, modNarrowAt_apart hbase]

/-- `modexp_u32` writes its result and its locals only. -/
theorem modexpU32At_outside (m : Nat) (hout : q < out ∨ out + L ≤ q)
    (hbase : q < base ∨ base + L ≤ q) (hacc : q < acc ∨ acc + L ≤ q) :
    (modexpU32At L mem m e n out base acc).2 q = mem q := by
  unfold modexpU32At
  split
  · rfl
  · dsimp only
    rw [write_of_outside (by rwa [length_read]), powLoopAt_outside hacc,
      write_of_outside (by rwa [length_read])]
    exact write_of_outside (by rwa [length_modWide])

/-- When `modexp_u32` fails. -/
theorem modexpU32At_false (m : Nat) :
    (modexpU32At L mem m e n out base acc).1 = false ↔ value (read mem n L) = 0 ∨ e = 0 := by
  have hz : (read mem n L).all (fun x => x = 0) = true ↔ value (read mem n L) = 0 :=
    isZero_iff (x := number L mem n)
  rw [← hz]
  unfold modexpU32At
  split
  · rename_i h
    exact ⟨fun _ => h, fun _ => rfl⟩
  · rename_i h
    constructor
    · intro h'
      cases h'
    · exact fun h' => absurd h' h

/-- Then it writes nothing. -/
theorem modexpU32At_unchanged (m : Nat) (h : (modexpU32At L mem m e n out base acc).1 = false) :
    (modexpU32At L mem m e n out base acc).2 = mem := by
  unfold modexpU32At at h ⊢
  split
  · rfl
  · rename_i hne
    rw [if_neg hne] at h
    cases h

/-- **`modexp_u32`**, for every width: it fails for a modulus or an exponent 0 only, and then
the memory is as it was; else the result is `m^e mod n`, at `out`, which may be the address
of `m` or `n`.  So it is with `mulmod`, whose result may be at any of its operands. -/
theorem modexp_correct (L : Nat) (mem : Nat → UInt32) (m : Nat) (e : UInt32)
    (n out base acc : Nat) (hbase : Apart L base n) (hacc : Apart L acc n)
    (hlocals : Apart L acc base) :
    let r := modexpU32At L mem m e n out base acc
    let N := value (read mem n L)
    (r.1 = false ↔ N = 0 ∨ e = 0) ∧ (r.1 = false → r.2 = mem) ∧
    (r.1 = true → value (read r.2 out L) = value (read mem m L) ^ e.toNat % N ∧
      value (read r.2 out L) < N ∧
      ∀ q, q < out ∨ out + L ≤ q → q < base ∨ base + L ≤ q → q < acc ∨ acc + L ≤ q →
        r.2 q = mem q) ∧
    ∀ a b p, N ≠ 0 → value (read (mulmodAt L mem a b n p) p L) =
      value (read mem a L) * value (read mem b L) % N := by
  intro r N
  have hfalse : r.1 = false ↔ N = 0 ∨ e = 0 := modexpU32At_false m
  refine ⟨hfalse, modexpU32At_unchanged m, fun htrue => ?_, fun a b p hN => ?_⟩
  · obtain ⟨hN, he⟩ : N ≠ 0 ∧ e ≠ 0 := by
      rw [← not_or, ← hfalse, htrue]
      decide
    obtain ⟨c, hc, hvalue⟩ := toNat_modexpU32 (number L mem m) he (n := number L mem n) hN
    have heq := modexpU32At_eq mem m e out hbase hacc hlocals
    rw [hc, if_pos htrue] at heq
    cases heq
    refine ⟨hvalue, ?_, fun q hq hq' hq'' => modexpU32At_outside m hq hq' hq''⟩
    exact lt_of_eq_of_lt hvalue (Nat.mod_lt _ (Nat.pos_of_ne_zero hN))
  · have h := toNat_mulmod (number L mem a) (number L mem b) (n := number L mem n) hN
    have hread := congrArg toNat (read_mulmodAt L mem a b n p)
    exact hread.trans h

/-- The result over the modulus: `5^3 mod 7` in one limb. -/
theorem modexp_correct_alias :
    let mem : Nat → UInt32 := fun p => if p = 0 then 5 else if p = 1 then 7 else 0
    let r := modexpU32At 1 mem 0 3 1 1 2 3
    r.1 = true ∧ value (read r.2 1 1) = 6 := by
  intro mem r
  obtain ⟨hfalse, -, htrue, -⟩ :=
    modexp_correct 1 mem 0 3 1 1 2 3 (Or.inr (by decide)) (Or.inr (by decide)) (Or.inr (by decide))
  have hr : r.1 = true := by
    rw [← Bool.not_eq_false]
    exact fun h => absurd (hfalse.mp h) (by decide)
  exact ⟨hr, (htrue hr).1.trans (by decide)⟩

end BigInt

end Ilo2.Crypto
