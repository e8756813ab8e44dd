import Mathlib.Tactic.Common
import Mathlib.Data.List.Basic
import Mathlib.Algebra.Group.Int.Defs
import Mathlib.Algebra.Group.Nat.Defs

/-!
# Numbers of the C library

`strtol`, `strtoul` and `atoi`, where `long` has 64 bits and `int` has 32: blanks, a sign,
digits, and whatever follows is not looked at.  A number that does not fit becomes the
largest (or the smallest) that does.

* `strtoul_digits`, `strtol_digits` - what is returned for a text of digits.
* `numeric_decimal` - every number has such a text.
-/

namespace Strtol

/-- `ULONG_MAX`, which is also `SIZE_MAX`. -/
def ULONG_MAX : Nat := 2 ^ 64 - 1

/-- `isspace`. -/
def isSpace (c : UInt8) : Bool := c = 0x20 ∨ (0x09 ≤ c ∧ c ≤ 0x0D)

/-- The value of a digit or a letter. -/
def alnumValue (c : UInt8) : Option Nat :=
  if 0x30 ≤ c ∧ c ≤ 0x39 then some (c.toNat - 0x30)
  else if 0x61 ≤ c ∧ c ≤ 0x7A then some (c.toNat - 0x61 + 10)
  else if 0x41 ≤ c ∧ c ≤ 0x5A then some (c.toNat - 0x41 + 10)
  else none

def digitValue (base : Nat) (c : UInt8) : Option Nat := (alnumValue c).filter (· < base)

/-- The values of the digits at the start of a text. -/
def digits (base : Nat) : List UInt8 → List Nat
  | [] => []
  | c :: s =>
      match digitValue base c with
      | some v => v :: digits base s
      | none => []

/-- Digits, the most significant first. -/
def value (base : Nat) (ds : List Nat) : Nat := ds.foldl (fun n d => n * base + d) 0

/-- The base, if `base` is 0, and the text after its mark. -/
def detect (base : Nat) (s : List UInt8) : Nat × List UInt8 :=
  if base ≠ 0 then (base, s)
  else
    match s with
    | 0x30 :: x :: d :: s =>
        if (x = 0x78 ∨ x = 0x58) ∧ (digitValue 16 d).isSome then (16, d :: s)
        else (8, 0x30 :: x :: d :: s)
    | 0x30 :: s => (8, 0x30 :: s)
    | s => (10, s)

/-- Blanks and a sign: whether it is a minus, and what follows. -/
def sign (s : List UInt8) : Bool × List UInt8 :=
  match s.dropWhile isSpace with
  | 0x2D :: s => (true, s)
  | 0x2B :: s => (false, s)
  | s => (false, s)

/-- The number at the start of a text: whether it has a minus, and its magnitude. -/
def scan (base : Nat) (s : List UInt8) : Option (Bool × Nat) :=
  let (neg, s) := sign s
  let (base, s) := detect base s
  match digits base s with
  | [] => none
  | ds => some (neg, value base ds)

/-- `strtoul(s, nullptr, base)`. -/
def strtoul (base : Nat) (s : List UInt8) : Nat :=
  match scan base s with
  | none => 0
  | some (neg, n) => if n > ULONG_MAX then ULONG_MAX else if neg then (2 ^ 64 - n) % 2 ^ 64 else n

/-- `strtol(s, &end, base)`; `none` if `end` is left at the start. -/
def strtol (base : Nat) (s : List UInt8) : Option Int :=
  (scan base s).map fun (neg, n) =>
    if neg then max (-(2 : Int) ^ 63) (-(n : Int)) else min ((2 : Int) ^ 63 - 1) n

/-- A `long` as an `int`. -/
def toInt32 (n : Int) : Int := n.bmod (2 ^ 32)

/-- `atoi`. -/
def atoi (s : List UInt8) : Int := toInt32 ((strtol 10 s).getD 0)

/-! ### A text of digits -/

/-- Nothing but digits, and their value. -/
def Numeric (s : List UInt8) (n : Nat) : Prop :=
  s ≠ [] ∧ (∀ c ∈ s, 0x30 ≤ c ∧ c ≤ 0x39) ∧ value 10 (s.map fun c => c.toNat - 0x30) = n

instance (s : List UInt8) (n : Nat) : Decidable (Numeric s n) :=
  inferInstanceAs (Decidable (_ ∧ _ ∧ _))

theorem digitValue_digit {c : UInt8} (h : 0x30 ≤ c ∧ c ≤ 0x39) :
    digitValue 10 c = some (c.toNat - 0x30) := by
  have hlt : c.toNat - 0x30 < 10 := by
    have := UInt8.le_iff_toNat_le.mp h.2
    simp only [UInt8.reduceToNat] at this
    omega
  rw [digitValue, alnumValue, if_pos h, Option.filter_some, if_pos (by simpa using hlt)]

theorem digits_digits {s : List UInt8} (h : ∀ c ∈ s, 0x30 ≤ c ∧ c ≤ 0x39) :
    digits 10 s = s.map fun c => c.toNat - 0x30 := by
  induction s with
  | nil => rfl
  | cons c s ih =>
      rw [digits, digitValue_digit (h c List.mem_cons_self)]
      dsimp only
      rw [ih fun d hd => h d (List.mem_cons_of_mem c hd)]
      rfl

theorem sign_digits {c : UInt8} {s : List UInt8} (h : 0x30 ≤ c ∧ c ≤ 0x39) :
    sign (c :: s) = (false, c :: s) := by
  have hspace : isSpace c = false := by
    have h1 := UInt8.le_iff_toNat_le.mp h.1
    have h2 := UInt8.le_iff_toNat_le.mp h.2
    simp only [isSpace, decide_eq_false_iff_not, not_or, not_and, ← UInt8.toNat_inj,
      UInt8.le_iff_toNat_le, UInt8.reduceToNat] at *
    omega
  have hdrop : (c :: s).dropWhile isSpace = c :: s := by simp [hspace]
  unfold sign
  rw [hdrop]
  split
  · rename_i heq
    cases heq
    exact absurd h (by decide)
  · rename_i heq
    cases heq
    exact absurd h (by decide)
  · rfl

theorem scan_digits {s : List UInt8} {n : Nat} (h : Numeric s n) :
    scan 10 s = some (false, n) := by
  obtain ⟨hne, hd, rfl⟩ := h
  obtain ⟨c, s, rfl⟩ := List.exists_cons_of_ne_nil hne
  rw [scan, sign_digits (hd c List.mem_cons_self)]
  dsimp only [detect]
  rw [if_pos (by decide), digits_digits hd]
  rfl

/-- **Digits alone**: their value, or the largest that fits. -/
theorem strtoul_digits {s : List UInt8} {n : Nat} (h : Numeric s n) :
    strtoul 10 s = min n ULONG_MAX := by
  rw [strtoul, scan_digits h]
  dsimp only
  rw [if_neg (by decide : ¬ false = true)]
  split <;> omega

theorem strtol_digits {s : List UInt8} {n : Nat} (h : Numeric s n) :
    strtol 10 s = some (min ((2 : Int) ^ 63 - 1) (n : Int)) := by
  rw [strtol, scan_digits h, Option.map_some]
  rfl

/-- A minus in front of digits. -/
theorem strtol_minus {s : List UInt8} {n : Nat} (h : Numeric s n) :
    strtol 10 (0x2D :: s) = some (max (-(2 : Int) ^ 63) (-(n : Int))) := by
  have hdigits : scan 10 s = some (false, n) := scan_digits h
  obtain ⟨hne, hd, -⟩ := h
  obtain ⟨c, s, rfl⟩ := List.exists_cons_of_ne_nil hne
  have hscan : scan 10 (0x2D :: c :: s) = some (true, n) := by
    rw [scan, sign_digits (hd c List.mem_cons_self)] at hdigits
    have hsign : sign (0x2D :: c :: s) = (true, c :: s) := rfl
    rw [scan, hsign]
    dsimp only at hdigits ⊢
    split at hdigits
    · cases hdigits
    · cases hdigits
      rfl
  rw [strtol, hscan]
  rfl

/-! ### Writing digits -/

/-- The last `k` digits at most, the most significant first. -/
def decimalLoop : (k n : Nat) → List UInt8
  | 0, _ => []
  | k + 1, n =>
      if n < 10 then [(0x30 + n).toUInt8] else decimalLoop k (n / 10) ++ [(0x30 + n % 10).toUInt8]

def decimal (n : Nat) : List UInt8 := decimalLoop (n + 1) n

theorem value_concat (base : Nat) (ds : List Nat) (d : Nat) :
    value base (ds ++ [d]) = value base ds * base + d := by
  rw [value, List.foldl_concat]
  rfl

theorem numeric_digit : ∀ n < 10, Numeric [(0x30 + n).toUInt8] n := by decide +kernel

theorem Numeric.concat {s : List UInt8} {m n : Nat} (h : Numeric s m) (hn : n < 10) :
    Numeric (s ++ [(0x30 + n).toUInt8]) (m * 10 + n) := by
  obtain ⟨-, hd, hv⟩ := h
  obtain ⟨-, hdigit, hvalue⟩ := numeric_digit n hn
  refine ⟨by simp, ?_, ?_⟩
  · intro c hc
    rcases List.mem_append.mp hc with hc | hc
    · exact hd c hc
    · exact hdigit c hc
  · have hlast : (0x30 + n).toUInt8.toNat - 0x30 = n := by
      simpa [value] using hvalue
    rw [List.map_append, List.map_singleton, value_concat, hv, hlast]

theorem numeric_decimalLoop (k : Nat) : ∀ n < k, Numeric (decimalLoop k n) n := by
  induction k with
  | zero => exact fun n hn => absurd hn (Nat.not_lt_zero n)
  | succ k ih =>
      intro n hn
      rw [decimalLoop]
      split
      · exact numeric_digit n ‹_›
      · have hconcat := (ih (n / 10) (by omega)).concat (Nat.mod_lt n (by decide : 0 < 10))
        rw [Nat.div_add_mod'] at hconcat
        exact hconcat

/-- **Every number** can be written. -/
theorem numeric_decimal (n : Nat) : Numeric (decimal n) n :=
  numeric_decimalLoop (n + 1) n (Nat.lt_succ_self n)

end Strtol
