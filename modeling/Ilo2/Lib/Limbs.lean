import Mathlib.Tactic.Common
import Mathlib.Tactic.Ring

/-!
# Numbers in 32-bit limbs

Lists of `UInt32`, the least significant first, and the loops of schoolbook arithmetic on
them.  Every loop is a recursion that carries its carry or borrow; its lemma says what it
does to `value`, provided the result fits.

* `value_mulLoop` - multiplication, row by row.
* `value_shiftIn`, `value_subLimbs`, `cmpLimbs_nonneg` - the parts of a binary division.
* `limb_toNat`, `bit_eq` - a limb and a bit, read off the value.
-/

namespace Limbs

/-- The radix. -/
def B : Nat := 2 ^ 32

theorem toNat_lt (a : UInt32) : a.toNat < B := a.toNat_lt

/-- The number that the limbs stand for. -/
def value : List UInt32 → Nat
  | [] => 0
  | a :: as => a.toNat + B * value as

theorem value_lt (v : List UInt32) : value v < B ^ v.length := by
  induction v with
  | nil => decide
  | cons a as ih =>
      have ha := toNat_lt a
      rw [value, List.length_cons, Nat.pow_succ]
      calc a.toNat + B * value as < B + B * value as := by omega
        _ = (value as + 1) * B := by ring
        _ ≤ B ^ as.length * B := Nat.mul_le_mul_right _ ih

theorem value_append (as bs : List UInt32) :
    value (as ++ bs) = value as + B ^ as.length * value bs := by
  induction as with
  | nil => simp [value]
  | cons a as ih =>
      rw [List.cons_append, value, value, ih, List.length_cons, Nat.pow_succ]
      ring

@[simp] theorem value_zeros (n : Nat) : value (List.replicate n 0) = 0 := by
  induction n with
  | zero => rfl
  | succ n ih => simp [List.replicate_succ, value, ih]

theorem value_eq_zero {v : List UInt32} : value v = 0 ↔ ∀ a ∈ v, a = 0 := by
  induction v with
  | nil => simp [value]
  | cons a as ih =>
      have hB : B ≠ 0 := by decide
      have ha : a.toNat = 0 ↔ a = 0 := UInt32.toNat_inj (b := 0)
      simp [value, hB, ih, ha]

/-- A limb, read off the value. -/
theorem limb_toNat (v : List UInt32) (j : Nat) : (v.getD j 0).toNat = value v / B ^ j % B := by
  induction v generalizing j with
  | nil => simp [value]
  | cons a as ih =>
      have ha := toNat_lt a
      cases j with
      | zero =>
          rw [List.getD_cons_zero, value, Nat.pow_zero, Nat.div_one, Nat.add_mul_mod_self_left,
            Nat.mod_eq_of_lt ha]
      | succ j =>
          rw [List.getD_cons_succ, ih, value, Nat.pow_succ, Nat.mul_comm (B ^ j),
            ← Nat.div_div_eq_div_mul, Nat.add_mul_div_left _ _ (by decide), Nat.div_eq_of_lt ha,
            Nat.zero_add]

/-- A bit, read off the value. -/
theorem bit_eq (v : List UInt32) (i : Nat) :
    ((v.getD (i / 32) 0 >>> (i % 32).toUInt32) &&& 1).toNat = value v / 2 ^ i % 2 := by
  have hi : (i % 32).toUInt32.toNat % 32 = i % 32 := by
    rw [Nat.toUInt32, UInt32.toNat_ofNat']
    omega
  have hsplit : 2 ^ i = B ^ (i / 32) * 2 ^ (i % 32) := by
    rw [B, ← Nat.pow_mul, ← Nat.pow_add, Nat.div_add_mod]
  have h1 : (1 : UInt32).toNat = 2 ^ 1 - 1 := by decide
  rw [UInt32.toNat_and, UInt32.toNat_shiftRight, hi, h1, Nat.and_two_pow_sub_one_eq_mod,
    Nat.shiftRight_eq_div_pow, limb_toNat, hsplit, ← Nat.div_div_eq_div_mul]
  generalize value v / B ^ (i / 32) = x
  have hB : B = 2 ^ (i % 32) * (2 * 2 ^ (31 - i % 32)) := by
    rw [B, ← Nat.pow_succ', ← Nat.pow_add]
    congr 1
    omega
  rw [hB, Nat.mod_mul_right_div_self, Nat.pow_one, Nat.mod_mul_right_mod]

/-- Replacing a limb. -/
theorem value_set {v : List UInt32} {j : Nat} (h : j < v.length) (x : UInt32) :
    value (v.set j x) + B ^ j * (v.getD j 0).toNat = value v + B ^ j * x.toNat := by
  induction v generalizing j with
  | nil => cases h
  | cons a as ih =>
      cases j with
      | zero =>
          rw [List.set_cons_zero, List.getD_cons_zero, value, value, Nat.pow_zero]
          omega
      | succ j =>
          have hrec := ih (Nat.lt_of_succ_lt_succ h)
          rw [List.set_cons_succ, List.getD_cons_succ, value, value, Nat.pow_succ,
            Nat.mul_comm (B ^ j) B, Nat.mul_assoc, Nat.mul_assoc, Nat.add_assoc, Nat.add_assoc,
            ← Nat.mul_add, ← Nat.mul_add, hrec]

/-! ### Multiplication -/

/-- Add a carry, as far as it goes. -/
def carryInto : List UInt32 → UInt64 → List UInt32
  | [], _ => []
  | o :: os, carry =>
      if carry = 0 then o :: os
      else
        let t := o.toUInt64 + carry
        t.toUInt32 :: carryInto os (t >>> 32)

/-- Add `a` times the limbs of the second argument to `out`. -/
def mulRow (a : UInt32) : List UInt32 → List UInt32 → UInt64 → List UInt32
  | [], out, carry => carryInto out carry
  | _ :: _, [], _ => []
  | b :: bs, o :: os, carry =>
      let t := a.toUInt64 * b.toUInt64 + o.toUInt64 + carry
      t.toUInt32 :: mulRow a bs os (t >>> 32)

/-- Add the product of two numbers to `out`, a row for every limb that is not 0. -/
def mulLoop : List UInt32 → List UInt32 → List UInt32 → List UInt32
  | [], _, out => out
  | a :: as, b, out =>
      match (if a = 0 then out else mulRow a b out 0) with
      | [] => []
      | o :: os => o :: mulLoop as b os

@[simp] theorem length_carryInto (out : List UInt32) (carry : UInt64) :
    (carryInto out carry).length = out.length := by
  induction out generalizing carry with
  | nil => rfl
  | cons o os ih =>
      unfold carryInto
      split
      · rfl
      · simp [ih]

@[simp] theorem length_mulRow (a : UInt32) (bs out : List UInt32) (carry : UInt64) :
    (mulRow a bs out carry).length = out.length := by
  induction bs generalizing out carry with
  | nil => simp [mulRow]
  | cons b bs ih => cases out <;> simp [mulRow, ih]

/-- A 64-bit sum, cut into a limb and a carry. -/
theorem cut (t : UInt64) : t.toUInt32.toNat + B * (t >>> 32).toNat = t.toNat := by
  have h32 : (32 : UInt64).toNat % 64 = 32 := by decide
  rw [UInt64.toNat_toUInt32, UInt64.toNat_shiftRight, h32, Nat.shiftRight_eq_div_pow, B]
  omega

theorem carry_lt (t : UInt64) : (t >>> 32).toNat < B := by
  have h := t.toNat_lt
  have h32 : (32 : UInt64).toNat % 64 = 32 := by decide
  rw [UInt64.toNat_shiftRight, h32, Nat.shiftRight_eq_div_pow, B]
  omega

/-- The sum of a step of `mulRow` fits in 64 bits. -/
theorem step_toNat (a b o : UInt32) {carry : UInt64} (h : carry.toNat < B) :
    (a.toUInt64 * b.toUInt64 + o.toUInt64 + carry).toNat =
      a.toNat * b.toNat + o.toNat + carry.toNat := by
  have ha := toNat_lt a
  have hb := toNat_lt b
  have ho := toNat_lt o
  have hab : a.toNat * b.toNat ≤ (B - 1) * (B - 1) := Nat.mul_le_mul (by omega) (by omega)
  have hB : B = 4294967296 := rfl
  have hmax : (B - 1) * (B - 1) = 18446744065119617025 := by decide
  rw [UInt64.toNat_add, UInt64.toNat_add, UInt64.toNat_mul, UInt32.toNat_toUInt64,
    UInt32.toNat_toUInt64, UInt32.toNat_toUInt64]
  omega

theorem value_carryInto : ∀ {out : List UInt32} {carry : UInt64}, carry.toNat < B →
    value out + carry.toNat < B ^ out.length →
      value (carryInto out carry) = value out + carry.toNat := by
  intro out
  induction out with
  | nil =>
      intro carry _ h
      rw [List.length_nil, Nat.pow_zero] at h
      rw [carryInto]
      omega
  | cons o os ih =>
      intro carry hc h
      unfold carryInto
      split
      · rename_i h0
        rw [h0]
        rfl
      · have ho := toNat_lt o
        have ht : (o.toUInt64 + carry).toNat = o.toNat + carry.toNat := by
          rw [UInt64.toNat_add, UInt32.toNat_toUInt64, Nat.mod_eq_of_lt]
          rw [B] at *
          omega
        have hcut := cut (o.toUInt64 + carry)
        have hfit : value os + ((o.toUInt64 + carry) >>> 32).toNat < B ^ os.length := by
          rw [value, List.length_cons, Nat.pow_succ, Nat.mul_comm _ B] at h
          refine Nat.lt_of_mul_lt_mul_left (a := B) ?_
          rw [Nat.mul_add]
          omega
        dsimp only
        rw [value, value, ih (carry_lt _) hfit, Nat.mul_add]
        omega

theorem value_mulRow {a : UInt32} : ∀ {bs out : List UInt32} {carry : UInt64}, carry.toNat < B →
    value out + a.toNat * value bs + carry.toNat < B ^ out.length → bs.length ≤ out.length →
      value (mulRow a bs out carry) = value out + a.toNat * value bs + carry.toNat := by
  intro bs
  induction bs with
  | nil =>
      intro out carry hc h _
      rw [value, Nat.mul_zero, Nat.add_zero] at h ⊢
      exact value_carryInto hc h
  | cons b bs ih =>
      intro out carry hc h hlen
      cases out with
      | nil => exact absurd hlen (by rw [List.length_cons, List.length_nil]; omega)
      | cons o os =>
          have hcut := cut (a.toUInt64 * b.toUInt64 + o.toUInt64 + carry)
          rw [step_toNat a b o hc] at hcut
          have hsum : value (o :: os) + a.toNat * value (b :: bs) + carry.toNat =
              (a.toNat * b.toNat + o.toNat + carry.toNat) +
                B * (value os + a.toNat * value bs) := by
            rw [value, value]
            ring
          rw [hsum] at h ⊢
          have hfit : value os + a.toNat * value bs +
              ((a.toUInt64 * b.toUInt64 + o.toUInt64 + carry) >>> 32).toNat < B ^ os.length := by
            rw [List.length_cons, Nat.pow_succ, Nat.mul_comm _ B] at h
            refine Nat.lt_of_mul_lt_mul_left (a := B) ?_
            rw [Nat.mul_add]
            omega
          unfold mulRow
          dsimp only
          rw [value, ih (carry_lt _) hfit (Nat.le_of_succ_le_succ hlen), Nat.mul_add]
          omega

/-- **Multiplication.** -/
theorem value_mulLoop {b : List UInt32} : ∀ {as out : List UInt32},
    value out + value as * value b < B ^ out.length → as.length + b.length ≤ out.length →
      value (mulLoop as b out) = value out + value as * value b := by
  intro as
  induction as with
  | nil =>
      intro out _ _
      rw [mulLoop, value, Nat.zero_mul, Nat.add_zero]
  | cons a as ih =>
      intro out h hlen
      have hsum : value out + value (a :: as) * value b =
          (value out + a.toNat * value b) + B * (value as * value b) := by
        rw [value]
        ring
      have hrow : value (if a = 0 then out else mulRow a b out 0) =
          value out + a.toNat * value b := by
        split
        · rename_i h0
          rw [h0, UInt32.toNat_zero]
          omega
        · have h0 : (0 : UInt64).toNat = 0 := rfl
          refine value_mulRow (by decide) ?_ ?_
          · rw [h0, Nat.add_zero]
            omega
          · rw [List.length_cons] at hlen
            omega
      have hrowlen : (if a = 0 then out else mulRow a b out 0).length = out.length := by
        split
        · rfl
        · simp
      unfold mulLoop
      rw [← hrowlen] at h hlen
      generalize (if a = 0 then out else mulRow a b out 0) = row at hrow h hlen
      rw [hsum, ← hrow] at h ⊢
      cases row with
      | nil => exact absurd hlen (by rw [List.length_cons, List.length_nil]; omega)
      | cons o os =>
          dsimp only
          have hfit : value os + value as * value b < B ^ os.length := by
            rw [value, List.length_cons, Nat.pow_succ, Nat.mul_comm _ B] at h
            refine Nat.lt_of_mul_lt_mul_left (a := B) ?_
            rw [Nat.mul_add]
            omega
          rw [value, value, ih hfit (by simp only [List.length_cons] at hlen; omega)]
          ring

/-! ### Division -/

/-- Shift left by one, with `carry` coming in at the bottom. -/
def shiftIn : List UInt32 → UInt32 → List UInt32
  | [], _ => []
  | a :: as, carry => (a <<< 1 ||| carry) :: shiftIn as (a >>> 31)

/-- Set bits of the lowest limb. -/
def orLow : List UInt32 → UInt32 → List UInt32
  | [], _ => []
  | a :: as, b => (a ||| b) :: as

/-- Subtract, with a borrow; the second number may be shorter. -/
def subLimbs : List UInt32 → List UInt32 → UInt64 → List UInt32
  | [], _, _ => []
  | a :: as, [], borrow => (a - borrow.toUInt32) :: as
  | a :: as, b :: bs, borrow =>
      let d := a.toUInt64 - b.toUInt64 - borrow
      d.toUInt32 :: subLimbs as bs (if d >>> 32 ≠ 0 then 1 else 0)

/-- Compare limbs, the most significant first. -/
def cmpLimbs : List UInt32 → List UInt32 → Int
  | a :: as, b :: bs => if a ≠ b then if a > b then 1 else -1 else cmpLimbs as bs
  | _, _ => 0

@[simp] theorem length_shiftIn (acc : List UInt32) (c : UInt32) :
    (shiftIn acc c).length = acc.length := by
  induction acc generalizing c with
  | nil => rfl
  | cons a as ih => simp [shiftIn, ih]

@[simp] theorem length_orLow (acc : List UInt32) (b : UInt32) :
    (orLow acc b).length = acc.length := by
  cases acc <;> rfl

@[simp] theorem length_subLimbs (as bs : List UInt32) (borrow : UInt64) :
    (subLimbs as bs borrow).length = as.length := by
  induction as generalizing bs borrow with
  | nil => rfl
  | cons a as ih => cases bs <;> simp [subLimbs, ih]

/-- Twice a limb, and a bit at the bottom. -/
theorem double_or (a : UInt32) {c : UInt32} (h : c.toNat ≤ 1) :
    (a <<< 1 ||| c).toNat + B * (a >>> 31).toNat = 2 * a.toNat + c.toNat := by
  have ha := toNat_lt a
  have h1 : (1 : UInt32).toNat % 32 = 1 := by decide
  have h31 : (31 : UInt32).toNat % 32 = 31 := by decide
  have hlow : a.toNat <<< 1 % 2 ^ 32 = (a.toNat % 2 ^ 31) <<< 1 := by
    rw [Nat.shiftLeft_eq, Nat.shiftLeft_eq]
    omega
  rw [UInt32.toNat_or, UInt32.toNat_shiftLeft, UInt32.toNat_shiftRight, h1, h31, hlow,
    ← Nat.shiftLeft_add_eq_or_of_lt (by omega), Nat.shiftRight_eq_div_pow, Nat.shiftLeft_eq]
  rw [B] at *
  omega

theorem top_bit_le (a : UInt32) : (a >>> 31).toNat ≤ 1 := by
  have ha := toNat_lt a
  have h31 : (31 : UInt32).toNat % 32 = 31 := by decide
  rw [UInt32.toNat_shiftRight, h31, Nat.shiftRight_eq_div_pow]
  rw [B] at ha
  omega

theorem value_shiftIn : ∀ {acc : List UInt32} {c : UInt32}, c.toNat ≤ 1 →
    2 * value acc + c.toNat < B ^ acc.length →
      value (shiftIn acc c) = 2 * value acc + c.toNat := by
  intro acc
  induction acc with
  | nil =>
      intro c _ h
      rw [List.length_nil, Nat.pow_zero] at h
      rw [shiftIn]
      omega
  | cons a as ih =>
      intro c hc h
      have hlimb := double_or a hc
      have hfit : 2 * value as + (a >>> 31).toNat < B ^ as.length := by
        rw [value, List.length_cons, Nat.pow_succ, Nat.mul_comm _ B] at h
        refine Nat.lt_of_mul_lt_mul_left (a := B) ?_
        rw [Nat.mul_add]
        have hcomm : B * (2 * value as) = 2 * (B * value as) := by ring
        omega
      have hcomm : B * (2 * value as) = 2 * (B * value as) := by ring
      rw [shiftIn, value, value, ih (top_bit_le a) hfit, Nat.mul_add, hcomm]
      omega

/-- A bit set at the bottom of an even number. -/
theorem value_orLow {acc : List UInt32} {b : UInt32} (hne : acc ≠ []) (heven : value acc % 2 = 0)
    (hb : b.toNat ≤ 1) :
    value (orLow acc b) = value acc + b.toNat := by
  cases acc with
  | nil => exact absurd rfl hne
  | cons a as =>
      have ha : a.toNat % 2 = 0 := by
        rw [value, B] at heven
        omega
      have hor : (a ||| b).toNat = a.toNat + b.toNat := by
        have hshift : a.toNat = (a.toNat / 2) <<< 1 := by
          rw [Nat.shiftLeft_eq]
          omega
        rw [UInt32.toNat_or, hshift, ← Nat.shiftLeft_add_eq_or_of_lt (by omega)]
      rw [orLow, value, value, hor]
      omega

theorem borrow_cut (a b : UInt32) {borrow : UInt64} (h : borrow.toNat ≤ 1) :
    (a.toUInt64 - b.toUInt64 - borrow).toUInt32.toNat + b.toNat + borrow.toNat =
        a.toNat + B * (if (a.toUInt64 - b.toUInt64 - borrow) >>> 32 ≠ 0 then 1 else 0) ∧
      (a.toNat < b.toNat + borrow.toNat ↔ (a.toUInt64 - b.toUInt64 - borrow) >>> 32 ≠ 0) := by
  have ha := toNat_lt a
  have hb := toNat_lt b
  have h32 : (32 : UInt64).toNat % 64 = 32 := by decide
  have hne : (a.toUInt64 - b.toUInt64 - borrow) >>> 32 ≠ 0 ↔
      (a.toUInt64 - b.toUInt64 - borrow).toNat / 2 ^ 32 ≠ 0 := by
    rw [Ne, ← UInt64.toNat_inj, UInt64.toNat_shiftRight, h32, Nat.shiftRight_eq_div_pow]
    rfl
  have hd : (a.toUInt64 - b.toUInt64 - borrow).toNat =
      (2 ^ 64 - borrow.toNat + (2 ^ 64 - b.toNat + a.toNat) % 2 ^ 64) % 2 ^ 64 := by
    rw [UInt64.toNat_sub, UInt64.toNat_sub, UInt32.toNat_toUInt64, UInt32.toNat_toUInt64]
  rw [UInt64.toNat_toUInt32]
  simp only [hne]
  rw [B] at *
  generalize (a.toUInt64 - b.toUInt64 - borrow).toNat = d at hd
  constructor
  · split <;> omega
  · omega

/-- **Subtraction**, of a number that is no larger and has one limb less. -/
theorem value_subLimbs : ∀ {as bs : List UInt32} {borrow : UInt64}, borrow.toNat ≤ 1 →
    value bs + borrow.toNat ≤ value as → as.length = bs.length + 1 →
      value (subLimbs as bs borrow) + value bs + borrow.toNat = value as := by
  intro as
  induction as with
  | nil =>
      intro bs borrow _ _ hlen
      cases hlen
  | cons a as ih =>
      intro bs borrow hbor hle hlen
      have ha := toNat_lt a
      have hB : B = 4294967296 := rfl
      cases bs with
      | nil =>
          -- The last borrow comes off the top limb, which covers it.
          have hnil : as = [] := List.length_eq_zero_iff.mp (Nat.succ.inj hlen)
          rw [hnil] at hle ⊢
          simp only [value, Nat.mul_zero, Nat.add_zero, Nat.zero_add] at hle
          have hb : borrow.toUInt32.toNat = borrow.toNat := by
            rw [UInt64.toNat_toUInt32, Nat.mod_eq_of_lt (by omega)]
          have hsub : (a - borrow.toUInt32).toNat = a.toNat - borrow.toNat := by
            rw [UInt32.toNat_sub_of_le _ _ (UInt32.le_iff_toNat_le.mpr (by omega)), hb]
          simp only [subLimbs, value, hsub]
          omega
      | cons b bs =>
          obtain ⟨hcut, hiff⟩ := borrow_cut a b hbor
          have hb := toNat_lt b
          rw [value, value] at hle
          unfold subLimbs
          dsimp only
          by_cases hd : (a.toUInt64 - b.toUInt64 - borrow) >>> 32 ≠ 0
          · -- This limb borrows from the next.
            have hlt := hiff.mpr hd
            have h1 : (1 : UInt64).toNat = 1 := rfl
            rw [if_pos hd] at hcut ⊢
            have hnext : value bs + 1 ≤ value as := by
              by_contra hcon
              have hmul : B * value as ≤ B * value bs := Nat.mul_le_mul_left _ (by omega)
              omega
            have hval := ih (show (1 : UInt64).toNat ≤ 1 by decide) (h1 ▸ hnext)
              (Nat.succ.inj hlen)
            rw [value, value, value, ← hval, h1, Nat.mul_add, Nat.mul_add]
            omega
          · have hge := mt hiff.mp hd
            have h0 : (0 : UInt64).toNat = 0 := rfl
            rw [if_neg hd] at hcut ⊢
            have hnext : value bs + 0 ≤ value as := by
              by_contra hcon
              have hmul : B * (value as + 1) ≤ B * value bs := Nat.mul_le_mul_left _ (by omega)
              rw [Nat.mul_succ] at hmul
              omega
            have hval := ih (show (0 : UInt64).toNat ≤ 1 by decide) (h0 ▸ hnext)
              (Nat.succ.inj hlen)
            rw [value, value, value, ← hval, h0, Nat.mul_add, Nat.mul_add]
            omega

theorem cmpLimbs_nonneg : ∀ {as bs : List UInt32}, as.length = bs.length →
    (cmpLimbs as bs ≥ 0 ↔ value bs.reverse ≤ value as.reverse) := by
  intro as
  induction as with
  | nil =>
      intro bs h
      rw [List.length_eq_zero_iff.mp h.symm]
      simp [cmpLimbs]
  | cons a as ih =>
      intro bs h
      cases bs with
      | nil => cases h
      | cons b bs =>
          have hlen : as.reverse.length = bs.reverse.length := by
            simpa using h
          have hva := value_lt as.reverse
          have hvb := value_lt bs.reverse
          rw [List.reverse_cons, List.reverse_cons, value_append, value_append, ← hlen] at *
          simp only [value, Nat.mul_zero, Nat.add_zero]
          generalize B ^ as.reverse.length = p at *
          unfold cmpLimbs
          split
          · rename_i hne
            have hne' : a.toNat ≠ b.toNat := fun h => hne (UInt32.toNat_inj.mp h)
            split
            · rename_i hgt
              have hgt : b.toNat < a.toNat := hgt
              have hmul : p * (b.toNat + 1) ≤ p * a.toNat := Nat.mul_le_mul_left _ hgt
              rw [Nat.mul_succ] at hmul
              refine ⟨fun _ => by omega, fun _ => by decide⟩
            · rename_i hgt
              have hlt : a.toNat < b.toNat := by
                have : ¬ b.toNat < a.toNat := hgt
                omega
              have hmul : p * (a.toNat + 1) ≤ p * b.toNat := Nat.mul_le_mul_left _ hlt
              rw [Nat.mul_succ] at hmul
              refine ⟨fun h => absurd h (by decide), fun h => by omega⟩
          · rename_i heq
            rw [not_not] at heq
            rw [heq, ih (by simpa using h)]
            omega

end Limbs
