import Ilo2.Lib.BigEndian
import Ilo2.Lib.Limbs

/-!
# Fixed-width integers

`bigint.hpp`: `BigInt<BITS>` with `L = BITS / 32` limbs, as far as `c = m^e mod n` needs it.
The loops over limbs are those of `Limbs`; here are the loops around them.

* `toNat_modWide` - the binary long division.
* `toNat_modexpU32` - **modular exponentiation**, for every width, exponent and modulus.
* `toNat_fromBytes`, `toBytes_eq` - bytes in and out.
-/

namespace Ilo2.Crypto

open Limbs

structure BigInt (L : Nat) where
  v : List UInt32
  length_v : v.length = L
deriving DecidableEq

namespace BigInt

variable {L : Nat}

def BYTES (L : Nat) : Nat := 4 * L

/-- The number itself. -/
def toNat (x : BigInt L) : Nat := value x.v

def zero (L : Nat) : BigInt L := ⟨List.replicate L 0, List.length_replicate⟩

def isZero (x : BigInt L) : Bool := x.v.all fun a => a = 0

/-! ### Lengths in bits -/

/-- `while (x) { ++b; x >>= 1; }`, for a word. -/
def bitsOf : (fuel : Nat) → UInt32 → Nat
  | 0, _ => 0
  | fuel + 1, x => if x = 0 then 0 else bitsOf fuel (x >>> 1) + 1

/-- The length of a number in bits, from its limbs, the most significant first. -/
def bitLengthFrom : List UInt32 → Nat
  | [] => 0
  | x :: xs => if x ≠ 0 then xs.length * 32 + bitsOf 32 x else bitLengthFrom xs

def bitLengthOf (p : List UInt32) : Nat := bitLengthFrom p.reverse

/-! ### Multiplication and reduction -/

/-- `out[2*LIMBS] = a[LIMBS] * b[LIMBS]`. -/
def mulWide (L : Nat) (a b : List UInt32) : List UInt32 :=
  mulLoop a b (List.replicate (2 * L) 0)

/-- Compare an accumulator with one limb more against a modulus. -/
def cmpExt (acc n : List UInt32) : Int :=
  if acc.getD n.length 0 ≠ 0 then 1 else cmpLimbs (acc.take n.length).reverse n.reverse

/-- One round of `mod_wide`: shift, bring the bit down, subtract if it can be done. -/
def modRound (n acc : List UInt32) (bit : UInt32) : List UInt32 :=
  let acc := orLow (shiftIn acc 0) bit
  if cmpExt acc n ≥ 0 then subLimbs acc n 0 else acc

/-- The loop of `mod_wide`, over the bits below `top`. -/
def modLoop (wide n : List UInt32) : (top : Nat) → List UInt32 → List UInt32
  | 0, acc => acc
  | bit + 1, acc =>
      modLoop wide n bit
        (modRound n acc ((wide.getD (bit / 32) 0 >>> (bit % 32).toUInt32) &&& 1))

/-- `r[LIMBS] = wide mod n[LIMBS]`. -/
def modWide (L : Nat) (wide n : List UInt32) : List UInt32 :=
  (modLoop wide n (bitLengthOf wide) (List.replicate (L + 1) 0)).take L

@[simp] theorem length_modRound (n acc : List UInt32) (bit : UInt32) :
    (modRound n acc bit).length = acc.length := by
  unfold modRound
  dsimp only
  split <;> simp

@[simp] theorem length_modLoop (wide n : List UInt32) (top : Nat) (acc : List UInt32) :
    (modLoop wide n top acc).length = acc.length := by
  induction top generalizing acc with
  | zero => rfl
  | succ bit ih => simp [modLoop, ih]

theorem length_modWide (L : Nat) (wide n : List UInt32) : (modWide L wide n).length = L := by
  simp [modWide]

/-- `mulmod`: `a * b mod n`. -/
def mulmod (a b n : BigInt L) : BigInt L :=
  ⟨modWide L (mulWide L a.v b.v) n.v, length_modWide _ _ _⟩

/-- `mod_narrow`: `a mod n`. -/
def modNarrow (a n : BigInt L) : BigInt L :=
  ⟨modWide L (a.v ++ List.replicate L 0) n.v, length_modWide _ _ _⟩

/-! ### Exponentiation -/

/-- The exponent's bit `i`. -/
def expBit (e : UInt32) (i : Nat) : UInt32 := (e >>> i.toUInt32) &&& 1

/-- `while (top > 0 && !((e >> top) & 1u)) --top;` -/
def topBit (e : UInt32) : (top : Nat) → Nat
  | 0 => 0
  | top + 1 => if expBit e (top + 1) = 0 then topBit e top else top + 1

/-- The square-and-multiply loop, over the bits below `i`. -/
def powLoop (base n : BigInt L) (e : UInt32) : (i : Nat) → BigInt L → BigInt L
  | 0, acc => acc
  | i + 1, acc =>
      let acc := mulmod acc acc n
      powLoop base n e i (if expBit e i ≠ 0 then mulmod acc base n else acc)

/-- `modexp_u32`: `m^e mod n`. -/
def modexpU32 (m : BigInt L) (e : UInt32) (n : BigInt L) : Option (BigInt L) :=
  if n.isZero ∨ e = 0 then none
  else
    let base := modNarrow m n
    some (powLoop base n e (topBit e 31) base)

/-! ### Bytes -/

/-- `while (len > BYTES && *p == 0) { ++p; --len; }` -/
def trim (width : Nat) : List UInt8 → List UInt8
  | [] => []
  | b :: bs => if (b :: bs).length > width ∧ b = 0 then trim width bs else b :: bs

/-- The loop of `from_bytes`: byte `sig`, counted from the end, goes to limb `sig / 4`. -/
def load : List UInt8 → List UInt32 → List UInt32
  | [], v => v
  | b :: bs, v =>
      let sig := bs.length
      load bs (v.set (sig / 4) (v.getD (sig / 4) 0 ||| b.toUInt32 <<< (8 * (sig % 4)).toUInt32))

theorem length_load (bs : List UInt8) (v : List UInt32) : (load bs v).length = v.length := by
  induction bs generalizing v with
  | nil => rfl
  | cons b bs ih =>
      rw [load, ih, List.length_set]

/-- `from_bytes`: big-endian, zeros in front of the width are dropped. -/
def fromBytes (L : Nat) (p : List UInt8) : Option (BigInt L) :=
  let p := trim (BYTES L) p
  if p.length > BYTES L then none
  else some ⟨load p (List.replicate L 0), (length_load _ _).trans List.length_replicate⟩

/-- `to_bytes`: big-endian, always `BYTES` bytes. -/
def toBytes (x : BigInt L) : List UInt8 :=
  (List.range (BYTES L)).map fun i =>
    let sig := BYTES L - 1 - i
    (x.v.getD (sig / 4) 0 >>> (8 * (sig % 4)).toUInt32).toUInt8

/-! ### What they compute -/

theorem toNat_lt_pow (x : BigInt L) : x.toNat < B ^ L := by
  have h := value_lt x.v
  rwa [x.length_v] at h

theorem isZero_iff {x : BigInt L} : x.isZero = true ↔ x.toNat = 0 := by
  unfold isZero toNat
  rw [value_eq_zero, List.all_eq_true]
  simp

theorem lt_bitsOf {fuel : Nat} : ∀ {x : UInt32}, x.toNat < 2 ^ fuel → x.toNat < 2 ^ bitsOf fuel x := by
  induction fuel with
  | zero => intro x h; exact h
  | succ fuel ih =>
      intro x h
      unfold bitsOf
      split
      · rename_i h0
        rw [h0]
        decide
      · have h1 : (1 : UInt32).toNat % 32 = 1 := by decide
        have hx : (x >>> 1).toNat = x.toNat / 2 := by
          rw [UInt32.toNat_shiftRight, h1, Nat.shiftRight_eq_div_pow]
        rw [Nat.pow_succ] at h
        have hrec : (x >>> 1).toNat < 2 ^ bitsOf fuel (x >>> 1) := ih (by omega)
        rw [Nat.pow_succ]
        omega

/-- A number is below 2 to the length of its bits. -/
theorem value_lt_bitLength (p : List UInt32) : value p < 2 ^ bitLengthOf p := by
  have aux : ∀ q : List UInt32, value q.reverse < 2 ^ bitLengthFrom q := by
    intro q
    induction q with
    | nil => decide
    | cons x xs ih =>
        have hlow := value_lt xs.reverse
        rw [List.length_reverse] at hlow
        have hB : B ^ xs.length = 2 ^ (xs.length * 32) := by
          rw [B, ← Nat.pow_mul, Nat.mul_comm]
        rw [List.reverse_cons, value_append, List.length_reverse, bitLengthFrom]
        simp only [value, Nat.mul_zero, Nat.add_zero]
        split
        · have hx : x.toNat < 2 ^ bitsOf 32 x := lt_bitsOf x.toNat_lt
          rw [Nat.pow_add, ← hB]
          calc value xs.reverse + B ^ xs.length * x.toNat
              < B ^ xs.length + B ^ xs.length * x.toNat := by omega
            _ = B ^ xs.length * (x.toNat + 1) := by ring
            _ ≤ B ^ xs.length * 2 ^ bitsOf 32 x := Nat.mul_le_mul_left _ hx
        · rename_i h0
          rw [not_not] at h0
          rw [h0, UInt32.toNat_zero, Nat.mul_zero, Nat.add_zero]
          exact ih
  have := aux p.reverse
  rwa [List.reverse_reverse] at this

theorem toNat_mulWide (a b : BigInt L) :
    value (mulWide L a.v b.v) = a.toNat * b.toNat := by
  have hlt : a.toNat * b.toNat < B ^ (2 * L) := by
    rw [Nat.two_mul, Nat.pow_add]
    exact Nat.mul_lt_mul'' a.toNat_lt_pow b.toNat_lt_pow
  unfold mulWide
  rw [value_mulLoop, value_zeros, Nat.zero_add]
  · rfl
  · rw [value_zeros, Nat.zero_add, List.length_replicate]
    exact hlt
  · rw [a.length_v, b.length_v, List.length_replicate, Nat.two_mul]

/-- The accumulator against the modulus. -/
theorem cmpExt_nonneg {acc n : List UInt32} (h : acc.length = n.length + 1) :
    cmpExt acc n ≥ 0 ↔ value n ≤ value acc := by
  have hsplit : value acc = value (acc.take n.length) +
      B ^ n.length * value (acc.drop n.length) := by
    have happ := value_append (acc.take n.length) (acc.drop n.length)
    rw [List.take_append_drop, List.length_take, Nat.min_eq_left (by omega)] at happ
    exact happ
  obtain ⟨top, htop⟩ : ∃ top, acc.drop n.length = [top] := by
    apply List.length_eq_one_iff.mp
    rw [List.length_drop]
    omega
  have hget : acc.getD n.length 0 = top := by
    rw [List.getD_eq_getElem?_getD, ← Nat.add_zero n.length, ← List.getElem?_drop, htop]
    rfl
  rw [htop] at hsplit
  simp only [value, Nat.mul_zero, Nat.add_zero] at hsplit
  unfold cmpExt
  rw [hget]
  split
  · rename_i hne
    have hne' : 0 < top.toNat := Nat.pos_of_ne_zero fun h0 => hne (UInt32.toNat_inj.mp h0)
    have hn := value_lt n
    have hmul : B ^ n.length * 1 ≤ B ^ n.length * top.toNat := Nat.mul_le_mul_left _ hne'
    refine ⟨fun _ => by omega, fun _ => by decide⟩
  · rename_i h0
    rw [not_not] at h0
    rw [cmpLimbs_nonneg (by simp [h]), List.reverse_reverse, List.reverse_reverse, hsplit, h0,
      UInt32.toNat_zero, Nat.mul_zero, Nat.add_zero]

/-- One round of the division. -/
theorem value_modRound {n acc : List UInt32} {bit : UInt32} (hlen : acc.length = n.length + 1)
    (hacc : value acc < value n) (hbit : bit.toNat ≤ 1) :
    value (modRound n acc bit) = (2 * value acc + bit.toNat) % value n := by
  have hn := value_lt n
  have hfit : 2 * value acc + 0 < B ^ acc.length := by
    have hB : 2 ≤ B := by decide
    rw [hlen, Nat.pow_succ]
    calc 2 * value acc + 0 < B ^ n.length * 2 := by omega
      _ ≤ B ^ n.length * B := Nat.mul_le_mul_left _ hB
  have h0 : (0 : UInt32).toNat = 0 := rfl
  have hshift : value (shiftIn acc 0) = 2 * value acc :=
    value_shiftIn (by decide) (by rw [h0]; exact hfit)
  have hor : value (orLow (shiftIn acc 0) bit) = 2 * value acc + bit.toNat := by
    rw [value_orLow _ (by rw [hshift]; omega) hbit, hshift]
    intro hnil
    have := congrArg List.length hnil
    rw [length_shiftIn, hlen] at this
    cases this
  have hlen' : (orLow (shiftIn acc 0) bit).length = n.length + 1 := by
    rw [length_orLow, length_shiftIn, hlen]
  have hcmp := cmpExt_nonneg hlen'
  rw [hor] at hcmp
  unfold modRound
  dsimp only
  split
  · rename_i hge
    have hge := hcmp.mp hge
    have hsub : value (subLimbs (orLow (shiftIn acc 0) bit) n 0) + value n + 0 =
        value (orLow (shiftIn acc 0) bit) :=
      value_subLimbs (by decide) (by rw [hor]; exact hge) hlen'
    rw [Nat.mod_eq_sub_mod hge, Nat.mod_eq_of_lt (by omega)]
    omega
  · rename_i hlt
    rw [hor, Nat.mod_eq_of_lt (Nat.lt_of_not_le fun hle => hlt (hcmp.mpr hle))]

/-- The loop of the division: what has been brought down is reduced. -/
theorem value_modLoop {wide n : List UInt32} (hn : value n ≠ 0) {top : Nat} : ∀ {acc : List UInt32},
    acc.length = n.length + 1 → value acc = value wide / 2 ^ top % value n →
      value (modLoop wide n top acc) = value wide % value n := by
  induction top with
  | zero =>
      intro acc _ h
      rw [modLoop, h, Nat.pow_zero, Nat.div_one]
  | succ bit ih =>
      intro acc hlen h
      have hb := bit_eq wide bit
      have hle : ((wide.getD (bit / 32) 0 >>> (bit % 32).toUInt32) &&& 1).toNat ≤ 1 := by
        rw [hb]
        omega
      have hacc : value acc < value n := h ▸ Nat.mod_lt _ (Nat.pos_of_ne_zero hn)
      rw [modLoop]
      refine ih (by rw [length_modRound, hlen]) ?_
      rw [value_modRound hlen hacc hle, hb, h]
      have hdiv : value wide / 2 ^ bit =
          2 * (value wide / 2 ^ (bit + 1)) + value wide / 2 ^ bit % 2 := by
        rw [Nat.pow_succ, ← Nat.div_div_eq_div_mul]
        omega
      conv_rhs => rw [hdiv]
      rw [Nat.add_mod, Nat.mul_mod, Nat.mod_mod, ← Nat.mul_mod, ← Nat.add_mod]

/-- **The binary long division.** -/
theorem toNat_modWide {wide n : List UInt32} (hn : value n ≠ 0) :
    value (modWide n.length wide n) = value wide % value n := by
  have hloop : value (modLoop wide n (bitLengthOf wide) (List.replicate (n.length + 1) 0)) =
      value wide % value n := by
    refine value_modLoop hn List.length_replicate ?_
    rw [value_zeros, Nat.div_eq_of_lt (value_lt_bitLength wide), Nat.zero_mod]
  have hlen := length_modLoop wide n (bitLengthOf wide) (List.replicate (n.length + 1) 0)
  rw [List.length_replicate] at hlen
  unfold modWide
  generalize modLoop wide n (bitLengthOf wide) (List.replicate (n.length + 1) 0) = acc at hloop hlen
  have hlt : value acc < B ^ n.length :=
    hloop ▸ Nat.lt_trans (Nat.mod_lt _ (Nat.pos_of_ne_zero hn)) (value_lt n)
  have happ := value_append (acc.take n.length) (acc.drop n.length)
  rw [List.take_append_drop, List.length_take, Nat.min_eq_left (by omega)] at happ
  have htop : value (acc.drop n.length) = 0 := by
    by_contra hpos
    have hmul : B ^ n.length * 1 ≤ B ^ n.length * value (acc.drop n.length) :=
      Nat.mul_le_mul_left _ (Nat.pos_of_ne_zero hpos)
    omega
  rw [htop] at happ
  omega

theorem toNat_mulmod (a b : BigInt L) {n : BigInt L} (hn : n.toNat ≠ 0) :
    (mulmod a b n).toNat = a.toNat * b.toNat % n.toNat := by
  have h := @toNat_modWide (mulWide L a.v b.v) n.v hn
  rw [n.length_v, toNat_mulWide] at h
  exact h

theorem toNat_modNarrow (a : BigInt L) {n : BigInt L} (hn : n.toNat ≠ 0) :
    (modNarrow a n).toNat = a.toNat % n.toNat := by
  have h := @toNat_modWide (a.v ++ List.replicate L 0) n.v hn
  rw [n.length_v, value_append, value_zeros, Nat.mul_zero, Nat.add_zero] at h
  exact h

theorem expBit_toNat (e : UInt32) {i : Nat} (h : i < 32) :
    (expBit e i).toNat = e.toNat / 2 ^ i % 2 := by
  have hb := bit_eq [e] i
  rw [Nat.div_eq_of_lt h, Nat.mod_eq_of_lt h] at hb
  exact hb

/-- The top bit of the exponent. -/
theorem topBit_spec (e : UInt32) (h : e.toNat ≠ 0) {k : Nat} (hk : k < 32)
    (hlt : e.toNat < 2 ^ (k + 1)) : e.toNat / 2 ^ topBit e k = 1 ∧ topBit e k ≤ k := by
  induction k with
  | zero =>
      refine ⟨?_, Nat.le_refl _⟩
      rw [topBit, Nat.pow_zero, Nat.div_one]
      omega
  | succ k ih =>
      have hbit := expBit_toNat e hk
      have hpow : 2 ^ (k + 1 + 1) = 2 ^ (k + 1) * 2 := Nat.pow_succ 2 (k + 1)
      have hdiv : e.toNat / 2 ^ (k + 1) < 2 := by
        rw [Nat.div_lt_iff_lt_mul (Nat.two_pow_pos _), Nat.mul_comm]
        omega
      unfold topBit
      split
      · rename_i h0
        rw [h0, UInt32.toNat_zero, Nat.mod_eq_of_lt hdiv] at hbit
        have hlt' : e.toNat < 2 ^ (k + 1) := by
          rcases Nat.div_eq_zero_iff.mp hbit.symm with hz | hz
          · exact absurd hz (Nat.two_pow_pos _).ne'
          · exact hz
        obtain ⟨h1, h2⟩ := ih (by omega) hlt'
        exact ⟨h1, Nat.le_succ_of_le h2⟩
      · rename_i hne
        have hne' : (expBit e (k + 1)).toNat ≠ 0 := fun hz => hne (UInt32.toNat_inj.mp hz)
        rw [hbit, Nat.mod_eq_of_lt hdiv] at hne'
        refine ⟨?_, Nat.le_refl _⟩
        generalize e.toNat / 2 ^ (k + 1) = q at hdiv hne'
        omega

/-- The square-and-multiply loop. -/
theorem toNat_powLoop {base n : BigInt L} {e : UInt32} {m : Nat} (hn : n.toNat ≠ 0)
    (hbase : base.toNat = m % n.toNat) {i : Nat} : ∀ {acc : BigInt L}, i ≤ 31 →
      acc.toNat = m ^ (e.toNat / 2 ^ i) % n.toNat →
        (powLoop base n e i acc).toNat = m ^ e.toNat % n.toNat := by
  induction i with
  | zero =>
      intro acc _ h
      rw [powLoop, h, Nat.pow_zero, Nat.div_one]
  | succ i ih =>
      intro acc hi h
      have hbit := expBit_toNat e (show i < 32 by omega)
      have hdiv : e.toNat / 2 ^ i = e.toNat / 2 ^ (i + 1) + e.toNat / 2 ^ (i + 1) +
          e.toNat / 2 ^ i % 2 := by
        rw [Nat.pow_succ, ← Nat.div_div_eq_div_mul]
        omega
      have hsq : (mulmod acc acc n).toNat =
          m ^ (e.toNat / 2 ^ (i + 1) + e.toNat / 2 ^ (i + 1)) % n.toNat := by
        rw [toNat_mulmod _ _ hn, h, ← Nat.mul_mod, ← Nat.pow_add]
      unfold powLoop
      dsimp only
      refine ih (by omega) ?_
      split
      · rename_i hne
        have hne' : (expBit e i).toNat ≠ 0 := fun hz => hne (UInt32.toNat_inj.mp hz)
        have hone : e.toNat / 2 ^ i % 2 = 1 := by omega
        rw [hone] at hdiv
        rw [toNat_mulmod _ _ hn, hsq, hbase, ← Nat.mul_mod, ← Nat.pow_succ, ← Nat.add_one, ← hdiv]
      · rename_i h0
        rw [not_not] at h0
        rw [h0, UInt32.toNat_zero] at hbit
        rw [← hbit, Nat.add_zero] at hdiv
        rw [hsq, ← hdiv]

/-- **Modular exponentiation.** -/
theorem toNat_modexpU32 (m : BigInt L) {e : UInt32} {n : BigInt L} (he : e ≠ 0)
    (hn : n.toNat ≠ 0) :
    ∃ c, modexpU32 m e n = some c ∧ c.toNat = m.toNat ^ e.toNat % n.toNat := by
  have hz : n.isZero = false := by
    rw [← Bool.not_eq_true, isZero_iff]
    exact hn
  have he' : e.toNat ≠ 0 := fun h => he (UInt32.toNat_inj.mp h)
  obtain ⟨htop, hle⟩ := topBit_spec e he' (k := 31) (by decide) e.toNat_lt
  unfold modexpU32
  rw [hz, if_neg (by simp [he])]
  refine ⟨_, rfl, toNat_powLoop hn (toNat_modNarrow m hn) hle ?_⟩
  rw [toNat_modNarrow m hn, htop, Nat.pow_one]

/-! ### Bytes in and out -/

theorem shift_toNat {t : Nat} (h : t < 4) : (8 * t).toUInt32.toNat % 32 = 8 * t := by
  rw [Nat.toUInt32, UInt32.toNat_ofNat']
  omega

theorem pow256 (sig : Nat) : 256 ^ sig = B ^ (sig / 4) * 2 ^ (8 * (sig % 4)) := by
  rw [B, ← Nat.pow_mul, ← Nat.pow_add, show (256 : Nat) = 2 ^ 8 from rfl, ← Nat.pow_mul]
  congr 1
  omega

/-- A byte set in a limb that is 0 there. -/
theorem or_shift {w : UInt32} {t : Nat} (ht : t < 4) (hw : w.toNat % 2 ^ (8 * t + 8) = 0)
    (b : UInt8) :
    (w ||| b.toUInt32 <<< (8 * t).toUInt32).toNat = w.toNat + b.toNat * 2 ^ (8 * t) := by
  have hb := b.toNat_lt
  have hpow : 2 ^ (8 * t + 8) = 2 ^ (8 * t) * 256 := Nat.pow_add 2 (8 * t) 8
  have hlt : b.toNat * 2 ^ (8 * t) < 2 ^ (8 * t + 8) := by
    rw [hpow, Nat.mul_comm]
    exact Nat.mul_lt_mul_of_pos_left hb (Nat.two_pow_pos _)
  have h32 : 2 ^ (8 * t + 8) ≤ 2 ^ 32 := Nat.pow_le_pow_right (by decide) (by omega)
  have hshift : w.toNat = (w.toNat / 2 ^ (8 * t + 8)) <<< (8 * t + 8) := by
    rw [Nat.shiftLeft_eq, Nat.mul_comm, Nat.mul_div_cancel' (Nat.dvd_of_mod_eq_zero hw)]
  rw [UInt32.toNat_or, UInt32.toNat_shiftLeft, shift_toNat ht, UInt8.toNat_toUInt32,
    Nat.shiftLeft_eq, Nat.mod_eq_of_lt (Nat.lt_of_lt_of_le hlt h32), hshift,
    ← Nat.shiftLeft_add_eq_or_of_lt hlt]

/-- Loading bytes adds them to a number that is 0 in their places. -/
theorem value_load {bs : List UInt8} : ∀ {v : List UInt32}, bs.length ≤ 4 * v.length →
    value v % 256 ^ bs.length = 0 → value (load bs v) = value v + BigEndian.value bs := by
  induction bs with
  | nil => intro v _ _; rfl
  | cons b bs ih =>
      intro v hlen hzero
      rw [List.length_cons] at hlen hzero
      have ht : bs.length % 4 < 4 := Nat.mod_lt _ (by decide)
      have hj : bs.length / 4 < v.length := by omega
      have hpow : 256 ^ (bs.length + 1) = B ^ (bs.length / 4) * 2 ^ (8 * (bs.length % 4) + 8) := by
        rw [Nat.pow_succ, pow256, Nat.mul_assoc, Nat.pow_add 2 (8 * (bs.length % 4)) 8]
      have hlimb : (v.getD (bs.length / 4) 0).toNat % 2 ^ (8 * (bs.length % 4) + 8) = 0 := by
        obtain ⟨q, hq⟩ := Nat.dvd_of_mod_eq_zero hzero
        have hB : 2 ^ (8 * (bs.length % 4) + 8) ∣ B := Nat.pow_dvd_pow 2 (by omega)
        rw [limb_toNat, Nat.mod_mod_of_dvd _ hB, hq, hpow, Nat.mul_assoc,
          Nat.mul_div_cancel_left _ (Nat.pow_pos (by decide)), Nat.mul_mod_right]
      have hset := value_set hj (v.getD (bs.length / 4) 0 |||
        b.toUInt32 <<< (8 * (bs.length % 4)).toUInt32)
      rw [or_shift ht hlimb, Nat.mul_add, Nat.mul_comm b.toNat, ← Nat.mul_assoc, ← pow256] at hset
      have hval : value (v.set (bs.length / 4) (v.getD (bs.length / 4) 0 |||
          b.toUInt32 <<< (8 * (bs.length % 4)).toUInt32)) =
            value v + b.toNat * 256 ^ bs.length := by
        rw [Nat.mul_comm b.toNat]
        omega
      have hdvd : 256 ^ bs.length ∣ value v :=
        Nat.dvd_trans (Nat.pow_dvd_pow 256 (Nat.le_succ _)) (Nat.dvd_of_mod_eq_zero hzero)
      rw [load, ih, hval, BigEndian.value_cons, Nat.add_assoc]
      · rw [List.length_set]
        omega
      · rw [hval]
        exact Nat.mod_eq_zero_of_dvd (Nat.dvd_add hdvd (Nat.dvd_mul_left _ _))

theorem value_trim (width : Nat) (p : List UInt8) :
    BigEndian.value (trim width p) = BigEndian.value p := by
  induction p with
  | nil => rfl
  | cons b bs ih =>
      unfold trim
      split
      · rename_i h
        rw [ih, BigEndian.value_cons, h.2, UInt8.toNat_zero, Nat.zero_mul, Nat.zero_add]
      · rfl

/-- `from_bytes` loads the number. -/
theorem toNat_fromBytes {p : List UInt8} {x : BigInt L} (h : fromBytes L p = some x) :
    x.toNat = BigEndian.value p := by
  unfold fromBytes at h
  dsimp only at h
  split at h
  · cases h
  · rename_i hlen
    cases h
    show value (load _ _) = _
    rw [value_load, value_zeros, Nat.zero_add, value_trim]
    · rw [List.length_replicate]
      exact Nat.le_of_not_lt hlen
    · rw [value_zeros, Nat.zero_mod]

/-- It does so whenever the bytes fit. -/
theorem fromBytes_isSome {p : List UInt8} (h : p.length ≤ BYTES L) :
    ∃ x : BigInt L, fromBytes L p = some x := by
  have htrim : (trim (BYTES L) p).length ≤ BYTES L := by
    cases p with
    | nil => exact h
    | cons b bs =>
        unfold trim
        rw [if_neg (by omega)]
        exact h
  unfold fromBytes
  dsimp only
  rw [if_neg (Nat.not_lt.mpr htrim)]
  exact ⟨_, rfl⟩

/-- `to_bytes` writes the number. -/
theorem toBytes_eq (x : BigInt L) : x.toBytes = BigEndian.bytes (BYTES L) x.toNat := by
  rw [BigEndian.bytes_eq_map]
  apply List.map_congr_left
  intro i hi
  dsimp only
  generalize BYTES L - 1 - i = sig
  have ht : sig % 4 < 4 := Nat.mod_lt _ (by decide)
  apply UInt8.toNat_inj.mp
  have hB : B = 2 ^ (8 * (sig % 4)) * (256 * 2 ^ (24 - 8 * (sig % 4))) := by
    rw [B, show (256 : Nat) = 2 ^ 8 from rfl, ← Nat.pow_add, ← Nat.pow_add]
    congr 1
    omega
  rw [UInt32.toNat_toUInt8, UInt32.toNat_shiftRight, shift_toNat ht, Nat.shiftRight_eq_div_pow,
    limb_toNat, Nat.toUInt8, UInt8.toNat_ofNat', pow256, ← Nat.div_div_eq_div_mul]
  show x.toNat / B ^ (sig / 4) % B / 2 ^ (8 * (sig % 4)) % 256 =
    x.toNat / B ^ (sig / 4) / 2 ^ (8 * (sig % 4)) % 256
  generalize x.toNat / B ^ (sig / 4) = y
  rw [hB, Nat.mod_mul_right_div_self, Nat.mod_mul_right_mod]

end BigInt

end Ilo2.Crypto
