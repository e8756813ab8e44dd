import Mathlib.Tactic.Common
import Mathlib.Data.List.Induction
import Mathlib.Tactic.Ring

/-!
# Big-endian numbers

Numbers as bytes, most significant first: `value` reads a list of bytes, `bytes n`
writes `n` of them.

* `value_bytes`, `bytes_value` - the two undo each other.
* `u16`, `u16_bytes` - two bytes and a `UInt16`, with the shifts a program writes.
* `or_three`, `or_four`, `bytes_u32` - the same for three and four bytes.
-/

namespace BigEndian

/-- The number that `bs` stands for. -/
def value (bs : List UInt8) : Nat := bs.foldl (fun v b => v * 256 + b.toNat) 0

/-- The last `n` bytes of `v`. -/
def bytes : (n : Nat) → (v : Nat) → List UInt8
  | 0, _ => []
  | n + 1, v => bytes n (v / 256) ++ [v.toUInt8]

@[simp] theorem length_bytes (n v : Nat) : (bytes n v).length = n := by
  induction n generalizing v with
  | zero => rfl
  | succ n ih => rw [bytes, List.length_append, ih, List.length_singleton]

@[simp] theorem value_nil : value [] = 0 := rfl

theorem value_concat (bs : List UInt8) (b : UInt8) :
    value (bs ++ [b]) = value bs * 256 + b.toNat := by
  simp only [value, List.foldl_append, List.foldl_cons, List.foldl_nil]

theorem value_append (as bs : List UInt8) :
    value (as ++ bs) = value as * 256 ^ bs.length + value bs := by
  induction bs using List.reverseRecOn with
  | nil => simp
  | append_singleton bs b ih =>
      rw [← List.append_assoc, value_concat, value_concat, ih, List.length_append,
        List.length_singleton, Nat.pow_succ]
      ring

theorem value_cons (b : UInt8) (bs : List UInt8) :
    value (b :: bs) = b.toNat * 256 ^ bs.length + value bs := by
  rw [← List.singleton_append, value_append]
  simp [value]

theorem value_lt (bs : List UInt8) : value bs < 256 ^ bs.length := by
  induction bs using List.reverseRecOn with
  | nil => decide
  | append_singleton bs b ih =>
      have hb := b.toNat_lt
      rw [value_concat, List.length_append, List.length_singleton, Nat.pow_succ]
      omega

theorem value_bytes {n v : Nat} (h : v < 256 ^ n) : value (bytes n v) = v := by
  induction n generalizing v with
  | zero =>
      rw [Nat.pow_zero] at h
      rw [Nat.lt_one_iff.mp h]
      rfl
  | succ n ih =>
      rw [Nat.pow_succ] at h
      rw [bytes, value_concat, ih (by omega), Nat.toUInt8, UInt8.toNat_ofNat']
      omega

theorem bytes_value (bs : List UInt8) : bytes bs.length (value bs) = bs := by
  induction bs using List.reverseRecOn with
  | nil => rfl
  | append_singleton bs b ih =>
      have hb := b.toNat_lt
      rw [List.length_append, List.length_singleton, bytes, value_concat]
      rw [show (value bs * 256 + b.toNat) / 256 = value bs by omega, ih]
      congr 2
      apply UInt8.toNat_inj.mp
      rw [Nat.toUInt8, UInt8.toNat_ofNat']
      omega

/-- The bytes, one by one. -/
theorem bytes_eq_map (n v : Nat) :
    bytes n v = (List.range n).map fun i => (v / 256 ^ (n - 1 - i)).toUInt8 := by
  induction n generalizing v with
  | zero => rfl
  | succ n ih =>
      rw [bytes, ih, List.range_succ, List.map_append]
      congr 1
      · apply List.map_congr_left
        intro i hi
        have hi := List.mem_range.mp hi
        rw [show n + 1 - 1 - i = (n - 1 - i) + 1 by omega, Nat.pow_succ', Nat.div_div_eq_div_mul]
      · simp

/-! ### Two bytes -/

/-- `(hi << 8) | lo`. -/
def u16 (hi lo : UInt8) : UInt16 := hi.toUInt16 <<< 8 ||| lo.toUInt16

theorem u16_toNat (hi lo : UInt8) : (u16 hi lo).toNat = hi.toNat * 256 + lo.toNat := by
  have h1 := hi.toNat_lt
  have h2 := lo.toNat_lt
  have h8 : (8 : UInt16).toNat % 16 = 8 := by decide
  simp only [u16, UInt16.toNat_or, UInt16.toNat_shiftLeft, UInt8.toNat_toUInt16]
  rw [h8, Nat.mod_eq_of_lt (by rw [Nat.shiftLeft_eq]; omega), ← Nat.shiftLeft_add_eq_or_of_lt h2,
    Nat.shiftLeft_eq]

theorem u16_bytes (v : UInt16) : u16 (v >>> 8).toUInt8 v.toUInt8 = v := by
  have h := v.toNat_lt
  apply UInt16.toNat_inj.mp
  rw [u16_toNat]
  simp only [UInt16.toNat_toUInt8, UInt16.toNat_shiftRight, Nat.shiftRight_eq_div_pow]
  have h8 : (8 : UInt16).toNat % 16 = 8 := by decide
  rw [h8]
  omega

/-- The bytes of a number, from the number. -/
theorem nat_u16 (hi lo : UInt8) :
    ((u16 hi lo).toNat >>> 8).toUInt8 = hi ∧ (u16 hi lo).toNat.toUInt8 = lo := by
  have h1 := hi.toNat_lt
  have h2 := lo.toNat_lt
  constructor
  · apply UInt8.toNat_inj.mp
    rw [Nat.toUInt8, UInt8.toNat_ofNat', u16_toNat, Nat.shiftRight_eq_div_pow]
    omega
  · apply UInt8.toNat_inj.mp
    rw [Nat.toUInt8, UInt8.toNat_ofNat', u16_toNat]
    omega

theorem bytes_u16 (hi lo : UInt8) :
    (u16 hi lo >>> 8).toUInt8 = hi ∧ (u16 hi lo).toUInt8 = lo := by
  have h1 := hi.toNat_lt
  have h2 := lo.toNat_lt
  have h8 : (8 : UInt16).toNat % 16 = 8 := by decide
  constructor
  · apply UInt8.toNat_inj.mp
    rw [UInt16.toNat_toUInt8, UInt16.toNat_shiftRight, h8, u16_toNat, Nat.shiftRight_eq_div_pow]
    omega
  · apply UInt8.toNat_inj.mp
    rw [UInt16.toNat_toUInt8, u16_toNat]
    omega

theorem u16_nat {n : Nat} (h : n < 65536) : (u16 (n >>> 8).toUInt8 n.toUInt8).toNat = n := by
  simp only [u16_toNat, Nat.toUInt8, UInt8.toNat_ofNat', Nat.shiftRight_eq_div_pow]
  omega

/-! ### More bytes side by side -/

/-- A shift by whole bytes makes room for them. -/
theorem shift_or (as bs : List UInt8) :
    value as <<< (8 * bs.length) ||| value bs = value (as ++ bs) := by
  have hlt : value bs < 2 ^ (8 * bs.length) := by
    rw [Nat.pow_mul]
    exact value_lt bs
  rw [← Nat.shiftLeft_add_eq_or_of_lt hlt, Nat.shiftLeft_eq, Nat.pow_mul, value_append]

theorem value_singleton (b : UInt8) : value [b] = b.toNat := Nat.zero_add b.toNat

theorem or_two (b₁ b₀ : UInt8) : b₁.toNat <<< 8 ||| b₀.toNat = value [b₁, b₀] := by
  have h := shift_or [b₁] [b₀]
  rwa [value_singleton, value_singleton] at h

theorem or_three (b₂ b₁ b₀ : UInt8) :
    b₂.toNat <<< 16 ||| b₁.toNat <<< 8 ||| b₀.toNat = value [b₂, b₁, b₀] := by
  have h := shift_or [b₂] [b₁, b₀]
  rw [Nat.or_assoc, or_two]
  rwa [value_singleton] at h

theorem or_four (b₃ b₂ b₁ b₀ : UInt8) :
    b₃.toNat <<< 24 ||| b₂.toNat <<< 16 ||| b₁.toNat <<< 8 ||| b₀.toNat =
      value [b₃, b₂, b₁, b₀] := by
  have h := shift_or [b₃] [b₂, b₁, b₀]
  rw [Nat.or_assoc, Nat.or_assoc, ← Nat.or_assoc (b₂.toNat <<< 16), or_three]
  rwa [value_singleton] at h

/-- A byte that is moved up within a word. -/
theorem toNat_shift_u32 (b : UInt8) {k : UInt32} (hk : k.toNat ≤ 24) :
    (b.toUInt32 <<< k).toNat = b.toNat <<< k.toNat := by
  have hb := b.toNat_lt
  have hpow : 2 ^ k.toNat ≤ 2 ^ 24 := Nat.pow_le_pow_right (by decide) hk
  rw [UInt32.toNat_shiftLeft, UInt8.toNat_toUInt32, Nat.mod_eq_of_lt (by omega : k.toNat < 32),
    Nat.shiftLeft_eq]
  apply Nat.mod_eq_of_lt
  calc b.toNat * 2 ^ k.toNat ≤ b.toNat * 2 ^ 24 := Nat.mul_le_mul_left _ hpow
    _ < 2 ^ 32 := by omega

/-- A word, byte by byte. -/
theorem bytes_u32 (w : UInt32) : bytes 4 w.toNat =
    [(w >>> 24).toUInt8, (w >>> 16).toUInt8, (w >>> 8).toUInt8, w.toUInt8] := by
  have hshift : ∀ k : UInt32, (w.toNat / 2 ^ (k.toNat % 32)).toUInt8 = (w >>> k).toUInt8 := by
    intro k
    apply UInt8.toNat_inj.mp
    rw [UInt32.toNat_toUInt8, UInt32.toNat_shiftRight, Nat.shiftRight_eq_div_pow, Nat.toUInt8,
      UInt8.toNat_ofNat']
  have hlow : w.toNat.toUInt8 = w.toUInt8 := by
    apply UInt8.toNat_inj.mp
    rw [UInt32.toNat_toUInt8, Nat.toUInt8, UInt8.toNat_ofNat']
  rw [← hshift, ← hshift, ← hshift, ← hlow]
  simp only [bytes, Nat.div_div_eq_div_mul, List.nil_append, List.cons_append]
  rfl

end BigEndian
