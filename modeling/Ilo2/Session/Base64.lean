import Ilo2.Lib.BigEndian
import Ilo2.Tls.Prf

/-!
# Base64 of the login

`base64_encode` of `ilo_session.hpp`, which writes the user and the password into the login
cookie, and `hp_base64_decode` of `console_core.hpp`, which reads the console's login text: it
turns `:` into a carriage return and appends one.

* `decodeLoop_encode` - what the decoder's loop makes of an encoded text.
* `base64` - **the decoder undoes the encoder up to its quirks**, and what the encoder writes.
-/

namespace Ilo2.Session

open Tls (ascii)

/-! ### The encoder -/

/-- The table `T` of `base64_encode`. -/
def alphabet : List UInt8 :=
  ascii "ABCDEFGHIJKLMNOPQRSTUVWXYZabcdefghijklmnopqrstuvwxyz0123456789+/"

/-- `T[(n >> k) & 63]`. -/
def digit (n k : Nat) : UInt8 := alphabet.getD ((n >>> k) &&& 63) 0

/-- `base64_encode`: whole groups of three bytes, and what is left of one. -/
def base64Encode : List UInt8 → List UInt8
  | b₀ :: b₁ :: b₂ :: s =>
      let n := b₀.toNat <<< 16 ||| b₁.toNat <<< 8 ||| b₂.toNat
      [digit n 18, digit n 12, digit n 6, digit n 0] ++ base64Encode s
  | [b₀, b₁] =>
      let n := b₀.toNat <<< 16 ||| b₁.toNat <<< 8
      [digit n 18, digit n 12, digit n 6, 0x3D]
  | [b₀] =>
      let n := b₀.toNat <<< 16
      [digit n 18, digit n 12, 0x3D, 0x3D]
  | [] => []

/-! ### The decoder -/

/-- The lambda `val`: a character that is no digit counts as 0. -/
def val (c : UInt8) : Nat :=
  if 0x41 ≤ c ∧ c ≤ 0x5A then c.toNat - 0x41
  else if 0x61 ≤ c ∧ c ≤ 0x7A then c.toNat - 0x61 + 26
  else if 0x30 ≤ c ∧ c ≤ 0x39 then c.toNat - 0x30 + 52
  else if c = 0x2B then 62
  else if c = 0x2F then 63
  else 0

/-- The lambda `fix`. -/
def fix (v : Nat) : UInt8 := if v &&& 0xFF = 0x3A then 0x0D else (v &&& 0xFF).toUInt8

/-- The loop of `hp_base64_decode`, with `fix` for what is done to each sum.  It ends with the
first group that has padding. -/
def decodeLoop (fix : Nat → UInt8) : List UInt8 → List UInt8
  | a :: b :: c :: d :: s =>
      [fix ((val a <<< 2) + (val b >>> 4))] ++
        (if c = 0x3D then [] else [fix ((val b <<< 4) + (val c >>> 2))]) ++
        (if d = 0x3D then [] else [fix ((val c <<< 6) + val d)]) ++
        (if c = 0x3D ∨ d = 0x3D then [] else decodeLoop fix s)
  | _ => []

/-- `hp_base64_decode`. -/
def hpBase64Decode (s : List UInt8) : List UInt8 :=
  let out := decodeLoop fix s
  if out ≠ [] then out ++ [0x0D] else out

/-! ### Digits -/

/-- A character of the standard alphabet. -/
def IsDigit (c : UInt8) : Prop :=
  (0x41 ≤ c ∧ c ≤ 0x5A) ∨ (0x61 ≤ c ∧ c ≤ 0x7A) ∨ (0x30 ≤ c ∧ c ≤ 0x39) ∨ c = 0x2B ∨ c = 0x2F

instance (c : UInt8) : Decidable (IsDigit c) :=
  inferInstanceAs (Decidable (_ ∨ _ ∨ _ ∨ _ ∨ _))

theorem digit_eq (n k : Nat) : digit n k = alphabet.getD (n / 2 ^ k % 64) 0 := by
  rw [digit, Nat.shiftRight_eq_div_pow, show 63 = 2 ^ 6 - 1 from rfl,
    Nat.and_two_pow_sub_one_eq_mod]

theorem alphabet_digits : ∀ v < 64, val (alphabet.getD v 0) = v ∧ IsDigit (alphabet.getD v 0) := by
  decide +kernel

@[simp] theorem val_digit (n k : Nat) : val (digit n k) = n / 2 ^ k % 64 := by
  rw [digit_eq]
  exact (alphabet_digits _ (Nat.mod_lt _ (by decide))).1

theorem isDigit_digit (n k : Nat) : IsDigit (digit n k) := by
  rw [digit_eq]
  exact (alphabet_digits _ (Nat.mod_lt _ (by decide))).2

@[simp] theorem digit_ne (n k : Nat) : digit n k ≠ 0x3D := by
  intro h
  have hdigit := isDigit_digit n k
  rw [h] at hdigit
  revert hdigit
  decide

/-- Three bytes side by side. -/
theorem group_eq (b₀ b₁ b₂ : UInt8) : b₀.toNat <<< 16 ||| b₁.toNat <<< 8 ||| b₂.toNat =
    b₀.toNat * 65536 + b₁.toNat * 256 + b₂.toNat := by
  rw [BigEndian.or_three]
  simp only [BigEndian.value, List.foldl_cons, List.foldl_nil]
  omega

theorem pair_eq (b₀ b₁ : UInt8) :
    b₀.toNat <<< 16 ||| b₁.toNat <<< 8 = b₀.toNat * 65536 + b₁.toNat * 256 := by
  have h := group_eq b₀ b₁ 0
  simpa using h

/-! ### Round trip -/

/-- `fix` looks at the low byte of its argument only. -/
def LowByte (fix : Nat → UInt8) : Prop := ∀ v, fix v = fix (v % 256)

theorem lowByte_fix : LowByte fix := by
  intro v
  have h : ∀ w : Nat, w &&& 0xFF = w % 256 := fun w => Nat.and_two_pow_sub_one_eq_mod w 8
  simp [fix, h]

theorem lowByte_toUInt8 : LowByte Nat.toUInt8 := by
  intro v
  apply UInt8.toNat_inj.mp
  simp [Nat.toUInt8]

variable {f : Nat → UInt8}

/-- The sums of a group are its bytes, after masking. -/
theorem sums_eq (hf : LowByte f) (b₀ b₁ b₂ : UInt8) {n : Nat}
    (hn : n = b₀.toNat * 65536 + b₁.toNat * 256 + b₂.toNat) :
    f ((n / 2 ^ 18 % 64) <<< 2 + (n / 2 ^ 12 % 64) >>> 4) = f b₀.toNat ∧
      f ((n / 2 ^ 12 % 64) <<< 4 + (n / 2 ^ 6 % 64) >>> 2) = f b₁.toNat ∧
      f ((n / 2 ^ 6 % 64) <<< 6 + n / 2 ^ 0 % 64) = f b₂.toNat := by
  have h₀ := b₀.toNat_lt
  have h₁ := b₁.toNat_lt
  have h₂ := b₂.toNat_lt
  simp only [Nat.shiftLeft_eq, Nat.shiftRight_eq_div_pow]
  refine ⟨?_, ?_, ?_⟩
  · rw [hf]
    congr 1
    omega
  · rw [hf]
    congr 1
    omega
  · rw [hf]
    congr 1
    omega

/-- **What the loop makes of an encoded text**: it is stopped by the padding, if there is
any. -/
theorem decodeLoop_encode (hf : LowByte f) : ∀ s : List UInt8,
    decodeLoop f (base64Encode s) = s.map fun b => f b.toNat := by
  intro s
  induction s using base64Encode.induct with
  | case1 b₀ b₁ b₂ s ih =>
      obtain ⟨e₀, e₁, e₂⟩ := sums_eq hf b₀ b₁ b₂ (group_eq b₀ b₁ b₂)
      simp only [base64Encode, List.cons_append, List.nil_append, decodeLoop, val_digit, digit_ne,
        if_false, or_self, e₀, e₁, e₂, ih, List.map_cons]
  | case2 b₀ b₁ =>
      have hn : b₀.toNat <<< 16 ||| b₁.toNat <<< 8 =
          b₀.toNat * 65536 + b₁.toNat * 256 + (0 : UInt8).toNat := by
        simp [pair_eq]
      obtain ⟨e₀, e₁, -⟩ := sums_eq hf b₀ b₁ 0 hn
      simp only [base64Encode, decodeLoop, val_digit, digit_ne, if_false, if_true, or_true, e₀, e₁,
        List.cons_append, List.nil_append, List.append_nil, List.map_cons, List.map_nil]
  | case3 b₀ =>
      have hn : b₀.toNat <<< 16 = b₀.toNat * 65536 + (0 : UInt8).toNat * 256 + (0 : UInt8).toNat := by
        simp [Nat.shiftLeft_eq]
      obtain ⟨e₀, -, -⟩ := sums_eq hf b₀ 0 0 hn
      simp only [base64Encode, decodeLoop, val_digit, if_true, true_or, e₀, List.append_nil,
        List.map_cons, List.map_nil]
  | case4 => simp [base64Encode, decodeLoop]

theorem length_encode : ∀ s : List UInt8,
    (base64Encode s).length = 4 * ((s.length + 2) / 3) := by
  intro s
  induction s using base64Encode.induct with
  | case1 b₀ b₁ b₂ s ih =>
      simp only [base64Encode, List.length_append, List.length_cons, List.length_nil, ih]
      omega
  | case2 b₀ b₁ => simp [base64Encode]
  | case3 b₀ => simp [base64Encode]
  | case4 => simp [base64Encode]

/-- Digits, and at the end as much padding as the last group lacks bytes. -/
theorem encode_shape : ∀ s : List UInt8, ∃ body : List UInt8, (∀ c ∈ body, IsDigit c) ∧
    base64Encode s = body ++ List.replicate ((3 - s.length % 3) % 3) 0x3D := by
  intro s
  induction s using base64Encode.induct with
  | case1 b₀ b₁ b₂ s ih =>
      obtain ⟨body, hbody, heq⟩ := ih
      let n := b₀.toNat <<< 16 ||| b₁.toNat <<< 8 ||| b₂.toNat
      refine ⟨[digit n 18, digit n 12, digit n 6, digit n 0] ++ body, ?_, ?_⟩
      · intro c hc
        simp only [List.mem_append, List.mem_cons, List.not_mem_nil, or_false] at hc
        rcases hc with (rfl | rfl | rfl | rfl) | hc
        · exact isDigit_digit _ _
        · exact isDigit_digit _ _
        · exact isDigit_digit _ _
        · exact isDigit_digit _ _
        · exact hbody c hc
      · have hlen : (b₀ :: b₁ :: b₂ :: s).length % 3 = s.length % 3 := by
          simp only [List.length_cons]
          omega
        rw [hlen, base64Encode, heq, List.append_assoc]
  | case2 b₀ b₁ =>
      let n := b₀.toNat <<< 16 ||| b₁.toNat <<< 8
      exact ⟨[digit n 18, digit n 12, digit n 6], by simp [isDigit_digit],
        by simp [base64Encode, n]⟩
  | case3 b₀ =>
      let n := b₀.toNat <<< 16
      exact ⟨[digit n 18, digit n 12], by simp [isDigit_digit],
        by simp [base64Encode, n, List.replicate_succ]⟩
  | case4 => exact ⟨[], by simp, by simp [base64Encode]⟩

theorem encode_injective : Function.Injective base64Encode := by
  intro s t h
  have hdecode := congrArg (decodeLoop Nat.toUInt8) h
  rw [decodeLoop_encode lowByte_toUInt8, decodeLoop_encode lowByte_toUInt8] at hdecode
  have hid : (fun b : UInt8 => b.toNat.toUInt8) = id := by
    funext b
    apply UInt8.toNat_inj.mp
    simp [Nat.toUInt8]
  rwa [hid, List.map_id, List.map_id] at hdecode

/-- **Base64 of the login.**  The decoder returns the text, with a carriage return for each
`:` and one more at the end; the encoder writes four characters for three bytes, digits of the
standard alphabet with padding at the end, and different texts differently. -/
theorem base64 : Function.Injective base64Encode ∧ ∀ s : List UInt8,
    hpBase64Decode (base64Encode s) =
        (if s = [] then [] else (s.map fun b => if b = 0x3A then 0x0D else b) ++ [0x0D]) ∧
      (base64Encode s).length = 4 * ((s.length + 2) / 3) ∧
      ∃ body : List UInt8, (∀ c ∈ body, IsDigit c) ∧
        base64Encode s = body ++ List.replicate ((3 - s.length % 3) % 3) 0x3D := by
  refine ⟨encode_injective, fun s => ⟨?_, length_encode s, encode_shape s⟩⟩
  have hfix : (fun b : UInt8 => fix b.toNat) = fun b => if b = 0x3A then 0x0D else b := by
    funext b
    have hb := b.toNat_lt
    have hlow : b.toNat &&& 0xFF = b.toNat := by
      rw [show 0xFF = 2 ^ 8 - 1 from rfl, Nat.and_two_pow_sub_one_eq_mod]
      omega
    rw [fix, hlow]
    simp [← UInt8.toNat_inj, Nat.toUInt8]
  have hloop := decodeLoop_encode lowByte_fix s
  rw [hfix] at hloop
  rw [hpBase64Decode, hloop]
  by_cases hs : s = []
  · simp [hs]
  · simp [hs]

end Ilo2.Session
