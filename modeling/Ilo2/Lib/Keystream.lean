import Mathlib.Tactic.Common

/-!
# Stream ciphers

A generator `next` yields a byte and its next state; `crypt` adds the bytes it yields
to a message, one by one.

* `crypt_append` - the keystream runs on from one message into the next.
* `getElem?_crypt` - byte `i` of a message is added to byte `i` of the keystream.
* `crypt_crypt` - from equal states, `crypt` is its own inverse; `pieces_pieces`, also when the
  message comes in pieces.
-/

namespace Keystream

variable {σ : Type*} (next : σ → UInt8 × σ)

/-- `buf` plus the keystream from `s`, and the state after it. -/
def crypt : σ → List UInt8 → List UInt8 × σ
  | s, [] => ([], s)
  | s, b :: bs => ((b ^^^ (next s).1) :: (crypt (next s).2 bs).1, (crypt (next s).2 bs).2)

@[simp] theorem length_crypt (s : σ) (bs : List UInt8) :
    (crypt next s bs).1.length = bs.length := by
  induction bs generalizing s with
  | nil => rfl
  | cons b bs ih => simp only [crypt, List.length_cons, ih]

theorem crypt_append (s : σ) (as bs : List UInt8) :
    crypt next s (as ++ bs) =
      ((crypt next s as).1 ++ (crypt next (crypt next s as).2 bs).1,
        (crypt next (crypt next s as).2 bs).2) := by
  induction as generalizing s with
  | nil => rfl
  | cons a as ih => simp only [List.cons_append, crypt, ih]

/-- **Decryption.**  The same keystream takes itself away again. -/
theorem crypt_crypt (s : σ) (bs : List UInt8) :
    crypt next s (crypt next s bs).1 = (bs, (crypt next s bs).2) := by
  induction bs generalizing s with
  | nil => rfl
  | cons b bs ih =>
      have hb : b ^^^ (next s).1 ^^^ (next s).1 = b := by
        rw [UInt8.xor_assoc, UInt8.xor_self, UInt8.xor_zero]
      simp only [crypt, ih, hb]

/-- Messages, one after the other. -/
def pieces : σ → List (List UInt8) → List (List UInt8) × σ
  | s, [] => ([], s)
  | s, bs :: bss =>
      ((crypt next s bs).1 :: (pieces (crypt next s bs).2 bss).1, (pieces (crypt next s bs).2 bss).2)

/-- It does not matter where a message is cut. -/
theorem flatten_pieces (s : σ) (bss : List (List UInt8)) :
    ((pieces next s bss).1.flatten, (pieces next s bss).2) = crypt next s bss.flatten := by
  induction bss generalizing s with
  | nil => rfl
  | cons bs bss ih => simp only [pieces, List.flatten_cons, crypt_append, ← ih]

/-- **Decryption piece by piece**, however the ciphertext is cut. -/
theorem pieces_pieces {s : σ} {bss css : List (List UInt8)}
    (h : css.flatten = (pieces next s bss).1.flatten) :
    (pieces next s css).1.flatten = bss.flatten ∧
      (pieces next s css).2 = (pieces next s bss).2 := by
  have hcipher : (pieces next s bss).1.flatten = (crypt next s bss.flatten).1 :=
    congrArg Prod.fst (flatten_pieces next s bss)
  have hstate : (pieces next s bss).2 = (crypt next s bss.flatten).2 :=
    congrArg Prod.snd (flatten_pieces next s bss)
  have hplain := flatten_pieces next s css
  rw [h, hcipher, crypt_crypt, ← hstate] at hplain
  exact Prod.mk.inj hplain

/-- The state after `n` bytes. -/
def after (s : σ) : (n : Nat) → σ
  | 0 => s
  | n + 1 => after (next s).2 n

/-- Byte `n` of the keystream. -/
def byte (s : σ) (n : Nat) : UInt8 := (next (after next s n)).1

theorem crypt_snd (s : σ) (bs : List UInt8) : (crypt next s bs).2 = after next s bs.length := by
  induction bs generalizing s with
  | nil => rfl
  | cons b bs ih => simp only [crypt, ih, List.length_cons, after]

/-- **Byte by byte.** -/
theorem getElem?_crypt (s : σ) (bs : List UInt8) (i : Nat) :
    (crypt next s bs).1[i]? = bs[i]?.map (· ^^^ byte next s i) := by
  induction bs generalizing s i with
  | nil => simp [crypt]
  | cons b bs ih =>
      cases i with
      | zero => simp [crypt, byte, after]
      | succ i => simp only [crypt, List.getElem?_cons_succ, ih, byte, after]

end Keystream
