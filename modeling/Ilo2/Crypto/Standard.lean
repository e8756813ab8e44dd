import Ilo2.Crypto.Md5
import Ilo2.Crypto.Sha1
import Ilo2.Lib.BigEndian
import Mathlib.Data.List.Basic
import Mathlib.Data.List.GetD

/-!
# The hashes as RFC 1321, RFC 3174 and RFC 2104 define them

`md5` and `sha1` of a whole message: `0x80`, zeros and the length in bits are appended, and the
block function is folded over blocks of 64 bytes.  The block functions are written with the
operations, indices and recurrences of the two documents, the objects of `md5.hpp` and `sha1.hpp`
with what the program runs.  `hmac` is the MAC of a whole message.

* `md5Block_eq`, `sha1Block_eq` - `transform` is the block function.
* `hashes_streaming` - **the objects compute the hashes**, in whatever pieces a message comes.
-/

namespace Ilo2.Crypto.Standard

/-! ### What the two hashes share -/

/-- A rotation to the left. -/
def rotate (n x : UInt32) : UInt32 := x <<< n ||| x >>> (32 - n)

/-- Word `k` of a block, where `read` makes a word of four bytes. -/
def word (read : List UInt8 → UInt32) (blk : List UInt8) (k : Nat) : UInt32 :=
  read ((blk.drop (4 * k)).take 4)

/-- Four bytes, the low-order byte first. -/
def lowFirst (bs : List UInt8) : UInt32 := UInt32.ofNat (BigEndian.value bs.reverse)

/-- Four bytes, the high-order byte first. -/
def highFirst (bs : List UInt8) : UInt32 := UInt32.ofNat (BigEndian.value bs)

/-- The number of zeros that follow `0x80`. -/
def zeros (len : Nat) : Nat := (119 - len % 64) % 64

/-- The message with its padding; `length` writes the length in bits. -/
def padded (length : Nat → List UInt8) (msg : List UInt8) : List UInt8 :=
  msg ++ [0x80] ++ List.replicate (zeros msg.length) 0 ++ length (8 * msg.length)

/-- The block function, folded over the blocks. -/
def foldBlocks {S : Type} (block : S → List UInt8 → S) (iv : S) (msg : List UInt8) : S :=
  (List.range (msg.length / 64)).foldl (fun s i => block s ((msg.drop (64 * i)).take 64)) iv

/-! ### MD5 -/

/-- `F`, `G`, `H` and `I`, each for 16 operations. -/
def md5Function (i : Nat) (x y z : UInt32) : UInt32 :=
  if i < 16 then (x &&& y) ||| (~~~x &&& z)
  else if i < 32 then (x &&& z) ||| (y &&& ~~~z)
  else if i < 48 then x ^^^ y ^^^ z
  else y ^^^ (x ||| ~~~z)

/-- `k`: the word that operation `i` uses. -/
def md5Index (i : Nat) : Nat :=
  if i < 16 then i else if i < 32 then (5 * i + 1) % 16 else if i < 48 then (3 * i + 5) % 16
  else 7 * i % 16

/-- `s`: the rotation of operation `i`. -/
def md5Shift (i : Nat) : UInt32 :=
  let row : List UInt32 :=
    if i < 16 then [7, 12, 17, 22] else if i < 32 then [5, 9, 14, 20]
    else if i < 48 then [4, 11, 16, 23] else [6, 10, 15, 21]
  row.getD (i % 4) 0

/-- `T`: the integer part of `2 ^ 32 * |sin (i + 1)|`. -/
def md5T : List UInt32 := [
  0xd76aa478, 0xe8c7b756, 0x242070db, 0xc1bdceee, 0xf57c0faf, 0x4787c62a, 0xa8304613, 0xfd469501,
  0x698098d8, 0x8b44f7af, 0xffff5bb1, 0x895cd7be, 0x6b901122, 0xfd987193, 0xa679438e, 0x49b40821,
  0xf61e2562, 0xc040b340, 0x265e5a51, 0xe9b6c7aa, 0xd62f105d, 0x02441453, 0xd8a1e681, 0xe7d3fbc8,
  0x21e1cde6, 0xc33707d6, 0xf4d50d87, 0x455a14ed, 0xa9e3e905, 0xfcefa3f8, 0x676f02d9, 0x8d2a4c8a,
  0xfffa3942, 0x8771f681, 0x6d9d6122, 0xfde5380c, 0xa4beea44, 0x4bdecfa9, 0xf6bb4b60, 0xbebfbc70,
  0x289b7ec6, 0xeaa127fa, 0xd4ef3085, 0x04881d05, 0xd9d4d039, 0xe6db99e5, 0x1fa27cf8, 0xc4ac5665,
  0xf4292244, 0x432aff97, 0xab9423a7, 0xfc93a039, 0x655b59c3, 0x8f0ccc92, 0xffeff47d, 0x85845dd1,
  0x6fa87e4f, 0xfe2ce6e0, 0xa3014314, 0x4e0811a1, 0xf7537e82, 0xbd3af235, 0x2ad7d2bb, 0xeb86d391]

/-- `[abcd k s i]`, and the registers moved on for the next operation. -/
def md5Operation (blk : List UInt8) (r : MD5.State) (i : Nat) : MD5.State :=
  ⟨r.d, r.b + rotate (md5Shift i)
    (r.a + md5Function i r.b r.c r.d + word lowFirst blk (md5Index i) + md5T.getD i 0), r.b, r.c⟩

def md5Block (s : MD5.State) (blk : List UInt8) : MD5.State :=
  let r := (List.range 64).foldl (md5Operation blk) s
  ⟨s.a + r.a, s.b + r.b, s.c + r.c, s.d + r.d⟩

/-- **MD5** of a message. -/
def md5 (msg : List UInt8) : List UInt8 :=
  let s := foldBlocks md5Block ⟨0x67452301, 0xefcdab89, 0x98badcfe, 0x10325476⟩
    (padded (fun n => (BigEndian.bytes 8 n).reverse) msg)
  [s.a, s.b, s.c, s.d].flatMap fun w => (BigEndian.bytes 4 w.toNat).reverse

/-! ### SHA-1 -/

/-- `f(t; B, C, D)`. -/
def sha1Function (t : Nat) (b c d : UInt32) : UInt32 :=
  if t < 20 then (b &&& c) ||| (~~~b &&& d)
  else if t < 40 then b ^^^ c ^^^ d
  else if t < 60 then (b &&& c) ||| (b &&& d) ||| (c &&& d)
  else b ^^^ c ^^^ d

/-- `K(t)`. -/
def sha1Constant (t : Nat) : UInt32 :=
  if t < 20 then 0x5A827999 else if t < 40 then 0x6ED9EBA1 else if t < 60 then 0x8F1BBCDC
  else 0xCA62C1D6

/-- `W(t)`. -/
def sha1Word (blk : List UInt8) (t : Nat) : UInt32 :=
  if t < 16 then word highFirst blk t
  else rotate 1 (sha1Word blk (t - 3) ^^^ sha1Word blk (t - 8) ^^^ sha1Word blk (t - 14) ^^^
    sha1Word blk (t - 16))

/-- Step `t` of the block function. -/
def sha1Operation (blk : List UInt8) (r : SHA1.State) (t : Nat) : SHA1.State :=
  ⟨rotate 5 r.a + sha1Function t r.b r.c r.d + r.e + sha1Word blk t + sha1Constant t, r.a,
    rotate 30 r.b, r.c, r.d⟩

def sha1Block (s : SHA1.State) (blk : List UInt8) : SHA1.State :=
  let r := (List.range 80).foldl (sha1Operation blk) s
  ⟨s.a + r.a, s.b + r.b, s.c + r.c, s.d + r.d, s.e + r.e⟩

/-- **SHA-1** of a message. -/
def sha1 (msg : List UInt8) : List UInt8 :=
  let s := foldBlocks sha1Block
    ⟨0x67452301, 0xEFCDAB89, 0x98BADCFE, 0x10325476, 0xC3D2E1F0⟩ (padded (BigEndian.bytes 8) msg)
  [s.a, s.b, s.c, s.d, s.e].flatMap fun w => BigEndian.bytes 4 w.toNat

/-! ### HMAC -/

/-- **HMAC** with the hash `H`, whose blocks have `B` bytes. -/
def hmac (H : List UInt8 → List UInt8) (B : Nat) (key text : List UInt8) : List UInt8 :=
  let k := if key.length > B then H key else key
  let k := k ++ List.replicate (B - k.length) 0
  H (k.map (· ^^^ 0x5C) ++ H (k.map (· ^^^ 0x36) ++ text))

/-! ### Words -/

/-- Four bytes side by side, in a word. -/
theorem word_of_bytes (b₃ b₂ b₁ b₀ : UInt8) :
    b₃.toUInt32 <<< 24 ||| b₂.toUInt32 <<< 16 ||| b₁.toUInt32 <<< 8 ||| b₀.toUInt32 =
      UInt32.ofNat (BigEndian.value [b₃, b₂, b₁, b₀]) := by
  have hlt := BigEndian.value_lt [b₃, b₂, b₁, b₀]
  apply UInt32.toNat_inj.mp
  rw [UInt32.toNat_ofNat', Nat.mod_eq_of_lt (by simpa using hlt), UInt32.toNat_or,
    UInt32.toNat_or, UInt32.toNat_or, BigEndian.toNat_shift_u32 b₃ (by decide),
    BigEndian.toNat_shift_u32 b₂ (by decide), BigEndian.toNat_shift_u32 b₁ (by decide),
    UInt8.toNat_toUInt32]
  exact BigEndian.or_four b₃ b₂ b₁ b₀

/-- A block as words, index by index, for a function that makes a list of `n` words of it. -/
theorem getD_words {words : Nat → List UInt8 → List UInt32} {read : List UInt8 → UInt32}
    (hwords : ∀ n b₀ b₁ b₂ b₃ bs, words (n + 1) (b₀ :: b₁ :: b₂ :: b₃ :: bs) =
      read [b₀, b₁, b₂, b₃] :: words n bs) : ∀ (n : Nat) (blk : List UInt8) (k : Nat),
    blk.length = 4 * n → k < n → (words n blk).getD k 0 = word read blk k := by
  intro n
  induction n with
  | zero => intro blk k _ hk; exact absurd hk (Nat.not_lt_zero k)
  | succ n ih =>
      intro blk k hlen hk
      match blk, hlen with
      | b₀ :: b₁ :: b₂ :: b₃ :: bs, hlen =>
          simp only [List.length_cons] at hlen
          rw [hwords]
          cases k with
          | zero => rfl
          | succ k =>
              rw [List.getD_cons_succ, ih bs k (by omega) (by omega), word, word,
                show 4 * (k + 1) = 4 * k + 4 by omega]
              rfl

theorem md5_words {blk : List UInt8} (hlen : blk.length = 64) {k : Nat} (hk : k < 16) :
    (MD5.words 16 blk).getD k 0 = word lowFirst blk k := by
  refine getD_words ?_ 16 blk k hlen hk
  intro n b₀ b₁ b₂ b₃ bs
  rw [MD5.words]
  congr 1
  rw [lowFirst, show ([b₀, b₁, b₂, b₃] : List UInt8).reverse = [b₃, b₂, b₁, b₀] from rfl,
    ← word_of_bytes]
  -- the program lists the bytes from the other end
  rw [UInt32.or_comm b₀.toUInt32, UInt32.or_comm (_ ||| _) (b₂.toUInt32 <<< 16),
    UInt32.or_comm (_ ||| _) (b₃.toUInt32 <<< 24)]
  simp only [UInt32.or_assoc]

theorem sha1_words {blk : List UInt8} (hlen : blk.length = 64) {k : Nat} (hk : k < 16) :
    (SHA1.words 16 blk).getD k 0 = word highFirst blk k := by
  refine getD_words ?_ 16 blk k hlen hk
  intro n b₀ b₁ b₂ b₃ bs
  rw [SHA1.words, highFirst, word_of_bytes]

/-! ### The block functions -/

/-- Row `i` of the tables of `transform`. -/
def md5Row (i : Nat) : MD5.Row := ⟨md5Index i, md5Shift i, md5T.getD i 0⟩

theorem md5_rows : MD5.rowsF = (List.range 16).map md5Row ∧
    MD5.rowsG = (List.range 16).map (fun i => md5Row (i + 16)) ∧
    MD5.rowsH = (List.range 16).map (fun i => md5Row (i + 32)) ∧
    MD5.rowsI = (List.range 16).map (fun i => md5Row (i + 48)) :=
  ⟨rfl, rfl, rfl, rfl⟩

theorem md5Index_lt (i : Nat) : md5Index i < 16 := by
  rw [md5Index]
  split
  · assumption
  · split
    · omega
    · split
      · omega
      · omega

/-- A round of `transform`: the rows of 16 operations from `j` on. -/
theorem md5_round {blk : List UInt8} (hlen : blk.length = 64)
    {f : UInt32 → UInt32 → UInt32 → UInt32} {j : Nat}
    (hf : ∀ i < 16, md5Function (i + j) = f) (r : MD5.State) :
    ((List.range 16).map fun i => md5Row (i + j)).foldl (MD5.step f (MD5.words 16 blk)) r =
      ((List.range 16).map (· + j)).foldl (md5Operation blk) r := by
  rw [List.foldl_map, List.foldl_map]
  apply List.foldl_ext
  intro r i hi
  have hi16 := List.mem_range.mp hi
  rw [md5Operation, hf i hi16, ← md5_words hlen (md5Index_lt _)]
  rfl

/-- **`transform` of MD5** is the block function. -/
theorem md5Block_eq (s : MD5.State) {blk : List UInt8} (hlen : blk.length = 64) :
    MD5.transform s blk = md5Block s blk := by
  obtain ⟨hF, hG, hH, hI⟩ := md5_rows
  have hrange : List.range 64 = (List.range 16).map (· + 0) ++ ((List.range 16).map (· + 16) ++
      ((List.range 16).map (· + 32) ++ (List.range 16).map (· + 48))) := by
    decide
  have hf : ∀ i < 16, md5Function (i + 0) = MD5.F := by
    intro i hi
    funext x y z
    simp [md5Function, hi, MD5.F]
  have hg : ∀ i < 16, md5Function (i + 16) = MD5.G := by
    intro i hi
    funext x y z
    rw [md5Function, if_neg (by omega), if_pos (by omega), MD5.G]
  have hh : ∀ i < 16, md5Function (i + 32) = MD5.H := by
    intro i hi
    funext x y z
    rw [md5Function, if_neg (by omega), if_neg (by omega), if_pos (by omega), MD5.H]
  have hi : ∀ i < 16, md5Function (i + 48) = MD5.I := by
    intro i _
    funext x y z
    rw [md5Function, if_neg (by omega), if_neg (by omega), if_neg (by omega), MD5.I]
  have hloop : ∀ r : MD5.State, MD5.rowsI.foldl (MD5.step MD5.I (MD5.words 16 blk))
      (MD5.rowsH.foldl (MD5.step MD5.H (MD5.words 16 blk))
        (MD5.rowsG.foldl (MD5.step MD5.G (MD5.words 16 blk))
          (MD5.rowsF.foldl (MD5.step MD5.F (MD5.words 16 blk)) r))) =
      (List.range 64).foldl (md5Operation blk) r := by
    intro r
    rw [hrange, List.foldl_append, List.foldl_append, List.foldl_append,
      ← md5_round hlen hf, ← md5_round hlen hg,
      ← md5_round hlen hh, ← md5_round hlen hi, hF, hG, hH, hI]
    rfl
  rw [md5Block, ← hloop]
  rfl

/-- The schedule of `transform` is the recurrence, the newest word first. -/
theorem sha1_schedule {blk : List UInt8} : ∀ (k n : Nat), 16 ≤ n →
    SHA1.schedule k ((List.range n).map (sha1Word blk)).reverse =
      ((List.range (n + k)).map (sha1Word blk)).reverse := by
  intro k
  induction k with
  | zero => intro n _; rfl
  | succ k ih =>
      intro n hn
      have hget : ∀ i < 16,
          ((List.range n).map (sha1Word blk)).reverse.getD i 0 = sha1Word blk (n - 1 - i) := by
        intro i hi
        have hlt : i < ((List.range n).map (sha1Word blk)).reverse.length := by
          simp
          omega
        rw [List.getD_eq_getElem _ _ hlt, List.getElem_reverse, List.getElem_map,
          List.getElem_range]
        simp
      have hnew : sha1Word blk n = SHA1.rol
          (sha1Word blk (n - 1 - 2) ^^^ sha1Word blk (n - 1 - 7) ^^^ sha1Word blk (n - 1 - 13) ^^^
            sha1Word blk (n - 1 - 15)) 1 := by
        rw [sha1Word, if_neg (by omega), show n - 1 - 2 = n - 3 by omega,
          show n - 1 - 7 = n - 8 by omega, show n - 1 - 13 = n - 14 by omega,
          show n - 1 - 15 = n - 16 by omega]
        rfl
      rw [SHA1.schedule, hget 2 (by omega), hget 7 (by omega), hget 13 (by omega),
        hget 15 (by omega), ← hnew]
      have hcons : sha1Word blk n :: ((List.range n).map (sha1Word blk)).reverse =
          ((List.range (n + 1)).map (sha1Word blk)).reverse := by
        rw [List.range_succ, List.map_append, List.reverse_append]
        rfl
      rw [hcons, ih (n + 1) (by omega), Nat.add_assoc, Nat.add_comm 1 k]

theorem length_sha1_words : ∀ (n : Nat) (blk : List UInt8), blk.length = 4 * n →
    (SHA1.words n blk).length = n := by
  intro n
  induction n with
  | zero => intro blk _; simp [SHA1.words]
  | succ n ih =>
      intro blk hlen
      match blk, hlen with
      | b₀ :: b₁ :: b₂ :: b₃ :: bs, hlen =>
          simp only [List.length_cons] at hlen
          rw [SHA1.words, List.length_cons, ih bs (by omega)]

/-- **`transform` of SHA-1** is the block function. -/
theorem sha1Block_eq (s : SHA1.State) {blk : List UInt8} (hlen : blk.length = 64) :
    SHA1.transform s blk = sha1Block s blk := by
  have hfirst : SHA1.words 16 blk = (List.range 16).map (sha1Word blk) := by
    apply List.ext_getElem
    · simp [length_sha1_words 16 blk hlen]
    · intro i h₁ h₂
      have hi : i < 16 := by simpa using h₂
      rw [← List.getD_eq_getElem _ 0 h₁, sha1_words hlen hi, List.getElem_map,
        List.getElem_range, sha1Word, if_pos hi]
  have hwords : (SHA1.schedule 64 (SHA1.words 16 blk).reverse).reverse =
      (List.range 80).map (sha1Word blk) := by
    rw [hfirst, sha1_schedule 64 16 (Nat.le_refl _), List.reverse_reverse]
  have hzip : (List.range 80).zip ((List.range 80).map (sha1Word blk)) =
      (List.range 80).map fun t => (t, sha1Word blk t) := List.map_prod_left_eq_zip.symm
  have hstep : ∀ (r : SHA1.State) (t : Nat),
      SHA1.step r (t, sha1Word blk t) = sha1Operation blk r t := by
    intro r t
    have hround : SHA1.round t r.b r.c r.d = (sha1Function t r.b r.c r.d, sha1Constant t) := by
      rw [SHA1.round, sha1Function, sha1Constant]
      split
      · rfl
      · split
        · rfl
        · split
          · rfl
          · rfl
    rw [SHA1.step, hround, sha1Operation]
    simp only [SHA1.rol, rotate, UInt32.add_assoc, UInt32.add_comm (sha1Constant t)]
  rw [SHA1.transform, hwords, hzip]
  simp only [List.foldl_map, hstep]
  rfl

/-! ### The whole hash -/

theorem foldBlocks_eq {S : Type} {compress block : S → List UInt8 → S}
    (hblock : ∀ s blk, blk.length = 64 → compress s blk = block s blk) (iv : S)
    (msg : List UInt8) :
    (BlockHash.blocks compress (msg.length / 64) iv msg).1 = foldBlocks block iv msg := by
  rw [BlockHash.blocks_eq_foldl, foldBlocks]
  apply List.foldl_ext
  intro s i hi
  have hlt := List.mem_range.mp hi
  apply hblock
  rw [List.length_take, List.length_drop]
  omega

theorem padded_eq {S : Type} {n : Nat} (A : BlockHash.Algorithm S n) {length : Nat → List UInt8}
    (hlength : ∀ m, A.lengthBytes (UInt64.ofNat m) = length m) (msg : List UInt8) :
    A.padded msg = padded length msg := by
  rw [BlockHash.Algorithm.padded, padded, hlength]
  simp [zeros]

/-- Byte `i` of a number of 64 bits, counted from the low-order end. -/
theorem shift64 (m : Nat) {k : Nat} (hk : k < 8) :
    (UInt64.ofNat m >>> (8 * k).toUInt64).toUInt8 = (m / 256 ^ k).toUInt8 := by
  have hsmall : (8 * k).toUInt64.toNat % 64 = 8 * k := by
    rw [Nat.toUInt64, UInt64.toNat_ofNat']
    omega
  have hpow : (2 : Nat) ^ 64 = 256 ^ k * 2 ^ (64 - 8 * k) := by
    rw [show (256 : Nat) = 2 ^ 8 from rfl, ← Nat.pow_mul, ← Nat.pow_add]
    congr 1
    omega
  have hbyte : (2 : Nat) ^ (64 - 8 * k) = 256 * 2 ^ (56 - 8 * k) := by
    rw [show (256 : Nat) = 2 ^ 8 from rfl, ← Nat.pow_add]
    congr 1
    omega
  apply UInt8.toNat_inj.mp
  rw [UInt64.toNat_toUInt8, UInt64.toNat_shiftRight, hsmall, UInt64.toNat_ofNat', Nat.toUInt8,
    UInt8.toNat_ofNat', Nat.shiftRight_eq_div_pow, Nat.pow_mul, hpow,
    Nat.mod_mul_right_div_self, hbyte]
  exact Nat.mod_mul_right_mod _ _ _

theorem sha1_length (m : Nat) : SHA1.lengthBytes (UInt64.ofNat m) = BigEndian.bytes 8 m := by
  rw [SHA1.lengthBytes, BigEndian.bytes_eq_map]
  apply List.map_congr_left
  intro i hi
  have hlt := List.mem_range.mp hi
  rw [show 56 - 8 * i = 8 * (8 - 1 - i) by omega]
  exact shift64 m (by omega)

theorem md5_length (m : Nat) :
    MD5.lengthBytes (UInt64.ofNat m) = (BigEndian.bytes 8 m).reverse := by
  rw [MD5.lengthBytes, BigEndian.bytes_eq_map, ← List.map_reverse]
  have hrev : (List.range 8).reverse = (List.range 8).map fun i => 7 - i := by decide
  rw [hrev, List.map_map]
  apply List.map_congr_left
  intro i hi
  have hlt := List.mem_range.mp hi
  show _ = (m / 256 ^ (8 - 1 - (7 - i))).toUInt8
  rw [show 8 - 1 - (7 - i) = i by omega]
  exact shift64 m hlt

theorem md5_hash (msg : List UInt8) : (MD5.hash msg).toList = md5 msg := by
  have hfold := foldBlocks_eq (fun s blk h => md5Block_eq s h)
    ⟨0x67452301, 0xefcdab89, 0x98badcfe, 0x10325476⟩ (MD5.algorithm.padded msg)
  rw [padded_eq MD5.algorithm md5_length] at hfold
  rw [md5, ← hfold, MD5.hash, BlockHash.Algorithm.hash, padded_eq MD5.algorithm md5_length]
  simp only [List.flatMap_cons, List.flatMap_nil, BigEndian.bytes_u32, List.append_nil]
  rfl

theorem sha1_hash (msg : List UInt8) : (SHA1.hash msg).toList = sha1 msg := by
  have hfold := foldBlocks_eq (fun s blk h => sha1Block_eq s h)
    ⟨0x67452301, 0xEFCDAB89, 0x98BADCFE, 0x10325476, 0xC3D2E1F0⟩ (SHA1.algorithm.padded msg)
  rw [padded_eq SHA1.algorithm sha1_length] at hfold
  rw [sha1, ← hfold, SHA1.hash, BlockHash.Algorithm.hash, padded_eq SHA1.algorithm sha1_length]
  simp only [List.flatMap_cons, List.flatMap_nil, BigEndian.bytes_u32, List.append_nil]
  rfl

theorem md5_chunks (chunks : List (List UInt8)) :
    (chunks.foldl MD5.update MD5.init).digest = (MD5.hash chunks.flatten, MD5.init) :=
  MD5.Absorbed.digest (MD5.Absorbed.init.foldl chunks)

theorem sha1_chunks (chunks : List (List UInt8)) :
    (chunks.foldl SHA1.update SHA1.init).digest = (SHA1.hash chunks.flatten, SHA1.init) :=
  SHA1.Absorbed.digest (SHA1.Absorbed.init.foldl chunks)

/-- **The objects compute the hashes**: a fresh object that is given a message in pieces returns
the hash of the message, and starts again. -/
theorem hashes_streaming (chunks : List (List UInt8)) :
    ((chunks.foldl MD5.update MD5.init).digest.1.toList = md5 chunks.flatten ∧
      (chunks.foldl MD5.update MD5.init).digest.2 = MD5.init) ∧
    ((chunks.foldl SHA1.update SHA1.init).digest.1.toList = sha1 chunks.flatten ∧
      (chunks.foldl SHA1.update SHA1.init).digest.2 = SHA1.init) := by
  rw [md5_chunks, sha1_chunks]
  exact ⟨⟨md5_hash _, rfl⟩, ⟨sha1_hash _, rfl⟩⟩

end Ilo2.Crypto.Standard
