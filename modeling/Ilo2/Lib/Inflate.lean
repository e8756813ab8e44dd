import Ilo2.Lib.Bitstring
import Ilo2.Lib.BigEndian
import Mathlib.Algebra.Group.Nat.Defs
import Mathlib.Tactic.Ring

/-!
# Compressed data

A reader of the zlib format (RFC 1950) with the blocks of RFC 1951 that need no code table of their
own: stored ones, and those with the fixed codes.

* `symbol_code` - a symbol is read back from its code, whatever follows.
* `Decodes.literal`, `Decodes.copy`, `Decodes.finish` - **what a block is made of**: codes of
  symbols that decode to some bytes, which may be continued.
* `blocks_stored`, `blocks_fixed` - a block is read, and what is behind it.
-/

namespace Inflate

open Bitstring

/-! ### Bits -/

/-- The bits of bytes, the lowest first. -/
def bitsOf (bytes : List UInt8) : List Bool := bytes.flatMap fun b => bits 8 b.toNat

/-- A number of `n` bits, the lowest first. -/
def number (n : Nat) (s : List Bool) : Option (Nat × List Bool) :=
  if n ≤ s.length then some (lsbFirst (s.take n), s.drop n) else none

/-- Some bytes. -/
def octets : Nat → List Bool → Option (List UInt8 × List Bool)
  | 0, s => some ([], s)
  | n + 1, s => do
      let (b, s) ← number 8 s
      let (bytes, s) ← octets n s
      some (b.toUInt8 :: bytes, s)

/-! ### Fixed codes -/

/-- The code of a literal or length symbol, the highest bit first. -/
def code (symbol : Nat) : List Bool :=
  if symbol ≤ 143 then (bits 8 (0x30 + symbol)).reverse
  else if symbol ≤ 255 then (bits 9 (0x190 + (symbol - 144))).reverse
  else if symbol ≤ 279 then (bits 7 (symbol - 256)).reverse
  else (bits 8 (0xC0 + (symbol - 280))).reverse

/-- The code of a distance symbol. -/
def distCode (symbol : Nat) : List Bool := (bits 5 symbol).reverse

/-- A literal or length symbol. -/
def symbol (s : List Bool) : Option (Nat × List Bool) :=
  if s.length < 7 then none
  else if msbFirst (s.take 7) < 24 then some (256 + msbFirst (s.take 7), s.drop 7)
  else if s.length < 8 then none
  else if msbFirst (s.take 8) < 0xC0 then some (msbFirst (s.take 8) - 0x30, s.drop 8)
  else if msbFirst (s.take 8) < 0xC8 then some (280 + (msbFirst (s.take 8) - 0xC0), s.drop 8)
  else if s.length < 9 then none
  else some (144 + (msbFirst (s.take 9) - 0x190), s.drop 9)

/-- A distance symbol. -/
def distSymbol (s : List Bool) : Option (Nat × List Bool) :=
  if s.length < 5 then none else some (msbFirst (s.take 5), s.drop 5)

def lengthBase : List Nat :=
  [3, 4, 5, 6, 7, 8, 9, 10, 11, 13, 15, 17, 19, 23, 27, 31, 35, 43, 51, 59, 67, 83, 99, 115, 131,
    163, 195, 227, 258]

def lengthExtra : List Nat :=
  [0, 0, 0, 0, 0, 0, 0, 0, 1, 1, 1, 1, 2, 2, 2, 2, 3, 3, 3, 3, 4, 4, 4, 4, 5, 5, 5, 5, 0]

def distBase : List Nat :=
  [1, 2, 3, 4, 5, 7, 9, 13, 17, 25, 33, 49, 65, 97, 129, 193, 257, 385, 513, 769, 1025, 1537, 2049,
    3073, 4097, 6145, 8193, 12289, 16385, 24577]

def distExtra : List Nat :=
  [0, 0, 0, 0, 1, 1, 2, 2, 3, 3, 4, 4, 5, 5, 6, 6, 7, 7, 8, 8, 9, 9, 10, 10, 11, 11, 12, 12, 13, 13]

/-- A symbol of one of these tables, with its extra bits. -/
def withExtra (base extra : List Nat) (symbol : Nat) (s : List Bool) :
    Option (Nat × List Bool) := do
  let b ← base[symbol]?
  let n ← extra[symbol]?
  let (e, s) ← number n s
  some (b + e, s)

/-! ### Blocks -/

/-- `n` bytes again, from `distance` back on; they may be bytes of the copy. -/
def copyBack (out : List UInt8) (distance : Nat) : Nat → Option (List UInt8)
  | 0 => some out
  | n + 1 =>
      if distance = 0 ∨ out.length < distance then none
      else do
        let b ← out[out.length - distance]?
        copyBack (out ++ [b]) distance n

/-- The symbols of a block with the fixed codes, up to its end. -/
def fixed : (fuel : Nat) → List Bool → List UInt8 → Option (List UInt8 × List Bool)
  | 0, _, _ => none
  | fuel + 1, s, out => do
      let (n, s) ← symbol s
      if n < 256 then fixed fuel s (out ++ [n.toUInt8])
      else if n = 256 then some (out, s)
      else
        let (length, s) ← withExtra lengthBase lengthExtra (n - 257) s
        let (d, s) ← distSymbol s
        let (distance, s) ← withExtra distBase distExtra d s
        let out ← copyBack out distance length
        fixed fuel s out

/-- A stored block begins at a byte. -/
def stored (s : List Bool) (out : List UInt8) : Option (List UInt8 × List Bool) := do
  let (len, s) ← number 16 (s.drop (s.length % 8))
  let (nlen, s) ← number 16 s
  if len + nlen ≠ 65535 then none
  else
    let (bytes, s) ← octets len s
    some (out ++ bytes, s)

/-- The blocks, up to the last one. -/
def blocks : (fuel : Nat) → List Bool → List UInt8 → Option (List UInt8 × List Bool)
  | 0, _, _ => none
  | fuel + 1, s, out => do
      let (final, s) ← number 1 s
      let (type, s) ← number 2 s
      let (out, s) ←
        if type = 0 then stored s out
        else if type = 1 then fixed (s.length + 1) s out
        else none
      if final = 1 then some (out, s) else blocks fuel s out

/-! ### The format -/

/-- The bytes are added to `a`, and each of these sums to `b`. -/
def sumsFrom (s : Nat × Nat) (bytes : List UInt8) : Nat × Nat :=
  bytes.foldl (fun (a, b) x => (a + x.toNat, b + (a + x.toNat))) s

/-- The sums of the check value. -/
def sums (bytes : List UInt8) : Nat × Nat := sumsFrom (1, 0) bytes

/-- The check value. -/
def adler32 (bytes : List UInt8) : Nat :=
  (sums bytes).2 % 65521 * 65536 + (sums bytes).1 % 65521

/-- The bytes that are in the format. -/
def zlib (bytes : List UInt8) : Option (List UInt8) :=
  match bytes with
  | cmf :: flg :: rest =>
      if cmf.toNat % 16 ≠ 8 ∨ 7 < cmf.toNat / 16 ∨ (cmf.toNat * 256 + flg.toNat) % 31 ≠ 0 ∨
          flg.toNat / 32 % 2 = 1 then none
      else do
        let (out, s) ← blocks (8 * rest.length) (bitsOf rest) []
        let (check, s) ← octets 4 (s.drop (s.length % 8))
        if s ≠ [] ∨ BigEndian.value check ≠ adler32 out then none
        else some out
  | _ => none

/-! ### Reading bits -/

variable {n v fuel : Nat} {s p q : List Bool} {out bytes : List UInt8}

theorem some_bind {α β : Type} (a : α) (f : α → Option β) : (some a >>= f) = f a := rfl

theorem bitsOf_append (a b : List UInt8) : bitsOf (a ++ b) = bitsOf a ++ bitsOf b :=
  List.flatMap_append

theorem length_bitsOf (bytes : List UInt8) : (bitsOf bytes).length = 8 * bytes.length := by
  induction bytes with
  | nil => rfl
  | cons b bytes ih =>
      rw [bitsOf, List.flatMap_cons, List.length_append, length_bits, ← bitsOf, ih,
        List.length_cons]
      omega

/-- The bits of bytes that begin with those of `a` begin with `a`. -/
theorem bitsOf_eq_append {a : List UInt8} (h : bitsOf bytes = bitsOf a ++ s) :
    ∃ b, bytes = a ++ b ∧ bitsOf b = s := by
  induction a generalizing bytes with
  | nil => exact ⟨bytes, rfl, h⟩
  | cons x a ih =>
      cases bytes with
      | nil =>
          have hlen := congrArg List.length h
          rw [List.length_append, length_bitsOf, length_bitsOf, List.length_cons,
            List.length_nil] at hlen
          omega
      | cons y bytes =>
          simp only [bitsOf, List.flatMap_cons, List.append_assoc] at h
          obtain ⟨hbits, hrest⟩ := List.append_inj h (by rw [length_bits, length_bits])
          have hnum := congrArg lsbFirst hbits
          rw [lsbFirst_bits y.toNat_lt, lsbFirst_bits x.toNat_lt] at hnum
          obtain ⟨b, rfl, hb⟩ := ih hrest
          exact ⟨b, by rw [UInt8.toNat_inj.mp hnum]; rfl, hb⟩

/-- Two bytes, the low one first. -/
theorem bitsOf_word (w : UInt16) : bitsOf [w.toUInt8, (w >>> 8).toUInt8] = bits 16 w.toNat := by
  have hw := w.toNat_lt
  have hhigh : (w >>> 8).toUInt8.toNat = w.toNat / 256 := by
    rw [UInt16.toNat_toUInt8, UInt16.toNat_shiftRight, show (8 : UInt16).toNat % 16 = 8 by decide,
      Nat.shiftRight_eq_div_pow]
    exact Nat.mod_eq_of_lt (by omega)
  have hsplit := bits_append (n := 8) w.toUInt8.toNat_lt 8 (w.toNat / 256)
  rw [UInt16.toNat_toUInt8, Nat.mod_add_div] at hsplit
  rw [hsplit, ← hhigh, ← UInt16.toNat_toUInt8, bitsOf, List.flatMap_cons, List.flatMap_cons,
    List.flatMap_nil, List.append_nil]

theorem number_append (hlen : q.length = n) (s : List Bool) :
    number n (q ++ s) = some (lsbFirst q, s) := by
  rw [number, if_pos (by rw [List.length_append]; omega), List.take_left' hlen,
    List.drop_left' hlen]

theorem number_bits (h : v < 2 ^ n) (s : List Bool) : number n (bits n v ++ s) = some (v, s) := by
  rw [number_append (length_bits n v), lsbFirst_bits h]

theorem octets_bitsOf (bytes : List UInt8) (s : List Bool) :
    octets bytes.length (bitsOf bytes ++ s) = some (bytes, s) := by
  induction bytes with
  | nil => rfl
  | cons b bytes ih =>
      rw [List.length_cons, octets, bitsOf, List.flatMap_cons, List.append_assoc,
        number_bits b.toNat_lt, some_bind]
      dsimp only
      rw [← bitsOf, ih, some_bind]
      simp

/-! ### Sums -/

theorem sumsFrom_append (t : Nat × Nat) (a b : List UInt8) :
    sumsFrom t (a ++ b) = sumsFrom (sumsFrom t a) b :=
  List.foldl_append

/-- What the sums begin with is in them: `a` once, and once more for each byte. -/
theorem sumsFrom_eq (a b : Nat) (bytes : List UInt8) : sumsFrom (a, b) bytes =
    (a + (sumsFrom (0, 0) bytes).1, b + bytes.length * a + (sumsFrom (0, 0) bytes).2) := by
  induction bytes generalizing a b with
  | nil => simp [sumsFrom]
  | cons x bytes ih =>
      have hcons (t : Nat × Nat) : sumsFrom t (x :: bytes) =
          sumsFrom (t.1 + x.toNat, t.2 + (t.1 + x.toNat)) bytes := rfl
      rw [hcons, hcons, ih, ih (0 + x.toNat)]
      apply Prod.ext
      · simp only
        ring
      · simp only [List.length_cons]
        ring

/-- Sums of remainders have the remainders of the sums. -/
theorem sumsFrom_mod (m a b : Nat) (bytes : List UInt8) :
    (sumsFrom (a % m, b % m) bytes).1 % m = (sumsFrom (a, b) bytes).1 % m ∧
      (sumsFrom (a % m, b % m) bytes).2 % m = (sumsFrom (a, b) bytes).2 % m := by
  rw [sumsFrom_eq, sumsFrom_eq a b]
  constructor
  · exact Nat.mod_add_mod a m _
  · have hb := Nat.mod_add_mod b m (bytes.length * (a % m))
    rw [Nat.add_mod (b % m + _), hb, Nat.add_mod b, Nat.mul_mod, Nat.mod_mod, ← Nat.mul_mod,
      ← Nat.add_mod b, ← Nat.add_mod]

/-- The sums of `n` bytes. -/
theorem sumsFrom_le (a b : Nat) (bytes : List UInt8) :
    (sumsFrom (a, b) bytes).1 ≤ a + 255 * bytes.length ∧
      2 * (sumsFrom (a, b) bytes).2 ≤
        2 * b + 2 * (bytes.length * a) + 255 * (bytes.length * (bytes.length + 1)) := by
  induction bytes generalizing a b with
  | nil => simp [sumsFrom]
  | cons x bytes ih =>
      have hx := x.toNat_lt
      obtain ⟨hfst, hsnd⟩ := ih (a + x.toNat) (b + (a + x.toNat))
      have hcons : sumsFrom (a, b) (x :: bytes) =
          sumsFrom (a + x.toNat, b + (a + x.toNat)) bytes := rfl
      have hmul : bytes.length * x.toNat ≤ bytes.length * 255 := Nat.mul_le_mul_left _ (by omega)
      rw [hcons, List.length_cons]
      constructor
      · omega
      · have h1 : bytes.length * (a + x.toNat) = bytes.length * a + bytes.length * x.toNat := by
          ring
        have h2 : (bytes.length + 1) * a = bytes.length * a + a := by ring
        have h3 : (bytes.length + 1) * (bytes.length + 1 + 1) =
            bytes.length * (bytes.length + 1) + 2 * bytes.length + 2 := by ring
        omega

/-! ### Reading symbols -/

/-- The codes, bit by bit: none is the start of another. -/
theorem code_cases : ∀ n < 288,
    (n ≤ 143 ∧ (code n).length = 8 ∧ 24 ≤ msbFirst ((code n).take 7) ∧
      msbFirst (code n) = 0x30 + n) ∨
    (144 ≤ n ∧ n ≤ 255 ∧ (code n).length = 9 ∧ 24 ≤ msbFirst ((code n).take 7) ∧
      0xC8 ≤ msbFirst ((code n).take 8) ∧ msbFirst (code n) = 0x190 + (n - 144)) ∨
    (256 ≤ n ∧ n ≤ 279 ∧ (code n).length = 7 ∧ msbFirst (code n) = n - 256) ∨
    (280 ≤ n ∧ (code n).length = 8 ∧ 24 ≤ msbFirst ((code n).take 7) ∧
      msbFirst (code n) = 0xC0 + (n - 280)) := by
  decide +kernel

theorem length_code (h : n < 288) : 7 ≤ (code n).length := by
  rcases code_cases n h with h | h | h | h <;> omega

/-- **A symbol is read back from its code.** -/
theorem symbol_code (h : n < 288) (s : List Bool) : symbol (code n ++ s) = some (n, s) := by
  have htake {k : Nat} (hk : k ≤ (code n).length) : (code n ++ s).take k = (code n).take k :=
    List.take_append_of_le_length hk
  rw [symbol, List.length_append]
  rcases code_cases n h with ⟨hn, hlen, h7, hv⟩ | ⟨hlo, hn, hlen, h7, h8, hv⟩ |
    ⟨hlo, hn, hlen, hv⟩ | ⟨hlo, hlen, h7, hv⟩
  · have hall : (code n ++ s).take 8 = code n := List.take_left' hlen
    rw [if_neg (by omega), htake (by omega), if_neg (by omega), if_neg (by omega), hall,
      if_pos (by omega), List.drop_left' hlen, hv, Nat.add_sub_cancel_left]
  · have hall : (code n ++ s).take 9 = code n := List.take_left' hlen
    rw [if_neg (by omega), htake (by omega), if_neg (by omega), if_neg (by omega),
      htake (k := 8) (by omega), if_neg (by omega), if_neg (by omega), if_neg (by omega), hall,
      List.drop_left' hlen, hv, Nat.add_sub_cancel_left, Nat.add_sub_cancel' hlo]
  · have hall : (code n ++ s).take 7 = code n := List.take_left' hlen
    rw [if_neg (by omega), hall, if_pos (by omega), List.drop_left' hlen, hv,
      Nat.add_sub_cancel' hlo]
  · have hall : (code n ++ s).take 8 = code n := List.take_left' hlen
    rw [if_neg (by omega), htake (by omega), if_neg (by omega), if_neg (by omega), hall,
      if_neg (by omega), if_pos (by omega), List.drop_left' hlen, hv, Nat.add_sub_cancel_left,
      Nat.add_sub_cancel' hlo]

theorem distSymbol_code (h : n < 32) (s : List Bool) :
    distSymbol (distCode n ++ s) = some (n, s) := by
  have hlen : (distCode n).length = 5 := by rw [distCode, List.length_reverse, length_bits]
  rw [distSymbol, if_neg (by rw [List.length_append]; omega), List.take_left' hlen,
    List.drop_left' hlen, msbFirst, distCode, List.reverse_reverse, lsbFirst_bits h]

/-- A number from a table is read back from its symbol and the rest above its base. -/
theorem withExtra_bits {base extra : List Nat} {j b e : Nat} (hbase : base[j]? = some b)
    (hextra : extra[j]? = some e) (h : v < 2 ^ e) (s : List Bool) :
    withExtra base extra j (bits e v ++ s) = some (b + v, s) := by
  rw [withExtra, hbase, hextra]
  simp only [some_bind, number_bits h]

/-! ### Copies -/

/-- **A copy of what comes next** makes the next bytes: `data` repeats itself from `p` on. -/
theorem copyBack_take {data : List UInt8} {i d : Nat} (hd : 0 < d) (hdi : d ≤ i) (n : Nat) :
    ∀ {k : Nat}, i + k + n ≤ data.length →
      (∀ m < k + n, data[i - d + m]? = data[i + m]?) →
      copyBack (data.take (i + k)) d n = some (data.take (i + k + n)) := by
  induction n with
  | zero => intro k _ _; rfl
  | succ n ih =>
      intro k hle hsame
      have hlen : (data.take (i + k)).length = i + k := by
        rw [List.length_take]
        omega
      have hlt : i + k < data.length := by omega
      have hbyte : (data.take (i + k))[i + k - d]? = some data[i + k] := by
        rw [List.getElem?_take_of_lt (by omega), show i + k - d = i - d + k by omega,
          hsame k (by omega), List.getElem?_eq_getElem hlt]
      rw [copyBack, if_neg (by omega), hlen, hbyte, some_bind,
        ← List.take_succ_eq_append_getElem hlt]
      have hrest := ih (k := k + 1) (by omega) fun m hm => hsame m (by omega)
      rw [← Nat.add_assoc] at hrest
      rw [hrest, show i + k + 1 + n = i + k + (n + 1) by omega]

/-! ### What a block is made of -/

/-- The bits are codes of `m` symbols, which make the bytes `out`. -/
structure Decodes (q : List Bool) (m : Nat) (out : List UInt8) : Prop where
  le : m ≤ q.length
  run : ∀ (fuel : Nat) (s : List Bool), fixed (m + fuel) (q ++ s) [] = fixed fuel s out

variable {m : Nat}

theorem Decodes.nil : Decodes [] 0 [] :=
  ⟨Nat.le_refl 0, fun fuel s => by rw [Nat.zero_add, List.nil_append]⟩

/-- A byte as it is. -/
theorem Decodes.literal (h : Decodes q m out) (b : UInt8) :
    Decodes (q ++ code b.toNat) (m + 1) (out ++ [b]) := by
  have hb : b.toNat < 288 := Nat.lt_trans b.toNat_lt (by decide)
  refine ⟨?_, fun fuel s => ?_⟩
  · have hle := h.le
    have hlen := length_code hb
    rw [List.length_append]
    omega
  · rw [List.append_assoc, Nat.add_right_comm, Nat.add_assoc, h.run, fixed, symbol_code hb,
      some_bind]
    dsimp only
    rw [if_pos b.toNat_lt]
    simp

/-- A copy of `length` bytes from `distance` back. -/
theorem Decodes.copy (h : Decodes q m out) {out' : List UInt8} {j k lb le db de lx dx : Nat}
    (hj : j < 29) (hlb : lengthBase[j]? = some lb) (hle : lengthExtra[j]? = some le)
    (hlx : lx < 2 ^ le) (hk : k < 30) (hdb : distBase[k]? = some db) (hde : distExtra[k]? = some de)
    (hdx : dx < 2 ^ de) (hcopy : copyBack out (db + dx) (lb + lx) = some out') :
    Decodes (q ++ (code (257 + j) ++ (bits le lx ++ (distCode k ++ bits de dx)))) (m + 1) out' := by
  refine ⟨?_, fun fuel s => ?_⟩
  · have hm := h.le
    have hlen := length_code (show 257 + j < 288 by omega)
    rw [List.length_append, List.length_append]
    omega
  · rw [List.append_assoc, Nat.add_right_comm, Nat.add_assoc, h.run, fixed]
    simp only [List.append_assoc]
    rw [symbol_code (by omega), some_bind]
    dsimp only
    rw [if_neg (by omega), if_neg (by omega), Nat.add_sub_cancel_left, withExtra_bits hlb hle hlx,
      some_bind]
    dsimp only
    rw [distSymbol_code (by omega), some_bind]
    dsimp only
    rw [withExtra_bits hdb hde hdx, some_bind]
    dsimp only
    rw [hcopy, some_bind]

/-- **The end of a block.** -/
theorem Decodes.finish (h : Decodes q m out) (s : List Bool) (hfuel : m < fuel) :
    fixed fuel (q ++ (code 256 ++ s)) [] = some (out, s) := by
  obtain ⟨n, rfl⟩ : ∃ n, fuel = m + (n + 1) := ⟨fuel - m - 1, by omega⟩
  rw [h.run, fixed, symbol_code (by decide), some_bind]
  dsimp only
  rw [if_neg (by decide), if_pos rfl]

/-! ### Blocks -/

/-- A block with the fixed codes that is the only one. -/
theorem blocks_fixed (h : Decodes q m out) (s : List Bool) :
    blocks (fuel + 1) (bits 1 1 ++ (bits 2 1 ++ (q ++ (code 256 ++ s)))) [] = some (out, s) := by
  have hle := h.le
  rw [blocks, number_bits (by decide), some_bind]
  dsimp only
  rw [number_bits (by decide), some_bind]
  dsimp only
  rw [if_neg (by decide), if_pos rfl, h.finish s (by rw [List.length_append]; omega),
    some_bind]
  dsimp only
  rw [if_pos rfl]

/-- A stored block, of less than `2 ^ 16` bytes, from a byte on. -/
theorem blocks_stored (fuel final : Nat) (hfinal : final < 2) (bytes : List UInt8)
    (hbytes : bytes.length < 65536) (rest out head : List UInt8)
    (hhead : bitsOf head = bits 8 final ++
      (bits 16 bytes.length ++ bits 16 (65535 - bytes.length))) :
    blocks (fuel + 1) (bitsOf (head ++ (bytes ++ rest))) out =
      if final = 1 then some (out ++ bytes, bitsOf rest)
      else blocks fuel (bitsOf rest) (out ++ bytes) := by
  -- The three bits at the start, and the five that fill the byte.
  have hbyte : bits 8 final = bits 1 final ++ (bits 2 0 ++ bits 5 0) := by
    have hcases : final = 0 ∨ final = 1 := by omega
    rcases hcases with rfl | rfl <;> decide
  have halign (s : List Bool) (hs : s.length % 8 = 0) :
      (bits 5 0 ++ s).drop ((bits 5 0 ++ s).length % 8) = s := by
    rw [List.length_append, length_bits, show (5 + s.length) % 8 = 5 by omega]
    exact List.drop_left' (length_bits 5 0)
  have hround : (bits 16 bytes.length ++ (bits 16 (65535 - bytes.length) ++
      (bitsOf bytes ++ bitsOf rest))).length % 8 = 0 := by
    simp only [List.length_append, length_bits, length_bitsOf]
    omega
  rw [bitsOf_append, bitsOf_append, hhead, hbyte, blocks]
  simp only [List.append_assoc]
  rw [number_bits (by omega), some_bind]
  dsimp only
  rw [number_bits (by decide), some_bind]
  dsimp only
  rw [if_pos rfl, stored, halign _ hround, number_bits (by omega), some_bind]
  dsimp only
  rw [number_bits (by omega), some_bind]
  dsimp only
  rw [if_neg (by omega), octets_bitsOf, some_bind]
  rfl

end Inflate
