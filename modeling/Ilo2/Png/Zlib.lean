import Ilo2.Lib.Inflate
import Mathlib.Data.List.GetD

/-!
# Compression

`stbi_zlib_compress` of `stb_image_write.h`: positions of the data are kept in a hash table, and a
match in the last 32767 bytes is coded instead of its bytes, unless there is a better one at the
next byte.  The codes are the fixed ones; what does not get shorter is stored.

A pointer into the data is its index.

* `Holds.add`, `Holds.huff` - what the bit buffer and the bytes before it hold.
* `findBest_spec` - a match that is found repeats the data.
* `written_compressLoop` - the codes that are written decode to the data.
* `zlib_stbiZlibCompress` - **the compressed data is the data**.
* `length_stbiZlibCompress` - it is hardly longer than the data.
* `length_zlibCodes` - no byte takes more than nine bits.
* `zlib_compress` - **below 256 megabytes no `int` overflows**, and the compressed data is the data.
-/

namespace Ilo2.Png

open Bitstring Inflate

/-! ### The bit buffer -/

/-- `out`, `bitbuf` and `bitcount`. -/
structure BitBuf where
  out : List UInt8 := []
  bitbuf : UInt32 := 0
  bitcount : Nat := 0
deriving DecidableEq

/-- `stbiw__zlib_flushf`. -/
def zlibFlushf (w : BitBuf) : BitBuf :=
  if 8 ≤ w.bitcount then
    zlibFlushf
      { out := w.out ++ [w.bitbuf.toUInt8], bitbuf := w.bitbuf >>> 8, bitcount := w.bitcount - 8 }
  else w
termination_by w.bitcount

/-- `stbiw__zlib_bitrev`. -/
def zlibBitrev (code codebits : Nat) : Nat := go 0 code codebits
where
  go (res code : Nat) : Nat → Nat
    | 0 => res
    | codebits + 1 => go (res <<< 1 ||| (code &&& 1)) (code >>> 1) codebits

/-- `stbiw__zlib_add`. -/
def zlibAdd (code codebits : Nat) (w : BitBuf) : BitBuf :=
  zlibFlushf
    { w with
      bitbuf := w.bitbuf ||| code.toUInt32 <<< w.bitcount.toUInt32
      bitcount := w.bitcount + codebits }

/-- `stbiw__zlib_huffa`. -/
def zlibHuffa (b c : Nat) : BitBuf → BitBuf := zlibAdd (zlibBitrev b c) c

/-- `stbiw__zlib_huff`. -/
def zlibHuff (n : Nat) : BitBuf → BitBuf :=
  if n ≤ 143 then zlibHuffa (0x30 + n) 8
  else if n ≤ 255 then zlibHuffa (0x190 + n - 144) 9
  else if n ≤ 279 then zlibHuffa (0 + n - 256) 7
  else zlibHuffa (0xC0 + n - 280) 8

/-- `stbiw__zlib_huffb`. -/
def zlibHuffb (b : UInt8) : BitBuf → BitBuf :=
  if b.toNat ≤ 143 then zlibHuffa (0x30 + b.toNat) 8 else zlibHuffa (0x190 + b.toNat - 144) 9

/-! ### Matches -/

/-- `stbiw__zlib_countm`: how many bytes are the same from `a` and from `b` on. -/
def zlibCountm (data : List UInt8) (a b limit : Nat) : Nat := go 258 0
where
  go : (rounds i : Nat) → Nat
    | 0, i => i
    | rounds + 1, i =>
        if i < limit then
          if data[a + i]? ≠ data[b + i]? then i else go rounds (i + 1)
        else i

/-- `stbiw__zhash`. -/
def zhash (data : List UInt8) (i : Nat) : UInt32 :=
  let byte (k : Nat) : UInt32 := (data.getD (i + k) 0).toUInt32
  let hash := byte 0 + byte 1 <<< 8 + byte 2 <<< 16
  let hash := hash ^^^ hash <<< 3
  let hash := hash + hash >>> 5
  let hash := hash ^^^ hash <<< 4
  let hash := hash + hash >>> 17
  let hash := hash ^^^ hash <<< 25
  hash + hash >>> 6

def ZHASH : Nat := 16384

/-- The positions with each hash. -/
abbrev HashTable := Vector (List Nat) ZHASH

def hashIndex (data : List UInt8) (i : Nat) : Fin ZHASH :=
  ⟨(zhash data i).toNat &&& (ZHASH - 1), Nat.lt_of_le_of_lt Nat.and_le_right (by decide)⟩

/-- The loop over `hlist` that looks for the longest match; the last one of that length counts. -/
def findBest (data : List UInt8) (i : Nat) (hlist : List Nat) : Nat × Option Nat :=
  hlist.foldl (fun (best, bestloc) p =>
    if p + 32768 > i then
      let d := zlibCountm data p i (data.length - i)
      if d ≥ best then (d, some p) else (best, bestloc)
    else (best, bestloc)) (3, none)

/-- The loop that looks for a better match at the next byte. -/
def nextIsBetter (data : List UInt8) (i best : Nat) (hlist : List Nat) : Bool :=
  hlist.any fun p =>
    p + 32767 > i ∧ zlibCountm data p (i + 1) (data.length - i - 1) > best

def lengthc : List Nat :=
  [3, 4, 5, 6, 7, 8, 9, 10, 11, 13, 15, 17, 19, 23, 27, 31, 35, 43, 51, 59, 67, 83, 99, 115, 131,
    163, 195, 227, 258, 259]

def lengtheb : List Nat :=
  [0, 0, 0, 0, 0, 0, 0, 0, 1, 1, 1, 1, 2, 2, 2, 2, 3, 3, 3, 3, 4, 4, 4, 4, 5, 5, 5, 5, 0]

def distc : List Nat :=
  [1, 2, 3, 4, 5, 7, 9, 13, 17, 25, 33, 49, 65, 97, 129, 193, 257, 385, 513, 769, 1025, 1537, 2049,
    3073, 4097, 6145, 8193, 12289, 16385, 24577, 32768]

def disteb : List Nat :=
  [0, 0, 0, 0, 1, 1, 2, 2, 3, 3, 4, 4, 5, 5, 6, 6, 7, 7, 8, 8, 9, 9, 10, 10, 11, 11, 12, 12, 13, 13]

/-- `for (j=0; x > c[j+1]-1; ++j);` -/
def codeIndex (c : List Nat) (x : Nat) : Nat := c.tail.findIdx fun next => ¬ x > next - 1

/-- The codes of a match of `best` bytes, `d` back. -/
def putMatch (best d : Nat) (w : BitBuf) : BitBuf :=
  let j := codeIndex lengthc best
  let w := zlibHuff (j + 257) w
  let w := if lengtheb.getD j 0 ≠ 0 then
    zlibAdd (best - lengthc.getD j 0) (lengtheb.getD j 0) w else w
  let j := codeIndex distc d
  let w := zlibAdd (zlibBitrev j 5) 5 w
  if disteb.getD j 0 ≠ 0 then zlibAdd (d - distc.getD j 0) (disteb.getD j 0) w else w

/-- A match is at least as long as the shortest one that is looked for. -/
theorem three_le_findBest (data : List UInt8) (i : Nat) (hlist : List Nat) :
    3 ≤ (findBest data i hlist).1 := by
  have hfold : ∀ (l : List Nat) (s : Nat × Option Nat), 3 ≤ s.1 → 3 ≤ (l.foldl
      (fun (best, bestloc) p =>
        if p + 32768 > i then
          let d := zlibCountm data p i (data.length - i)
          if d ≥ best then (d, some p) else (best, bestloc)
        else (best, bestloc)) s).1 := by
    intro l
    induction l with
    | nil => exact fun s hs => hs
    | cons p l ih =>
        intro s hs
        refine ih _ ?_
        dsimp only
        split
        · split
          · exact Nat.le_trans hs ‹_›
          · exact hs
        · exact hs
  exact hfold hlist (3, none) (Nat.le_refl 3)

/-- The main loop; it stops three bytes before the end. -/
def compressLoop (quality : Nat) (data : List UInt8) (i : Nat) (table : HashTable) (w : BitBuf) :
    Nat × BitBuf :=
  if i + 3 < data.length then
    let h := hashIndex data i
    let found := findBest data i (table.get h)
    -- When the entry is too long, half of it is deleted.
    let entry :=
      if (table.get h).length = 2 * quality then (table.get h).drop quality else table.get h
    let pushed := table.set h (entry ++ [i]) h.isLt
    match found.2 with
    | some loc =>
        if nextIsBetter data i found.1 (pushed.get (hashIndex data (i + 1))) then
          compressLoop quality data (i + 1) pushed (zlibHuffb (data.getD i 0) w)
        else compressLoop quality data (i + found.1) pushed (putMatch found.1 (i - loc) w)
    | none => compressLoop quality data (i + 1) pushed (zlibHuffb (data.getD i 0) w)
  else (i, w)
termination_by data.length - i
decreasing_by
  · omega
  · have hle := three_le_findBest data i (table.get (hashIndex data i))
    have hpos := Nat.lt_of_lt_of_le (show 0 < 3 by decide) hle
    exact Nat.sub_lt_sub_left (by omega) (Nat.lt_add_of_pos_right hpos)
  · omega

/-- `while (bitcount) stbiw__zlib_add(0,1);`, at most eight times. -/
def zlibPad : (rounds : Nat) → BitBuf → BitBuf
  | 0, w => w
  | rounds + 1, w => if w.bitcount = 0 then w else zlibPad rounds (zlibAdd 0 1 w)

/-! ### The format -/

/-- The loop that stores the data. -/
def storeLoop (data : List UInt8) (j : Nat) (out : List UInt8) : List UInt8 :=
  if j < data.length then
    let blocklen := if data.length - j > 32767 then 32767 else data.length - j
    let last : UInt8 := if data.length - j = blocklen then 1 else 0
    let len : UInt16 := blocklen.toUInt16
    storeLoop data (j + blocklen)
      (out ++ [last, len.toUInt8, (len >>> 8).toUInt8, (~~~len).toUInt8, (~~~len >>> 8).toUInt8] ++
        (data.drop j).take blocklen)
  else out
termination_by data.length - j
decreasing_by
  split <;> omega

/-- The loop that computes the check value. -/
def adlerLoop (data : List UInt8) (j blocklen : Nat) (s : UInt32 × UInt32) : UInt32 × UInt32 :=
  if j < data.length then
    let (s1, s2) := ((data.drop j).take blocklen).foldl
      (fun (s1, s2) x => (s1 + x.toUInt32, s2 + (s1 + x.toUInt32))) s
    adlerLoop data (j + blocklen) 5552 (s1 % 65521, s2 % 65521)
  else s
termination_by (data.length - j, 5552 - blocklen)
decreasing_by
  rcases Nat.eq_zero_or_pos blocklen with h | h
  · subst h
    exact Prod.Lex.right _ (by omega)
  · exact Prod.Lex.left _ _ (by omega)

/-- The two bytes and the three bits before the codes. -/
def zlibHead : BitBuf := zlibAdd 1 2 (zlibAdd 1 1 { out := [0x78, 0x5E] })

/-- `stbi_zlib_compress` up to the padding. -/
def zlibCodes (data : List UInt8) (quality : Nat) : List UInt8 :=
  let quality := if quality < 5 then 5 else quality
  let (i, w) := compressLoop quality data 0 (Vector.replicate ZHASH []) zlibHead
  let w := (data.drop i).foldl (fun w b => zlibHuffb b w) w
  (zlibPad 8 (zlibHuff 256 w)).out

/-- `stbi_zlib_compress`. -/
def stbiZlibCompress (data : List UInt8) (quality : Nat) : List UInt8 :=
  let out := zlibCodes data quality
  -- Stored instead, if compression was worse.
  let out := if out.length > data.length + 2 + (data.length + 32766) / 32767 * 5 then
    storeLoop data 0 (out.take 2) else out
  let (s1, s2) := adlerLoop data 0 (data.length % 5552) (1, 0)
  out ++ [(s2 >>> 8).toUInt8, s2.toUInt8, (s1 >>> 8).toUInt8, s1.toUInt8]

/-! ### What the bit buffer holds -/

/-- The bits in the bytes and in the buffer are `q`. -/
structure Holds (w : BitBuf) (q : List Bool) : Prop where
  lt : w.bitcount < 8
  small : w.bitbuf.toNat < 2 ^ w.bitcount
  holds : bitsOf w.out ++ bits w.bitcount w.bitbuf.toNat = q

variable {w : BitBuf} {q : List Bool} {n c : Nat}

theorem Holds.bitcount_eq (h : Holds w q) : w.bitcount = q.length % 8 := by
  have hlt := h.lt
  rw [← h.holds, List.length_append, length_bitsOf, length_bits]
  omega

/-- Whole bytes leave the buffer. -/
theorem holds_flushf (hsmall : w.bitbuf.toNat < 2 ^ w.bitcount) :
    Holds (zlibFlushf w) (bitsOf w.out ++ bits w.bitcount w.bitbuf.toNat) := by
  induction hcount : w.bitcount using Nat.strong_induction_on generalizing w with
  | _ k ih =>
    rw [zlibFlushf]
    split
    case isFalse hlt => exact ⟨by omega, hsmall, by rw [hcount]⟩
    case isTrue hge =>
      have hshift : (w.bitbuf >>> 8).toNat = w.bitbuf.toNat / 256 := by
        rw [UInt32.toNat_shiftRight]
        exact Nat.shiftRight_eq_div_pow _ _
      have hpow : 2 ^ w.bitcount = 2 ^ (w.bitcount - 8) * 256 := by
        rw [← Nat.pow_add _ _ 8, Nat.sub_add_cancel hge]
      have hrest := ih (w.bitcount - 8) (by omega)
        (w := { out := w.out ++ [w.bitbuf.toUInt8], bitbuf := w.bitbuf >>> 8,
                bitcount := w.bitcount - 8 })
        (by dsimp only; rw [hshift]; omega) rfl
      -- The lowest eight bits are the byte.
      have hbyte : bits k w.bitbuf.toNat =
          bits 8 w.bitbuf.toUInt8.toNat ++ bits (w.bitcount - 8) (w.bitbuf.toNat / 256) := by
        rw [← bits_append w.bitbuf.toUInt8.toNat_lt, UInt32.toNat_toUInt8, Nat.mod_add_div,
          Nat.add_sub_cancel' hge, hcount]
      dsimp only at hrest
      rw [bitsOf_append, hshift, List.append_assoc] at hrest
      rw [hbyte]
      exact hrest

/-- **A code is added** behind what is there. -/
theorem Holds.add (h : Holds w q) {code : Nat} (hc : c ≤ 24) (hcode : code < 2 ^ c) :
    Holds (zlibAdd code c w) (q ++ bits c code) := by
  have hlt := h.lt
  have hsmall := h.small
  have hroom : code * 2 ^ w.bitcount < 2 ^ (w.bitcount + c) := by
    rw [Nat.pow_add, Nat.mul_comm]
    exact Nat.mul_lt_mul_of_pos_left hcode (Nat.two_pow_pos _)
  have hword : 2 ^ (w.bitcount + c) ≤ 2 ^ 31 := Nat.pow_le_pow_right (by decide) (by omega)
  have h24 : 2 ^ c ≤ 2 ^ 24 := Nat.pow_le_pow_right (by decide) hc
  have hcount : w.bitcount.toUInt32.toNat % 32 = w.bitcount := by
    rw [Nat.toUInt32, UInt32.toNat_ofNat']
    omega
  have hval : code.toUInt32.toNat = code := by
    rw [Nat.toUInt32, UInt32.toNat_ofNat']
    omega
  have hbuf : (w.bitbuf ||| code.toUInt32 <<< w.bitcount.toUInt32).toNat =
      w.bitbuf.toNat + 2 ^ w.bitcount * code := by
    rw [UInt32.toNat_or, UInt32.toNat_shiftLeft, hcount, hval, Nat.shiftLeft_eq,
      Nat.mod_eq_of_lt (by omega), Nat.or_comm, ← Nat.shiftLeft_eq,
      ← Nat.shiftLeft_add_eq_or_of_lt hsmall, Nat.shiftLeft_eq, Nat.add_comm, Nat.mul_comm]
  have hflush := holds_flushf (w := { w with
    bitbuf := w.bitbuf ||| code.toUInt32 <<< w.bitcount.toUInt32, bitcount := w.bitcount + c })
    (by
      dsimp only
      rw [hbuf, Nat.pow_add]
      calc w.bitbuf.toNat + 2 ^ w.bitcount * code < 2 ^ w.bitcount + 2 ^ w.bitcount * code :=
            Nat.add_lt_add_right hsmall _
        _ = 2 ^ w.bitcount * (code + 1) := by ring
        _ ≤ 2 ^ w.bitcount * 2 ^ c := Nat.mul_le_mul_left _ hcode)
  dsimp only at hflush
  rw [hbuf, bits_append hsmall, ← List.append_assoc, h.holds] at hflush
  exact hflush

theorem bitrev_go (n : Nat) : ∀ m res code, res < 2 ^ m →
    zlibBitrev.go res code n < 2 ^ (m + n) ∧
      bits (m + n) (zlibBitrev.go res code n) = (bits n code).reverse ++ bits m res := by
  induction n with
  | zero => exact fun m res code h => ⟨h, rfl⟩
  | succ n ih =>
      intro m res code h
      have hres : res <<< 1 ||| code &&& 1 = 2 * res + code % 2 := by
        rw [Nat.and_one_is_mod, ← Nat.shiftLeft_add_eq_or_of_lt (by omega), Nat.shiftLeft_eq]
        omega
      rw [zlibBitrev.go, hres, Nat.shiftRight_eq_div_pow, Nat.pow_one]
      obtain ⟨hlt, hbits⟩ := ih (m + 1) (2 * res + code % 2) (code / 2) (by
        rw [Nat.pow_succ]
        omega)
      rw [Nat.add_right_comm] at hlt hbits
      refine ⟨hlt, hbits.trans ?_⟩
      rw [bits, bits, List.reverse_cons, List.append_assoc,
        show (2 * res + code % 2) / 2 = res by omega,
        show (2 * res + code % 2) % 2 = code % 2 by omega, List.singleton_append]

/-- A code is put in with its highest bit first. -/
theorem Holds.huffa (h : Holds w q) (hc : c ≤ 24) (b : Nat) :
    Holds (zlibHuffa b c w) (q ++ (bits c b).reverse) := by
  obtain ⟨hlt, hbits⟩ := bitrev_go c 0 0 b Nat.one_pos
  rw [Nat.zero_add] at hlt hbits
  have hadd := h.add hc hlt
  rwa [hbits, show bits 0 0 = [] from rfl, List.append_nil] at hadd

/-- **A symbol** is put in with its code. -/
theorem Holds.huff (h : Holds w q) (n : Nat) : Holds (zlibHuff n w) (q ++ code n) := by
  unfold zlibHuff code
  split
  · exact h.huffa (by decide) _
  · split
    · rw [Nat.add_sub_assoc (by omega)]
      exact h.huffa (by decide) _
    · split
      · rw [Nat.zero_add]
        exact h.huffa (by decide) _
      · rw [Nat.add_sub_assoc (by omega)]
        exact h.huffa (by decide) _

theorem Holds.huffb (h : Holds w q) (b : UInt8) : Holds (zlibHuffb b w) (q ++ code b.toNat) := by
  have hb := b.toNat_lt
  have heq : zlibHuffb b w = zlibHuff b.toNat w := by
    unfold zlibHuffb zlibHuff
    split
    · rfl
    · rw [if_pos (by omega)]
  rw [heq]
  exact h.huff b.toNat

/-- Zeros fill the last byte. -/
theorem holds_zlibPad (rounds : Nat) : ∀ {w : BitBuf} {q : List Bool}, Holds w q →
    (8 - q.length % 8) % 8 ≤ rounds →
    bitsOf (zlibPad rounds w).out = q ++ List.replicate ((8 - q.length % 8) % 8) false := by
  induction rounds with
  | zero =>
      intro w q h hrounds
      have hcount := h.bitcount_eq
      have hzero : w.bitcount = 0 := by omega
      have hholds := h.holds
      rw [hzero, show bits 0 w.bitbuf.toNat = [] from rfl, List.append_nil] at hholds
      rw [zlibPad, hholds, show (8 - q.length % 8) % 8 = 0 by omega, List.replicate_zero,
        List.append_nil]
  | succ rounds ih =>
      intro w q h hrounds
      have hcount := h.bitcount_eq
      rw [zlibPad]
      split
      case isTrue hzero =>
        have hholds := h.holds
        rw [hzero, show bits 0 w.bitbuf.toNat = [] from rfl, List.append_nil] at hholds
        rw [hholds, show (8 - q.length % 8) % 8 = 0 by omega, List.replicate_zero, List.append_nil]
      case isFalse hpos =>
        have hadd : Holds (zlibAdd 0 1 w) (q ++ bits 1 0) := h.add (by decide) (by decide)
        have hlen : (q ++ bits 1 0).length = q.length + 1 := by
          rw [List.length_append, length_bits]
        have hk : (8 - q.length % 8) % 8 = (8 - (q.length + 1) % 8) % 8 + 1 := by omega
        have hrest := ih hadd (by rw [hlen]; omega)
        rw [hrest, hlen, hk, List.replicate_succ', ← List.replicate_succ', List.append_assoc]
        rfl

theorem Holds.pad (h : Holds w q) :
    ∃ k < 8, bitsOf (zlibPad 8 w).out = q ++ List.replicate k false :=
  ⟨_, Nat.mod_lt _ (by decide), holds_zlibPad 8 h (by omega)⟩

/-! ### What a match is -/

variable {data : List UInt8} {i best loc : Nat}

/-- The `best` bytes at `i` are those at `loc`, which is not too far back. -/
structure Repeats (data : List UInt8) (i best loc : Nat) : Prop where
  lt : loc < i
  near : i < loc + 32768
  le : best ≤ data.length - i
  max : best ≤ 258
  same : ∀ m < best, data[loc + m]? = data[i + m]?

theorem countm_go (data : List UInt8) (a b limit rounds : Nat) : ∀ k, k ≤ limit →
    (∀ m < k, data[a + m]? = data[b + m]?) →
    zlibCountm.go data a b limit rounds k ≤ limit ∧
      zlibCountm.go data a b limit rounds k ≤ k + rounds ∧
      ∀ m < zlibCountm.go data a b limit rounds k, data[a + m]? = data[b + m]? := by
  induction rounds with
  | zero => exact fun k hk hsame => ⟨hk, Nat.le_refl k, hsame⟩
  | succ rounds ih =>
      intro k hk hsame
      rw [zlibCountm.go]
      split
      case isFalse => exact ⟨hk, Nat.le_add_right k _, hsame⟩
      case isTrue hlt =>
        split
        case isTrue => exact ⟨hk, Nat.le_add_right k _, hsame⟩
        case isFalse heq =>
          have hsame' : ∀ m < k + 1, data[a + m]? = data[b + m]? := by
            intro m hm
            rcases Nat.lt_succ_iff_lt_or_eq.mp hm with hm | rfl
            · exact hsame m hm
            · exact Decidable.not_not.mp heq
          obtain ⟨hlimit, hrounds, hrest⟩ := ih (k + 1) hlt hsame'
          exact ⟨hlimit, by omega, hrest⟩

theorem repeats_countm (hlt : loc < i) (hnear : loc + 32768 > i) :
    Repeats data i (zlibCountm data loc i (data.length - i)) loc := by
  obtain ⟨hle, hmax, hsame⟩ := countm_go data loc i (data.length - i) 258 0 (Nat.zero_le _)
    fun m hm => absurd hm (Nat.not_lt_zero m)
  exact ⟨hlt, hnear, hle, hmax.trans_eq (Nat.zero_add 258), hsame⟩

/-- **A match that is found** repeats the data. -/
theorem findBest_spec {hlist : List Nat} (hlist_lt : ∀ p ∈ hlist, p < i)
    (h : (findBest data i hlist).2 = some loc) : Repeats data i (findBest data i hlist).1 loc := by
  refine List.foldlRecOn (motive := fun s : Nat × Option Nat =>
    ∀ loc, s.2 = some loc → Repeats data i s.1 loc) hlist _ ?_ ?_ loc h
  · exact fun loc hnone => nomatch hnone
  · intro s hs p hp loc
    dsimp only
    split
    case isFalse => exact hs loc
    case isTrue hnear =>
      split
      case isFalse => exact hs loc
      case isTrue =>
        intro heq
        rw [← Option.some.inj heq]
        exact repeats_countm (hlist_lt p hp) hnear

/-! ### Codes of a match -/

/-- The search in a table stops at the entry of `x`. -/
theorem codeIndex_spec {entries : List Nat} {x : Nat} (hpos : ∀ v ∈ entries, 0 < v)
    (hfirst : ∀ v ∈ entries.head?, v ≤ x) (hlast : ∃ v ∈ entries.tail, x < v) :
    ∃ (hj : codeIndex entries x + 1 < entries.length),
      entries[codeIndex entries x] ≤ x ∧ x < entries[codeIndex entries x + 1] := by
  cases entries with
  | nil =>
      obtain ⟨v, hv, -⟩ := hlast
      cases hv
  | cons first entries =>
      obtain ⟨v, hv, hx⟩ := hlast
      have hfound : codeIndex (first :: entries) x < entries.length :=
        List.findIdx_lt_length_of_exists ⟨v, hv, decide_eq_true (by omega)⟩
      have hentry : ∀ (k : Nat) (hk : k < (first :: entries).length),
          k = codeIndex (first :: entries) x → (first :: entries)[k] ≤ x := by
        intro k hk hj
        cases k with
        | zero => exact hfirst first rfl
        | succ k =>
            -- The entry before did not stop it.
            have hbefore := List.not_of_lt_findIdx
              (show k < entries.findIdx fun next => ¬ x > next - 1 from
                Nat.lt_of_lt_of_eq (Nat.lt_succ_self k) hj)
            simp only [decide_eq_false_iff_not, Decidable.not_not] at hbefore
            simp only [List.getElem_cons_succ]
            omega
      refine ⟨Nat.succ_lt_succ hfound, hentry _ (Nat.lt_succ_of_lt hfound) rfl, ?_⟩
      have hstop : (decide ¬ x > entries[codeIndex (first :: entries) x] - 1) = true :=
        List.findIdx_getElem (w := hfound)
      have hmem := hpos _ (List.mem_cons_of_mem first (List.getElem_mem hfound))
      have hle := of_decide_eq_true hstop
      simp only [List.getElem_cons_succ]
      omega

/-- The tables are those of the format, and the extra bits reach up to the next entry. -/
theorem length_tables : ∀ j < 29, lengthBase[j]? = some (lengthc.getD j 0) ∧
    lengthExtra[j]? = some (lengtheb.getD j 0) ∧ lengtheb.getD j 0 ≤ 24 ∧
    lengthc.getD (j + 1) 0 ≤ lengthc.getD j 0 + 2 ^ lengtheb.getD j 0 := by
  decide

theorem dist_tables : ∀ j < 30, distBase[j]? = some (distc.getD j 0) ∧
    distExtra[j]? = some (disteb.getD j 0) ∧ disteb.getD j 0 ≤ 24 ∧
    distc.getD (j + 1) 0 ≤ distc.getD j 0 + 2 ^ disteb.getD j 0 := by
  decide

/-- The entry of a length or of a distance. -/
theorem codeIndex_getD {c : List Nat} {x : Nat} (hpos : ∀ v ∈ c, 0 < v)
    (hfirst : ∀ v ∈ c.head?, v ≤ x) (hlast : ∃ v ∈ c.tail, x < v) :
    codeIndex c x + 1 < c.length ∧ c.getD (codeIndex c x) 0 ≤ x ∧
      x < c.getD (codeIndex c x + 1) 0 := by
  obtain ⟨hj, hle, hlt⟩ := codeIndex_spec hpos hfirst hlast
  refine ⟨hj, ?_, ?_⟩
  · rw [List.getD_eq_getElem c 0 (Nat.lt_of_succ_lt hj)]
    exact hle
  · rw [List.getD_eq_getElem c 0 hj]
    exact hlt

/-- Extra bits, when there are any. -/
theorem Holds.extra (h : Holds w q) {v e : Nat} (he : e ≤ 24) (hv : v < 2 ^ e) :
    Holds (if e ≠ 0 then zlibAdd v e w else w) (q ++ bits e v) := by
  split
  case isTrue => exact h.add he hv
  case isFalse hzero =>
    rw [Decidable.not_not.mp hzero, show bits 0 v = [] from rfl, List.append_nil]
    exact h

/-! ### The loop -/

/-- **The first `i` bytes are written**: what is behind `start` decodes to them. -/
def Written (data : List UInt8) (start : List Bool) (i : Nat) (w : BitBuf) : Prop :=
  ∃ q m, Holds w (start ++ q) ∧ Decodes q m (data.take i)

variable {start : List Bool}

theorem Written.literal (h : Written data start i w) (hi : i < data.length) :
    Written data start (i + 1) (zlibHuffb (data.getD i 0) w) := by
  obtain ⟨q, m, hholds, hdec⟩ := h
  have hb := hholds.huffb (data.getD i 0)
  rw [List.append_assoc] at hb
  refine ⟨_, m + 1, hb, ?_⟩
  rw [List.getD_eq_getElem data 0 hi, List.take_succ_eq_append_getElem hi]
  exact hdec.literal data[i]

theorem Written.copy (h : Written data start i w) (hmatch : Repeats data i best loc)
    (hbest : 3 ≤ best) : Written data start (i + best) (putMatch best (i - loc) w) := by
  obtain ⟨q, m, hholds, hdec⟩ := h
  have hlt := hmatch.lt
  have hnear := hmatch.near
  have hle := hmatch.le
  have hmax := hmatch.max
  obtain ⟨hj, hlc, hlc'⟩ := codeIndex_getD (c := lengthc) (x := best) (by decide)
    (fun v hv => by rw [← Option.some.inj hv]; exact hbest)
    ⟨259, by decide, Nat.lt_succ_of_le hmax⟩
  obtain ⟨hk, hdc, hdc'⟩ := codeIndex_getD (c := distc) (x := i - loc) (by decide)
    (fun v hv => by rw [← Option.some.inj hv]; omega) ⟨32768, by decide, by omega⟩
  obtain ⟨hlb, hleb, hle24, hlreach⟩ := length_tables _ (Nat.lt_of_succ_lt_succ hj)
  obtain ⟨hdb, hdeb, hde24, hdreach⟩ := dist_tables _ (Nat.lt_of_succ_lt_succ hk)
  -- The symbol and the bits of the length, then those of the distance.
  have hput := (((hholds.huff (codeIndex lengthc best + 257)).extra hle24
    (v := best - lengthc.getD (codeIndex lengthc best) 0) (by omega)).huffa (c := 5) (by decide)
    (codeIndex distc (i - loc))).extra hde24
    (v := i - loc - distc.getD (codeIndex distc (i - loc)) 0) (by omega)
  simp only [List.append_assoc] at hput
  have hcopy : copyBack (data.take i)
      (distc.getD (codeIndex distc (i - loc)) 0 +
        (i - loc - distc.getD (codeIndex distc (i - loc)) 0))
      (lengthc.getD (codeIndex lengthc best) 0 +
        (best - lengthc.getD (codeIndex lengthc best) 0)) = some (data.take (i + best)) := by
    rw [Nat.add_sub_cancel' hlc, Nat.add_sub_cancel' hdc]
    refine copyBack_take (by omega) (by omega) best (k := 0) (by omega) fun k hk => ?_
    rw [Nat.sub_sub_self (Nat.le_of_lt hlt)]
    exact hmatch.same k (by omega)
  have hstep := hdec.copy (Nat.lt_of_succ_lt_succ hj) hlb hleb (by omega)
    (Nat.lt_of_succ_lt_succ hk) hdb hdeb (by omega) hcopy
  rw [Nat.add_comm 257] at hstep
  exact ⟨_, m + 1, hput, hstep⟩

/-- Only positions before `i` are in the table. -/
def Before (table : HashTable) (i : Nat) : Prop :=
  ∀ (k : Nat) (hk : k < ZHASH), ∀ p ∈ table[k], p < i

variable {table : HashTable}

theorem Before.mono (h : Before table i) {i' : Nat} (hle : i ≤ i') : Before table i' :=
  fun k hk p hp => Nat.lt_of_lt_of_le (h k hk p hp) hle

theorem Before.get (h : Before table i) (k : Fin ZHASH) : ∀ p ∈ table.get k, p < i :=
  fun p hp => h k k.isLt p hp

/-- The positions that are left in an entry. -/
theorem Before.entry (h : Before table i) (k : Fin ZHASH) (quality : Nat) :
    ∀ p ∈ (if (table.get k).length = 2 * quality then (table.get k).drop quality
      else table.get k), p < i := by
  intro p hp
  split at hp
  · exact h.get k p (List.mem_of_mem_drop hp)
  · exact h.get k p hp

/-- `i` is put in. -/
theorem Before.push (h : Before table i) (k : Fin ZHASH) {entry : List Nat}
    (hentry : ∀ p ∈ entry, p < i) : Before (table.set k (entry ++ [i])) (i + 1) := by
  intro k' hk' p hp
  rw [Vector.getElem_set] at hp
  split at hp
  · rcases List.mem_append.mp hp with hp | hp
    · exact Nat.lt_succ_of_lt (hentry p hp)
    · rw [List.mem_singleton.mp hp]
      exact Nat.lt_succ_self i
  · exact Nat.lt_succ_of_lt (h k' hk' p hp)

/-- **The loop** writes the data up to where it stops. -/
theorem written_compressLoop (quality : Nat) (data : List UInt8) {start : List Bool} (i : Nat)
    (table : HashTable) (w : BitBuf) (htable : Before table i) (hi : i ≤ data.length)
    (h : Written data start i w) :
    (compressLoop quality data i table w).1 ≤ data.length ∧
      Written data start (compressLoop quality data i table w).1
        (compressLoop quality data i table w).2 := by
  induction hrest : data.length - i using Nat.strong_induction_on generalizing i table w with
  | _ n ih =>
    rw [compressLoop]
    split
    case isFalse => exact ⟨hi, h⟩
    case isTrue hlt =>
      dsimp only
      have hnext := htable.push (hashIndex data i) (htable.entry (hashIndex data i) quality)
      generalize table.set _ _ _ = pushed at hnext ⊢
      have hliteral := ih (data.length - (i + 1)) (by omega) (i + 1) _ _ hnext (by omega)
        (h.literal (by omega)) rfl
      split
      case h_2 => exact hliteral
      case h_1 loc hfound =>
        split
        case isTrue => exact hliteral
        case isFalse =>
          have hmatch : Repeats data i (findBest data i (table.get (hashIndex data i))).1 loc :=
            findBest_spec (htable.get (hashIndex data i)) hfound
          have hbest := three_le_findBest data i (table.get (hashIndex data i))
          have hle := hmatch.le
          exact ih _ (by omega) _ _ _ (hnext.mono (by omega)) (by omega) (h.copy hmatch hbest) rfl

/-! ### Blocks -/

/-- The last bytes. -/
theorem written_rest (n : Nat) : ∀ {i : Nat} {w : BitBuf}, data.length - i = n → i ≤ data.length →
    Written data start i w →
    Written data start data.length ((data.drop i).foldl (fun w b => zlibHuffb b w) w) := by
  induction n with
  | zero =>
      intro i w hn hi h
      rw [List.drop_eq_nil_of_le (by omega), show data.length = i by omega]
      exact h
  | succ n ih =>
      intro i w hn hi h
      have hlt : i < data.length := by omega
      have hstep := h.literal hlt
      rw [List.getD_eq_getElem data 0 hlt] at hstep
      rw [List.drop_eq_getElem_cons hlt, List.foldl_cons]
      exact ih (by omega) hlt hstep

/-- The bytes are blocks of `data`, with up to seven bits behind the last one. -/
def BlocksOf (data body : List UInt8) : Prop :=
  ∃ k < 8, ∀ fuel tail, body.length ≤ fuel → blocks fuel (bitsOf (body ++ tail)) [] =
    some (data, List.replicate k false ++ bitsOf tail)

/-- Before the first code. -/
theorem written_zlibHead (data : List UInt8) :
    Written data (bitsOf [0x78, 0x5E] ++ bits 1 1 ++ bits 2 1) 0 zlibHead := by
  have hinit : Holds { out := [0x78, 0x5E] } (bitsOf [0x78, 0x5E]) :=
    ⟨by decide, by decide, List.append_nil _⟩
  have hfinal : Holds (zlibAdd 1 1 { out := [0x78, 0x5E] }) (bitsOf [0x78, 0x5E] ++ bits 1 1) :=
    hinit.add (by decide) (by decide)
  have hstart : Holds zlibHead (bitsOf [0x78, 0x5E] ++ bits 1 1 ++ bits 2 1) :=
    hfinal.add (by decide) (by decide)
  rw [← List.append_nil (_ ++ _ ++ _)] at hstart
  exact ⟨[], 0, hstart, by rw [List.take_zero]; exact Decodes.nil⟩

/-- The whole loop, from the empty table. -/
theorem written_codes (quality : Nat) (data : List UInt8) :
    (compressLoop quality data 0 (Vector.replicate ZHASH []) zlibHead).1 ≤ data.length ∧
      Written data (bitsOf [0x78, 0x5E] ++ bits 1 1 ++ bits 2 1)
        (compressLoop quality data 0 (Vector.replicate ZHASH []) zlibHead).1
        (compressLoop quality data 0 (Vector.replicate ZHASH []) zlibHead).2 := by
  have htable : Before (Vector.replicate ZHASH []) 0 := by
    intro k hk p hp
    rw [Vector.getElem_replicate] at hp
    cases hp
  exact written_compressLoop quality data 0 _ _ htable (Nat.zero_le _) (written_zlibHead data)

/-- **One block with the fixed codes.** -/
theorem compressed_blocks (data : List UInt8) (quality : Nat) :
    ∃ body, zlibCodes data quality = [0x78, 0x5E] ++ body ∧ BlocksOf data body := by
  unfold zlibCodes
  dsimp only
  generalize (if quality < 5 then 5 else quality) = quality
  obtain ⟨hle, hloop⟩ := written_codes quality data
  obtain ⟨q, m, hholds, hdec⟩ := written_rest _ rfl hle hloop
  rw [List.take_length] at hdec
  have hend := hholds.huff 256
  obtain ⟨k, hk, hpad⟩ := hend.pad
  simp only [List.append_assoc] at hpad
  obtain ⟨body, hbody, hbits⟩ := bitsOf_eq_append hpad
  refine ⟨body, hbody, k, hk, fun fuel tail hfuel => ?_⟩
  have hpos : 0 < body.length := by
    have hlen := congrArg List.length hbits
    rw [length_bitsOf, List.length_append, length_bits] at hlen
    omega
  obtain ⟨fuel, rfl⟩ : ∃ n, fuel = n + 1 := ⟨fuel - 1, by omega⟩
  rw [bitsOf_append, hbits]
  simp only [List.append_assoc]
  exact blocks_fixed hdec _

/-- The five bytes before a stored block. -/
theorem storedHead (last : UInt8) {n : Nat} (hn : n < 65536) :
    bitsOf [last, n.toUInt16.toUInt8, (n.toUInt16 >>> 8).toUInt8, (~~~n.toUInt16).toUInt8,
      (~~~n.toUInt16 >>> 8).toUInt8] =
      bits 8 last.toNat ++ (bits 16 n ++ bits 16 (65535 - n)) := by
  have hval : n.toUInt16.toNat = n := by
    rw [Nat.toUInt16, UInt16.toNat_ofNat']
    exact Nat.mod_eq_of_lt hn
  have hlen := bitsOf_word n.toUInt16
  have hnlen := bitsOf_word (~~~n.toUInt16)
  rw [hval] at hlen
  rw [UInt16.toNat_not, hval] at hnlen
  rw [← hlen, show 65535 - n = UInt16.size - 1 - n from rfl, ← hnlen]
  simp only [bitsOf, List.flatMap_cons, List.flatMap_nil, List.append_nil, List.append_assoc]

/-- **Stored blocks.** -/
theorem blocks_storeLoop (data : List UInt8) (j : Nat) (out : List UInt8) (hj : j < data.length) :
    ∃ body, storeLoop data j out = out ++ body ∧
      ∀ fuel tail, body.length ≤ fuel → blocks fuel (bitsOf (body ++ tail)) (data.take j) =
        some (data, bitsOf tail) := by
  induction hrest : data.length - j using Nat.strong_induction_on generalizing j out with
  | _ n ih =>
    rw [storeLoop, if_pos hj]
    dsimp only
    generalize hlen : (if data.length - j > 32767 then 32767 else data.length - j) = blocklen
    have hblock : 0 < blocklen ∧ blocklen ≤ data.length - j ∧ blocklen ≤ 32767 := by
      rw [← hlen]
      split <;> omega
    obtain ⟨hpos, hle, hmax⟩ := hblock
    have htake : ((data.drop j).take blocklen).length = blocklen := by
      rw [List.length_take, List.length_drop, Nat.min_eq_left hle]
    have hjoin : data.take j ++ (data.drop j).take blocklen = data.take (j + blocklen) :=
      (List.take_add).symm
    by_cases hlast : data.length - j = blocklen
    · -- The last one.
      have hdone : storeLoop data (j + blocklen) = fun out => out := by
        funext out
        rw [storeLoop, if_neg (by omega)]
      rw [if_pos hlast, hdone]
      refine ⟨_, List.append_assoc _ _ _, fun fuel tail hfuel => ?_⟩
      rw [List.length_append, List.length_cons] at hfuel
      obtain ⟨fuel, rfl⟩ : ∃ n, fuel = n + 1 := ⟨fuel - 1, by omega⟩
      have hblock := blocks_stored fuel 1 (by decide) ((data.drop j).take blocklen) (by omega)
        tail (data.take j)
        [1, blocklen.toUInt16.toUInt8, (blocklen.toUInt16 >>> 8).toUInt8,
          (~~~blocklen.toUInt16).toUInt8, (~~~blocklen.toUInt16 >>> 8).toUInt8]
        (by rw [htake]; exact storedHead 1 (by omega))
      rw [List.append_assoc, hblock, if_pos rfl, hjoin, List.take_of_length_le (by omega)]
    · obtain ⟨body, hbody, hblocks⟩ := ih (data.length - (j + blocklen)) (by omega) (j + blocklen)
        (out ++ [0, blocklen.toUInt16.toUInt8, (blocklen.toUInt16 >>> 8).toUInt8,
          (~~~blocklen.toUInt16).toUInt8, (~~~blocklen.toUInt16 >>> 8).toUInt8] ++
          (data.drop j).take blocklen) (by omega) rfl
      rw [if_neg hlast, hbody]
      refine ⟨_, by rw [List.append_assoc, List.append_assoc], fun fuel tail hfuel => ?_⟩
      rw [List.length_append, List.length_cons, List.length_append] at hfuel
      obtain ⟨fuel, rfl⟩ : ∃ n, fuel = n + 1 := ⟨fuel - 1, by omega⟩
      have hblock := blocks_stored fuel 0 (by decide) ((data.drop j).take blocklen) (by omega)
        (body ++ tail) (data.take j)
        [0, blocklen.toUInt16.toUInt8, (blocklen.toUInt16 >>> 8).toUInt8,
          (~~~blocklen.toUInt16).toUInt8, (~~~blocklen.toUInt16 >>> 8).toUInt8]
        (by rw [htake]; exact storedHead 0 (by omega))
      rw [List.append_assoc, List.append_assoc, hblock, if_neg (by decide), hjoin]
      exact hblocks fuel tail (by omega)

/-! ### The check value -/

theorem toNat_toUInt32 (n : Nat) : n.toUInt32.toNat = n % 4294967296 := UInt32.toNat_ofNat'

/-- The sums in 32-bit words are the sums. -/
theorem foldl_sums (bytes : List UInt8) : ∀ a b : Nat,
    bytes.foldl (fun (s1, s2) x => (s1 + x.toUInt32, s2 + (s1 + x.toUInt32)))
      (a.toUInt32, b.toUInt32) =
        ((sumsFrom (a, b) bytes).1.toUInt32, (sumsFrom (a, b) bytes).2.toUInt32) := by
  induction bytes with
  | nil => exact fun a b => rfl
  | cons x bytes ih =>
      intro a b
      have hx : x.toUInt32 = x.toNat.toUInt32 := by
        apply UInt32.toNat_inj.mp
        have hlt := x.toNat_lt
        rw [UInt8.toNat_toUInt32, toNat_toUInt32]
        omega
      have hadd (m n : Nat) : m.toUInt32 + n.toUInt32 = (m + n).toUInt32 :=
        (UInt32.ofNat_add m n).symm
      rw [List.foldl_cons]
      dsimp only
      rw [hx, hadd, hadd, ih]
      rfl

/-- A sum that fits in a word. -/
theorem toUInt32_mod {a m : Nat} (ha : a < 4294967296) (hm : m < 4294967296) :
    a.toUInt32 % m.toUInt32 = (a % m).toUInt32 := by
  apply UInt32.toNat_inj.mp
  rw [UInt32.toNat_mod, toNat_toUInt32, toNat_toUInt32, toNat_toUInt32, Nat.mod_eq_of_lt ha,
    Nat.mod_eq_of_lt hm, Nat.mod_eq_of_lt (Nat.lt_of_le_of_lt (Nat.mod_le a m) ha)]

/-- The remainders of the sums of the first `j` bytes. -/
def adlerAt (data : List UInt8) (j : Nat) : UInt32 × UInt32 :=
  (((sums (data.take j)).1 % 65521).toUInt32, ((sums (data.take j)).2 % 65521).toUInt32)

/-- **A block of 5552 bytes** does not overflow. -/
theorem adlerLoop_step (data : List UInt8) {j blocklen : Nat} (hj : j < data.length)
    (hblock : blocklen ≤ 5552) : adlerLoop data j blocklen (adlerAt data j) =
      adlerLoop data (j + blocklen) 5552 (adlerAt data (j + blocklen)) := by
  have hlen : ((data.drop j).take blocklen).length ≤ 5552 := by
    rw [List.length_take]
    omega
  obtain ⟨hfst, hsnd⟩ := sumsFrom_le ((sums (data.take j)).1 % 65521)
    ((sums (data.take j)).2 % 65521) ((data.drop j).take blocklen)
  obtain ⟨hmod1, hmod2⟩ := sumsFrom_mod 65521 (sums (data.take j)).1 (sums (data.take j)).2
    ((data.drop j).take blocklen)
  have h1 : (sums (data.take j)).1 % 65521 ≤ 65520 := by omega
  have h2 : (sums (data.take j)).2 % 65521 ≤ 65520 := by omega
  have hmul := Nat.mul_le_mul hlen h1
  have hsquare := Nat.mul_le_mul hlen (Nat.succ_le_succ hlen)
  rw [Nat.succ_eq_add_one] at hsquare
  have hfits1 : (sumsFrom ((sums (data.take j)).1 % 65521, (sums (data.take j)).2 % 65521)
      ((data.drop j).take blocklen)).1 < 4294967296 := by omega
  have hfits2 : (sumsFrom ((sums (data.take j)).1 % 65521, (sums (data.take j)).2 % 65521)
      ((data.drop j).take blocklen)).2 < 4294967296 := by omega
  have hnext : sumsFrom ((sums (data.take j)).1, (sums (data.take j)).2)
      ((data.drop j).take blocklen) = sums (data.take (j + blocklen)) := by
    rw [sums, sums, List.take_add, sumsFrom_append]
  rw [adlerLoop, if_pos hj, adlerAt, foldl_sums]
  dsimp only
  rw [show (65521 : UInt32) = (65521 : Nat).toUInt32 from rfl, toUInt32_mod hfits1 (by decide),
    toUInt32_mod hfits2 (by decide), hmod1, hmod2, hnext]
  rfl

theorem adlerLoop_eq (data : List UInt8) (n : Nat) : ∀ {j blocklen : Nat}, data.length - j = n →
    0 < blocklen → blocklen ≤ 5552 →
    adlerLoop data j blocklen (adlerAt data j) = adlerAt data data.length := by
  induction n using Nat.strong_induction_on with
  | _ n ih =>
    intro j blocklen hn hpos hblock
    by_cases hj : j < data.length
    · rw [adlerLoop_step data hj hblock]
      exact ih (data.length - (j + blocklen)) (by omega) rfl (by decide) (by decide)
    · rw [adlerLoop, if_neg hj, adlerAt, adlerAt, List.take_length,
        List.take_of_length_le (Nat.le_of_not_lt hj)]

/-- **The check value** is that of the data. -/
theorem adlerLoop_data (data : List UInt8) :
    adlerLoop data 0 (data.length % 5552) (1, 0) = adlerAt data data.length := by
  have hinit : ((1, 0) : UInt32 × UInt32) = adlerAt data 0 := by
    rw [adlerAt, List.take_zero]
    rfl
  rw [hinit]
  rcases Nat.eq_zero_or_pos (data.length % 5552) with hzero | hpos
  · rw [hzero]
    rcases Nat.eq_zero_or_pos data.length with hnil | hdata
    · rw [adlerLoop, if_neg (by omega), hnil]
    · -- The first block is empty.
      rw [adlerLoop_step data hdata (by decide), Nat.add_zero]
      exact adlerLoop_eq data _ rfl (by decide) (by decide)
  · exact adlerLoop_eq data _ rfl hpos (by omega)

/-- The last four bytes. -/
theorem value_sums {s1 s2 : UInt32} (h1 : s1.toNat < 65536) (h2 : s2.toNat < 65536) :
    BigEndian.value [(s2 >>> 8).toUInt8, s2.toUInt8, (s1 >>> 8).toUInt8, s1.toUInt8] =
      s2.toNat * 65536 + s1.toNat := by
  have hbytes {w : UInt32} (hw : w.toNat < 65536) :
      (w >>> 8).toUInt8.toNat * 256 + w.toUInt8.toNat = w.toNat := by
    rw [UInt32.toNat_toUInt8, UInt32.toNat_toUInt8, UInt32.toNat_shiftRight,
      show (8 : UInt32).toNat % 32 = 8 by decide, Nat.shiftRight_eq_div_pow]
    omega
  have hlow := hbytes h1
  have hhigh := hbytes h2
  simp only [BigEndian.value, List.foldl_cons, List.foldl_nil]
  rw [← hlow, ← hhigh]
  ring

theorem value_adlerAt (data : List UInt8) {s1 s2 : UInt32}
    (h : adlerAt data data.length = (s1, s2)) :
    BigEndian.value [(s2 >>> 8).toUInt8, s2.toUInt8, (s1 >>> 8).toUInt8, s1.toUInt8] =
      adler32 data := by
  have hval (v : Nat) : (v % 65521).toUInt32.toNat = v % 65521 := by
    rw [toNat_toUInt32]
    omega
  have h1 : s1.toNat = (sums data).1 % 65521 := by
    rw [← hval, show s1 = (adlerAt data data.length).1 by rw [h], adlerAt, List.take_length]
  have h2 : s2.toNat = (sums data).2 % 65521 := by
    rw [← hval, show s2 = (adlerAt data data.length).2 by rw [h], adlerAt, List.take_length]
  rw [value_sums (by omega) (by omega), h1, h2, adler32]

/-! ### What is compressed -/

/-- A stream is read back from its blocks and the check value. -/
theorem zlib_blocks {data body check : List UInt8} (h : BlocksOf data body)
    (hlen : check.length = 4) (hcheck : BigEndian.value check = adler32 data) :
    Inflate.zlib (0x78 :: 0x5E :: (body ++ check)) = some data := by
  obtain ⟨k, hk, hblocks⟩ := h
  have hdrop : (List.replicate k false ++ bitsOf check).drop
      ((List.replicate k false ++ bitsOf check).length % 8) = bitsOf check := by
    rw [List.length_append, List.length_replicate, length_bitsOf,
      show (k + 8 * check.length) % 8 = k by omega]
    exact List.drop_left' List.length_replicate
  have hoctets := octets_bitsOf check []
  rw [hlen, List.append_nil] at hoctets
  have hfuel : body.length ≤ 8 * (body ++ check).length := by
    rw [List.length_append]
    omega
  rw [Inflate.zlib, if_neg (by decide), hblocks _ check hfuel, some_bind]
  dsimp only
  rw [hdrop, hoctets, some_bind]
  dsimp only
  rw [if_neg (by rw [hcheck]; simp)]

/-- **The compressed data is the data.**  Only of nothing there is no block. -/
theorem zlib_stbiZlibCompress (data : List UInt8) (quality : Nat) :
    Inflate.zlib (stbiZlibCompress data quality) = some data ↔ data ≠ [] := by
  constructor
  · rintro h rfl
    have hloop (q : Nat) (w : BitBuf) :
        compressLoop q [] 0 (Vector.replicate ZHASH []) w = (0, w) := by
      rw [compressLoop, if_neg (by decide)]
    have hstore (out : List UInt8) : storeLoop [] 0 out = out := by
      rw [storeLoop, if_neg (by decide)]
    have hadler : adlerLoop [] 0 0 (1, 0) = (1, 0) := by
      rw [adlerLoop, if_neg (by decide)]
    have hlong : (zlibPad 8 (zlibHuff 256 zlibHead)).out = [0x78, 0x5E, 3, 0] := by
      decide +kernel
    have hcodes : zlibCodes [] quality = [0x78, 0x5E, 3, 0] := by
      unfold zlibCodes
      simp only [hloop, List.drop_nil, List.foldl_nil, hlong]
    unfold stbiZlibCompress at h
    simp only [hcodes, List.length_nil, Nat.zero_mod, hadler, hstore] at h
    revert h
    decide +kernel
  · intro hdata
    unfold stbiZlibCompress
    obtain ⟨body, hout, hblocks⟩ := compressed_blocks data quality
    obtain ⟨stored, hstored, hread⟩ := blocks_storeLoop data 0 [0x78, 0x5E]
      (List.length_pos_iff.mpr hdata)
    dsimp only
    rw [hout, adlerLoop_data]
    split
    · have htake : ([0x78, 0x5E] ++ body : List UInt8).take 2 = [0x78, 0x5E] := rfl
      rw [htake, hstored]
      exact zlib_blocks ⟨0, by decide, hread⟩ rfl (value_adlerAt data rfl)
    · exact zlib_blocks hblocks rfl (value_adlerAt data rfl)

/-! ### How long it gets -/

theorem length_storeLoop (data : List UInt8) (j : Nat) (out : List UInt8) :
    (storeLoop data j out).length =
      out.length + (data.length - j) + (data.length - j + 32766) / 32767 * 5 := by
  induction hrest : data.length - j using Nat.strong_induction_on generalizing j out with
  | _ n ih =>
    rw [storeLoop]
    split
    case isFalse => omega
    case isTrue hj =>
      dsimp only
      generalize hlen : (if data.length - j > 32767 then 32767 else data.length - j) = blocklen
      rw [ih (data.length - (j + blocklen)) (by split at hlen <;> omega) _ _ rfl]
      simp only [List.length_append, List.length_cons, List.length_nil, List.length_take,
        List.length_drop]
      split at hlen <;> omega

/-- **No longer than stored**, with five bytes for each block and six for the format. -/
theorem length_stbiZlibCompress (data : List UInt8) (quality : Nat) :
    (stbiZlibCompress data quality).length ≤
      data.length + 6 + (data.length + 32766) / 32767 * 5 := by
  unfold stbiZlibCompress
  dsimp only
  generalize zlibCodes data quality = out
  rw [List.length_append, List.length_cons, List.length_cons, List.length_cons,
    List.length_singleton]
  split
  · have htake : (out.take 2).length ≤ 2 := List.length_take_le 2 out
    rw [length_storeLoop]
    omega
  · omega

/-- The bits that are in the bytes and in the buffer. -/
def BitBuf.size (w : BitBuf) : Nat := 8 * w.out.length + w.bitcount

@[simp] theorem size_zlibFlushf (w : BitBuf) : (zlibFlushf w).size = w.size := by
  induction hcount : w.bitcount using Nat.strong_induction_on generalizing w with
  | _ n ih =>
    rw [zlibFlushf]
    split
    case isFalse => rfl
    case isTrue hfull =>
      rw [ih (w.bitcount - 8) (by omega) _ rfl]
      simp only [BitBuf.size, List.length_append, List.length_singleton]
      omega

@[simp] theorem size_zlibAdd (code c : Nat) (w : BitBuf) :
    (zlibAdd code c w).size = w.size + c := by
  rw [zlibAdd, size_zlibFlushf]
  exact (Nat.add_assoc _ _ _).symm

/-- No symbol is longer than nine bits. -/
theorem size_zlibHuff (n : Nat) (w : BitBuf) : (zlibHuff n w).size ≤ w.size + 9 := by
  unfold zlibHuff
  split
  · simp [zlibHuffa]
  · split
    · simp [zlibHuffa]
    · split <;> simp [zlibHuffa]

theorem size_zlibHuffb (b : UInt8) (w : BitBuf) : (zlibHuffb b w).size ≤ w.size + 9 := by
  unfold zlibHuffb
  split <;> simp [zlibHuffa]

theorem getD_le {l : List Nat} {m : Nat} (h : ∀ v ∈ l, v ≤ m) (j : Nat) : l.getD j 0 ≤ m := by
  rcases Nat.lt_or_ge j l.length with hj | hj
  · rw [List.getD_eq_getElem l 0 hj]
    exact h _ (List.getElem_mem hj)
  · rw [List.getD_eq_default l 0 hj]
    exact Nat.zero_le m

/-- The codes of a match are no longer than those of its bytes. -/
theorem size_putMatch {best : Nat} (hbest : 3 ≤ best) (d : Nat) (w : BitBuf) :
    (putMatch best d w).size ≤ w.size + 9 * best := by
  have hlen : lengtheb.getD (codeIndex lengthc best) 0 ≤ 5 := getD_le (by decide) _
  have hdist : disteb.getD (codeIndex distc d) 0 ≤ 13 := getD_le (by decide) _
  have hhuff := size_zlibHuff (codeIndex lengthc best + 257) w
  -- The shortest match has a symbol of seven bits and no more bits for its length.
  have hshort : best = 3 → lengtheb.getD (codeIndex lengthc best) 0 = 0 ∧
      (zlibHuff (codeIndex lengthc best + 257) w).size = w.size + 7 := by
    rintro rfl
    rw [show codeIndex lengthc 3 = 0 by decide]
    exact ⟨rfl, by simp [zlibHuff, zlibHuffa]⟩
  unfold putMatch
  dsimp only
  split <;> split <;> simp only [size_zlibAdd] <;> omega

/-- **The loop** writes no more than nine bits for a byte. -/
theorem size_compressLoop (quality : Nat) (data : List UInt8) (i : Nat) (table : HashTable)
    (w : BitBuf) : (compressLoop quality data i table w).2.size + 9 * i ≤
      w.size + 9 * (compressLoop quality data i table w).1 := by
  induction hrest : data.length - i using Nat.strong_induction_on generalizing i table w with
  | _ n ih =>
    rw [compressLoop]
    split
    case isFalse => exact Nat.le_refl _
    case isTrue hlt =>
      dsimp only
      generalize table.set _ _ _ = pushed
      have hliteral := ih (data.length - (i + 1)) (by omega) (i + 1) pushed
        (zlibHuffb (data.getD i 0) w) rfl
      have hb := size_zlibHuffb (data.getD i 0) w
      split
      case h_2 => omega
      case h_1 loc hfound =>
        split
        case isTrue => omega
        case isFalse =>
          have hbest := three_le_findBest data i (table.get (hashIndex data i))
          generalize (findBest data i (table.get (hashIndex data i))).1 = best at hbest ⊢
          have hmatch := ih (data.length - (i + best)) (by omega) (i + best) pushed
            (putMatch best (i - loc) w) rfl
          have hput := size_putMatch hbest (i - loc) w
          omega

theorem size_literals (l : List UInt8) : ∀ w : BitBuf,
    (l.foldl (fun w b => zlibHuffb b w) w).size ≤ w.size + 9 * l.length := by
  induction l with
  | nil => exact fun w => Nat.le_refl _
  | cons b l ih =>
      intro w
      have hrest := ih (zlibHuffb b w)
      have hb := size_zlibHuffb b w
      rw [List.foldl_cons, List.length_cons]
      omega

theorem size_zlibPad (rounds : Nat) : ∀ w : BitBuf, (zlibPad rounds w).size ≤ w.size + rounds := by
  induction rounds with
  | zero => exact fun w => Nat.le_refl _
  | succ rounds ih =>
      intro w
      have hrest := ih (zlibAdd 0 1 w)
      rw [size_zlibAdd] at hrest
      rw [zlibPad]
      split <;> omega

/-- **No byte takes more than nine bits**, and the format 36. -/
theorem length_zlibCodes (data : List UInt8) (quality : Nat) :
    8 * (zlibCodes data quality).length ≤ 9 * data.length + 36 := by
  unfold zlibCodes
  dsimp only
  generalize (if quality < 5 then 5 else quality) = quality
  obtain ⟨hle, -⟩ := written_codes quality data
  have hloop := size_compressLoop quality data 0 (Vector.replicate ZHASH []) zlibHead
  have hhead : zlibHead.size = 19 := by decide +kernel
  generalize compressLoop quality data 0 (Vector.replicate ZHASH []) zlibHead = r at hle hloop ⊢
  have hrest := size_literals (data.drop r.1) r.2
  rw [List.length_drop] at hrest
  generalize (data.drop r.1).foldl (fun w b => zlibHuffb b w) r.2 = w at hrest ⊢
  have hend := size_zlibHuff 256 w
  have hpad := size_zlibPad 8 (zlibHuff 256 w)
  have hbytes : 8 * (zlibPad 8 (zlibHuff 256 w)).out.length ≤
      (zlibPad 8 (zlibHuff 256 w)).size := Nat.le_add_right _ _
  omega

/-! ### Sizes in an `int` -/

/-- The capacity of a buffer after `n` pushes: `stbiw__sbmaybegrow` and `stbiw__sbgrowf`. -/
def sbcapacity : Nat → Nat
  | 0 => 0
  | 1 => 2
  | n + 2 => if n + 2 ≥ sbcapacity (n + 1) then 2 * sbcapacity (n + 1) + 1 else sbcapacity (n + 1)

theorem sbcapacity_le (n : Nat) : sbcapacity n ≤ 2 * n + 1 := by
  induction n with
  | zero => exact Nat.zero_le 1
  | succ n ih =>
      cases n with
      | zero => exact Nat.le_succ 2
      | succ n =>
          rw [sbcapacity]
          split <;> omega

/-- **No `int` overflows**: not the capacity of `out`, with the check value behind the codes, and
not the size in bytes of the longest entry of the hash table. -/
def ZlibFits (data : List UInt8) (quality : Nat) : Prop :=
  sbcapacity ((zlibCodes data quality).length + 4) < 2 ^ 31 ∧
    8 * sbcapacity (2 * if quality < 5 then 5 else quality) < 2 ^ 31

theorem zlibFits_of_lt {data : List UInt8} {quality : Nat} (hlen : data.length < 2 ^ 28)
    (hquality : quality < 2 ^ 25) : ZlibFits data quality := by
  have hcodes := length_zlibCodes data quality
  have hout := sbcapacity_le ((zlibCodes data quality).length + 4)
  have hentry := sbcapacity_le (2 * if quality < 5 then 5 else quality)
  refine ⟨by omega, ?_⟩
  have hmax : (if quality < 5 then 5 else quality) < 2 ^ 25 := by
    split <;> omega
  omega

/-- **The compressed data is the data**, and no `int` overflows on the way. -/
theorem zlib_compress {data : List UInt8} {quality : Nat} (hlen : data.length < 2 ^ 28)
    (hquality : quality < 2 ^ 25) : ZlibFits data quality ∧
      (Inflate.zlib (stbiZlibCompress data quality) = some data ↔ data ≠ []) :=
  ⟨zlibFits_of_lt hlen hquality, zlib_stbiZlibCompress data quality⟩

theorem zlib_compress_match :
    Inflate.zlib (stbiZlibCompress [1, 2, 3, 1, 2, 3, 1, 2, 3] 8) =
      some [1, 2, 3, 1, 2, 3, 1, 2, 3] :=
  (zlib_compress (by decide) (by decide)).2.mpr (by decide)

end Ilo2.Png
