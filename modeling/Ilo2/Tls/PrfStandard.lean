import Ilo2.Crypto.Mac
import Ilo2.Tls.Prf
import Mathlib.Data.List.DropRight

/-!
# The pseudo-random function as RFC 2246 defines it

`P_hash` is an infinite stream of bytes here, `A` a recurrence; `p_hash` of the program is a loop
that uses one HMAC object for both, cuts the last block and leaves out the last `A`.

* `take_pBlock` - the stream is made of blocks.
* `pHash_eq` - **`p_hash` is the stream's beginning**.
* `prf_standard` - `prf` adds the beginnings of two streams, so a shorter request is a prefix of
  a longer one.
-/

namespace Ilo2.Tls

open Crypto Crypto.Standard

/-! ### The streams -/

/-- `A(i)` of RFC 2246, where `mac` is the HMAC with the secret. -/
def A (mac : List UInt8 → List UInt8) (seed : List UInt8) : Nat → List UInt8
  | 0 => seed
  | i + 1 => mac (A mac seed i)

/-- Block `i` of `P_hash`: the first one is number 0. -/
def pBlock (mac : List UInt8 → List UInt8) (seed : List UInt8) (i : Nat) : List UInt8 :=
  mac (A mac seed (i + 1) ++ seed)

/-- **`P_hash`**: byte `j` of the blocks, which have `size` bytes each. -/
def stream (mac : List UInt8 → List UInt8) (size : Nat) (seed : List UInt8) (j : Nat) : UInt8 :=
  (pBlock mac seed (j / size)).getD (j % size) 0

/-- Byte `j` of `PRF`, with the first and the last half of the secret. -/
def prfByte (secret label seed : List UInt8) (j : Nat) : UInt8 :=
  let half := (secret.length + 1) / 2
  stream (hmac md5 64 (secret.take half)) 16 (label ++ seed) j ^^^
    stream (hmac sha1 64 (secret.rtake half)) 20 (label ++ seed) j

section Stream

variable {mac : List UInt8 → List UInt8} {size : Nat} {seed : List UInt8}

/-- The bytes of block `i` that are among the first `n`. -/
theorem take_pBlock (hsize : ∀ msg, (mac msg).length = size) (i : Nat) {n : Nat} (hn : n ≤ size) :
    (pBlock mac seed i).take n =
      (List.range n).map fun j => stream mac size seed (size * i + j) := by
  have hlen : (pBlock mac seed i).length = size := hsize _
  apply List.ext_getElem
  · rw [List.length_take, List.length_map, List.length_range, hlen]
    omega
  · intro j h₁ h₂
    rw [List.length_map, List.length_range] at h₂
    have hj : j < size := Nat.lt_of_lt_of_le h₂ hn
    rw [List.getElem_take, List.getElem_map, List.getElem_range, stream,
      Nat.mul_add_div (by omega), Nat.div_eq_of_lt hj, Nat.add_zero, Nat.mul_add_mod,
      Nat.mod_eq_of_lt hj, List.getD_eq_getElem _ _ (by omega)]

end Stream

/-! ### The loop -/

section PHash

variable {H : Type} [MacHash H] {hash : List UInt8 → List UInt8}

/-- A MAC has the size of a digest. -/
theorem length_hmac (hc : Computes H hash) (key msg : List UInt8) :
    (hmac hash (MacHash.BLOCK_SIZE H) key msg).length = MacHash.DIGEST_SIZE H := by
  have hdigest := ((HMAC.Under.init (H := H) key).update msg).digest hc
  rw [List.nil_append] at hdigest
  rw [← hdigest, Vector.length_toList]

/-- **The loop with `left` bytes to go**: block `i` is next, and `a` is its `A`.  By strong
induction on `left`; the object is armed again before every message. -/
theorem pHashLoop_eq (hc : Computes H hash) (secret seed : List UInt8) (left : Nat) :
    ∀ (i : Nat) (m : HMAC H) (a : Vector UInt8 (MacHash.DIGEST_SIZE H)),
      HMAC.Under m secret [] →
      a.toList = A (hmac hash (MacHash.BLOCK_SIZE H) secret) seed (i + 1) →
      pHashLoop seed m a left = (List.range left).map fun j =>
        stream (hmac hash (MacHash.BLOCK_SIZE H) secret) (MacHash.DIGEST_SIZE H) seed
          (MacHash.DIGEST_SIZE H * i + j) := by
  induction left using Nat.strong_induction_on with
  | h left ih =>
      intro i m a hm ha
      rw [pHashLoop]
      by_cases hleft : 0 < left
      · rw [dif_pos hleft]
        have hpos := MacHash.digest_pos (H := H)
        have hgiven := (hm.update a.toList).update seed
        have hchunk := hgiven.digest hc
        rw [List.nil_append] at hchunk
        have hblock := @take_pBlock (hmac hash (MacHash.BLOCK_SIZE H) secret)
          (MacHash.DIGEST_SIZE H) seed (length_hmac hc secret) i
        rw [pBlock, ← ha, ← hchunk] at hblock
        simp only
        by_cases hmore : min left (MacHash.DIGEST_SIZE H) < left
        · -- a whole block, and the next `A`
          have hn : min left (MacHash.DIGEST_SIZE H) = MacHash.DIGEST_SIZE H := by omega
          have hnext := hgiven.rearmed.update a.toList
          have hA := hnext.digest hc
          have hstep : hmac hash (MacHash.BLOCK_SIZE H) secret ([] ++ a.toList) =
              A (hmac hash (MacHash.BLOCK_SIZE H) secret) seed (i + 1 + 1) := by
            rw [List.nil_append, ha]
            rfl
          rw [hstep] at hA
          rw [if_pos hmore, hn, hblock le_rfl, ih _ (by omega) (i + 1) _ _ hnext.rearmed hA]
          have hsplit : left = MacHash.DIGEST_SIZE H + (left - MacHash.DIGEST_SIZE H) := by omega
          conv => rhs; rw [hsplit, List.range_add, List.map_append, List.map_map]
          congr 1
          apply List.map_congr_left
          intro j _
          rw [Function.comp_apply, Nat.mul_succ, Nat.add_assoc]
        · -- the last block, or a part of it
          have hn : min left (MacHash.DIGEST_SIZE H) = left := by omega
          rw [if_neg hmore, hn, hblock (by omega), Nat.sub_self]
          have hend := ih 0 hleft i _ _ hgiven.rearmed ha
          rw [hend, List.range_zero, List.map_nil, List.append_nil]
      · have hzero : left = 0 := by omega
        rw [dif_neg hleft, hzero]
        rfl

/-- **`p_hash` is the stream's beginning.** -/
theorem pHash_eq (hc : Computes H hash) (secret seed : List UInt8) (outlen : Nat) :
    pHash H secret seed outlen = (List.range outlen).map
      (stream (hmac hash (MacHash.BLOCK_SIZE H) secret) (MacHash.DIGEST_SIZE H) seed) := by
  rw [pHash]
  split
  · rename_i hzero
    rw [hzero]
    rfl
  · have hgiven := (HMAC.Under.init (H := H) secret).update seed
    have hA := hgiven.digest hc
    rw [List.nil_append] at hA
    have hloop := pHashLoop_eq hc secret seed outlen 0 _ _ hgiven.rearmed hA
    simp only [Nat.mul_zero, Nat.zero_add] at hloop
    exact hloop

end PHash

/-! ### The two streams together -/

/-- **`prf` is `PRF`**: byte by byte the sum of the two streams, so that a shorter request is a
prefix of a longer one. -/
theorem prf_standard (secret label seed : List UInt8) (outlen : Nat) :
    (prf secret label seed outlen).toList = (List.range outlen).map (prfByte secret label seed) ∧
      ∀ more, (prf secret label seed outlen).toList <+:
        (prf secret label seed (outlen + more)).toList := by
  have hprf : ∀ n, (prf secret label seed n).toList =
      (List.range n).map (prfByte secret label seed) := by
    intro n
    have hget : ∀ (f : Nat → UInt8) {i : Nat}, i < n → ((List.range n).map f).getD i 0 = f i := by
      intro f i hi
      rw [List.getD_eq_getElem _ _ (by simpa using hi), List.getElem_map, List.getElem_range]
    rw [prf, Vector.toList_ofFn, pHash_eq computes_md5, pHash_eq computes_sha1]
    apply List.ext_getElem
    · simp
    · intro i h₁ h₂
      rw [List.length_ofFn] at h₁
      rw [List.getElem_ofFn, List.getElem_map, List.getElem_range]
      simp only [hget _ h₁]
      rfl
  refine ⟨hprf outlen, ?_⟩
  intro more
  rw [hprf, hprf, List.range_add, List.map_append]
  exact List.prefix_append _ _

end Ilo2.Tls
