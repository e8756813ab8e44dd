import Ilo2.Lib.BlockHash

/-!
# SHA-1

`sha1.hpp`: the same object as MD5, with five registers, big-endian words and an
80-word schedule.
-/

namespace Ilo2.Crypto

/-- The chaining state, `state_[0]` to `state_[4]`. -/
structure SHA1.State where
  a : UInt32
  b : UInt32
  c : UInt32
  d : UInt32
  e : UInt32
deriving DecidableEq

def SHA1 : Type := BlockHash.Streaming SHA1.State

namespace SHA1

def DIGEST_SIZE : Nat := 20
def BLOCK_SIZE : Nat := 64

def rol (v n : UInt32) : UInt32 := v <<< n ||| v >>> (32 - n)

/-- A block as big-endian words. -/
def words : (n : Nat) → List UInt8 → List UInt32
  | n + 1, b₀ :: b₁ :: b₂ :: b₃ :: bs =>
      (b₀.toUInt32 <<< 24 ||| b₁.toUInt32 <<< 16 ||| b₂.toUInt32 <<< 8 ||| b₃.toUInt32) ::
        words n bs
  | _, _ => []

/-- The schedule, newest word first: `k` more words in front of `w`. -/
def schedule : (k : Nat) → List UInt32 → List UInt32
  | 0, w => w
  | k + 1, w =>
      schedule k (rol (w.getD 2 0 ^^^ w.getD 7 0 ^^^ w.getD 13 0 ^^^ w.getD 15 0) 1 :: w)

/-- The function and the constant of round `i`. -/
def round (i : Nat) (b c d : UInt32) : UInt32 × UInt32 :=
  if i < 20 then ((b &&& c) ||| (~~~b &&& d), 0x5A827999)
  else if i < 40 then (b ^^^ c ^^^ d, 0x6ED9EBA1)
  else if i < 60 then ((b &&& c) ||| (b &&& d) ||| (c &&& d), 0x8F1BBCDC)
  else (b ^^^ c ^^^ d, 0xCA62C1D6)

def step (r : State) (iw : Nat × UInt32) : State :=
  let (f, k) := round iw.1 r.b r.c r.d
  ⟨rol r.a 5 + f + r.e + k + iw.2, r.a, rol r.b 30, r.c, r.d⟩

def transform (state : State) (blk : List UInt8) : State :=
  let w := (schedule 64 (words 16 blk).reverse).reverse
  let r := ((List.range 80).zip w).foldl step state
  ⟨state.a + r.a, state.b + r.b, state.c + r.c, state.d + r.d, state.e + r.e⟩

/-- The five words, each with its high byte first. -/
def output (s : State) : Vector UInt8 DIGEST_SIZE :=
  ⟨#[(s.a >>> 24).toUInt8, (s.a >>> 16).toUInt8, (s.a >>> 8).toUInt8, s.a.toUInt8,
     (s.b >>> 24).toUInt8, (s.b >>> 16).toUInt8, (s.b >>> 8).toUInt8, s.b.toUInt8,
     (s.c >>> 24).toUInt8, (s.c >>> 16).toUInt8, (s.c >>> 8).toUInt8, s.c.toUInt8,
     (s.d >>> 24).toUInt8, (s.d >>> 16).toUInt8, (s.d >>> 8).toUInt8, s.d.toUInt8,
     (s.e >>> 24).toUInt8, (s.e >>> 16).toUInt8, (s.e >>> 8).toUInt8, s.e.toUInt8], rfl⟩

/-- The length in bits, high byte first. -/
def lengthBytes (count : UInt64) : List UInt8 :=
  (List.range 8).map fun i => (count >>> (56 - 8 * i).toUInt64).toUInt8

def algorithm : BlockHash.Algorithm State DIGEST_SIZE where
  iv := ⟨0x67452301, 0xEFCDAB89, 0x98BADCFE, 0x10325476, 0xC3D2E1F0⟩
  compress := transform
  lengthBytes := lengthBytes
  output := output

def init : SHA1 := algorithm.init
def update (h : SHA1) (data : List UInt8) : SHA1 := algorithm.update h data
def digest (h : SHA1) : Vector UInt8 DIGEST_SIZE × SHA1 := algorithm.digest h

/-- The one-shot hash of a message. -/
def hash (msg : List UInt8) : Vector UInt8 DIGEST_SIZE := algorithm.hash msg

/-- The object has been given the message `msg`, in whatever pieces. -/
def Absorbed (h : SHA1) (msg : List UInt8) : Prop := algorithm.Absorbed h msg

theorem Absorbed.init : Absorbed SHA1.init [] := BlockHash.Algorithm.Absorbed.init algorithm

theorem Absorbed.update {h : SHA1} {msg : List UInt8} (ha : Absorbed h msg) (data : List UInt8) :
    Absorbed (h.update data) (msg ++ data) := BlockHash.Algorithm.Absorbed.update ha data

theorem Absorbed.foldl {h : SHA1} {msg : List UInt8} (ha : Absorbed h msg)
    (pieces : List (List UInt8)) : Absorbed (pieces.foldl SHA1.update h) (msg ++ pieces.flatten) :=
  BlockHash.Algorithm.Absorbed.foldl ha pieces

theorem Absorbed.digest {h : SHA1} {msg : List UInt8} (ha : Absorbed h msg) :
    h.digest = (hash msg, SHA1.init) :=
  BlockHash.Algorithm.Absorbed.digest ha fun _ => (List.length_map _).trans List.length_range

end SHA1

end Ilo2.Crypto
