import Ilo2.Lib.BlockHash

/-!
# MD5

`md5.hpp`.  The 64 steps of `transform` are the four functions `FF`, `GG`, `HH` and
`II` over the rows of a table; each step moves the four registers one place on, which
is how the source permutes the arguments of its macros.
-/

namespace Ilo2.Crypto

/-- The chaining state, `state_[0]` to `state_[3]`. -/
structure MD5.State where
  a : UInt32
  b : UInt32
  c : UInt32
  d : UInt32
deriving DecidableEq

def MD5 : Type := BlockHash.Streaming MD5.State

namespace MD5

def DIGEST_SIZE : Nat := 16
def BLOCK_SIZE : Nat := 64

def rotl (x : UInt32) (c : UInt32) : UInt32 := x <<< c ||| x >>> (32 - c)

def F (x y z : UInt32) : UInt32 := (x &&& y) ||| (~~~x &&& z)
def G (x y z : UInt32) : UInt32 := (x &&& z) ||| (y &&& ~~~z)
def H (x y z : UInt32) : UInt32 := x ^^^ y ^^^ z
def I (x y z : UInt32) : UInt32 := y ^^^ (x ||| ~~~z)

/-- One row of the table: the message word, the rotation and the constant. -/
structure Row where
  k : Nat
  s : UInt32
  t : UInt32

/-- One of `FF`, `GG`, `HH`, `II`, with the registers moved on. -/
def step (f : UInt32 → UInt32 → UInt32 → UInt32) (m : List UInt32) (r : State) (row : Row) :
    State :=
  ⟨r.d, r.b + rotl (r.a + f r.b r.c r.d + m.getD row.k 0 + row.t) row.s, r.b, r.c⟩

def rowsF : List Row := [
  ⟨0, 7, 0xd76aa478⟩, ⟨1, 12, 0xe8c7b756⟩, ⟨2, 17, 0x242070db⟩, ⟨3, 22, 0xc1bdceee⟩,
  ⟨4, 7, 0xf57c0faf⟩, ⟨5, 12, 0x4787c62a⟩, ⟨6, 17, 0xa8304613⟩, ⟨7, 22, 0xfd469501⟩,
  ⟨8, 7, 0x698098d8⟩, ⟨9, 12, 0x8b44f7af⟩, ⟨10, 17, 0xffff5bb1⟩, ⟨11, 22, 0x895cd7be⟩,
  ⟨12, 7, 0x6b901122⟩, ⟨13, 12, 0xfd987193⟩, ⟨14, 17, 0xa679438e⟩, ⟨15, 22, 0x49b40821⟩]

def rowsG : List Row := [
  ⟨1, 5, 0xf61e2562⟩, ⟨6, 9, 0xc040b340⟩, ⟨11, 14, 0x265e5a51⟩, ⟨0, 20, 0xe9b6c7aa⟩,
  ⟨5, 5, 0xd62f105d⟩, ⟨10, 9, 0x02441453⟩, ⟨15, 14, 0xd8a1e681⟩, ⟨4, 20, 0xe7d3fbc8⟩,
  ⟨9, 5, 0x21e1cde6⟩, ⟨14, 9, 0xc33707d6⟩, ⟨3, 14, 0xf4d50d87⟩, ⟨8, 20, 0x455a14ed⟩,
  ⟨13, 5, 0xa9e3e905⟩, ⟨2, 9, 0xfcefa3f8⟩, ⟨7, 14, 0x676f02d9⟩, ⟨12, 20, 0x8d2a4c8a⟩]

def rowsH : List Row := [
  ⟨5, 4, 0xfffa3942⟩, ⟨8, 11, 0x8771f681⟩, ⟨11, 16, 0x6d9d6122⟩, ⟨14, 23, 0xfde5380c⟩,
  ⟨1, 4, 0xa4beea44⟩, ⟨4, 11, 0x4bdecfa9⟩, ⟨7, 16, 0xf6bb4b60⟩, ⟨10, 23, 0xbebfbc70⟩,
  ⟨13, 4, 0x289b7ec6⟩, ⟨0, 11, 0xeaa127fa⟩, ⟨3, 16, 0xd4ef3085⟩, ⟨6, 23, 0x04881d05⟩,
  ⟨9, 4, 0xd9d4d039⟩, ⟨12, 11, 0xe6db99e5⟩, ⟨15, 16, 0x1fa27cf8⟩, ⟨2, 23, 0xc4ac5665⟩]

def rowsI : List Row := [
  ⟨0, 6, 0xf4292244⟩, ⟨7, 10, 0x432aff97⟩, ⟨14, 15, 0xab9423a7⟩, ⟨5, 21, 0xfc93a039⟩,
  ⟨12, 6, 0x655b59c3⟩, ⟨3, 10, 0x8f0ccc92⟩, ⟨10, 15, 0xffeff47d⟩, ⟨1, 21, 0x85845dd1⟩,
  ⟨8, 6, 0x6fa87e4f⟩, ⟨15, 10, 0xfe2ce6e0⟩, ⟨6, 15, 0xa3014314⟩, ⟨13, 21, 0x4e0811a1⟩,
  ⟨4, 6, 0xf7537e82⟩, ⟨11, 10, 0xbd3af235⟩, ⟨2, 15, 0x2ad7d2bb⟩, ⟨9, 21, 0xeb86d391⟩]

/-- A block as little-endian words. -/
def words : (n : Nat) → List UInt8 → List UInt32
  | n + 1, b₀ :: b₁ :: b₂ :: b₃ :: bs =>
      (b₀.toUInt32 ||| b₁.toUInt32 <<< 8 ||| b₂.toUInt32 <<< 16 ||| b₃.toUInt32 <<< 24) ::
        words n bs
  | _, _ => []

def transform (state : State) (blk : List UInt8) : State :=
  let m := words 16 blk
  let r := rowsF.foldl (step F m) state
  let r := rowsG.foldl (step G m) r
  let r := rowsH.foldl (step H m) r
  let r := rowsI.foldl (step I m) r
  ⟨state.a + r.a, state.b + r.b, state.c + r.c, state.d + r.d⟩

/-- The four words, each with its low byte first. -/
def output (s : State) : Vector UInt8 DIGEST_SIZE :=
  ⟨#[s.a.toUInt8, (s.a >>> 8).toUInt8, (s.a >>> 16).toUInt8, (s.a >>> 24).toUInt8,
     s.b.toUInt8, (s.b >>> 8).toUInt8, (s.b >>> 16).toUInt8, (s.b >>> 24).toUInt8,
     s.c.toUInt8, (s.c >>> 8).toUInt8, (s.c >>> 16).toUInt8, (s.c >>> 24).toUInt8,
     s.d.toUInt8, (s.d >>> 8).toUInt8, (s.d >>> 16).toUInt8, (s.d >>> 24).toUInt8], rfl⟩

/-- The length in bits, low byte first. -/
def lengthBytes (count : UInt64) : List UInt8 :=
  (List.range 8).map fun i => (count >>> (8 * i).toUInt64).toUInt8

def algorithm : BlockHash.Algorithm State DIGEST_SIZE where
  iv := ⟨0x67452301, 0xefcdab89, 0x98badcfe, 0x10325476⟩
  compress := transform
  lengthBytes := lengthBytes
  output := output

def init : MD5 := algorithm.init
def update (h : MD5) (data : List UInt8) : MD5 := algorithm.update h data
def digest (h : MD5) : Vector UInt8 DIGEST_SIZE × MD5 := algorithm.digest h

/-- The one-shot hash of a message. -/
def hash (msg : List UInt8) : Vector UInt8 DIGEST_SIZE := algorithm.hash msg

/-- The object has been given the message `msg`, in whatever pieces. -/
def Absorbed (h : MD5) (msg : List UInt8) : Prop := algorithm.Absorbed h msg

theorem Absorbed.init : Absorbed MD5.init [] := BlockHash.Algorithm.Absorbed.init algorithm

theorem Absorbed.update {h : MD5} {msg : List UInt8} (ha : Absorbed h msg) (data : List UInt8) :
    Absorbed (h.update data) (msg ++ data) := BlockHash.Algorithm.Absorbed.update ha data

theorem Absorbed.foldl {h : MD5} {msg : List UInt8} (ha : Absorbed h msg)
    (pieces : List (List UInt8)) : Absorbed (pieces.foldl MD5.update h) (msg ++ pieces.flatten) :=
  BlockHash.Algorithm.Absorbed.foldl ha pieces

theorem Absorbed.digest {h : MD5} {msg : List UInt8} (ha : Absorbed h msg) :
    h.digest = (hash msg, MD5.init) :=
  BlockHash.Algorithm.Absorbed.digest ha fun _ => (List.length_map _).trans List.length_range

end MD5

end Ilo2.Crypto
