import Ilo2.Crypto.Md5
import Ilo2.Crypto.Sha1

/-!
# HMAC

`hmac.hpp`: one object that is given a key once and then computes any number of MACs.
It is a template over the hash, which `MacHash` stands for; MD5 and SHA1 are the two
the program uses.
-/

namespace Ilo2.Crypto

/-- What `HMAC` and the record layer use of a hash. -/
class MacHash (H : Type) where
  DIGEST_SIZE : Nat
  BLOCK_SIZE : Nat
  init : H
  update : H → List UInt8 → H
  digest : H → Vector UInt8 DIGEST_SIZE × H
  digest_pos : 0 < DIGEST_SIZE
  /-- A digest fits in the key block of `HMAC`. -/
  digest_le : DIGEST_SIZE ≤ BLOCK_SIZE
  /-- The fragment and its MAC fit in a record. -/
  block_le : BLOCK_SIZE ≤ 2048

instance : MacHash MD5 where
  DIGEST_SIZE := MD5.DIGEST_SIZE
  BLOCK_SIZE := MD5.BLOCK_SIZE
  init := MD5.init
  update := MD5.update
  digest := MD5.digest
  digest_pos := by decide
  digest_le := by decide
  block_le := by decide

instance : MacHash SHA1 where
  DIGEST_SIZE := SHA1.DIGEST_SIZE
  BLOCK_SIZE := SHA1.BLOCK_SIZE
  init := SHA1.init
  update := SHA1.update
  digest := SHA1.digest
  digest_pos := by decide
  digest_le := by decide
  block_le := by decide

structure HMAC (H : Type) [MacHash H] where
  inner : H
  ipad : Vector UInt8 (MacHash.BLOCK_SIZE H)
  opad : Vector UInt8 (MacHash.BLOCK_SIZE H)

namespace HMAC

variable {H : Type} [MacHash H]

/-- Start a message under the key that is set. -/
def begin (m : HMAC H) : HMAC H :=
  { m with inner := MacHash.update MacHash.init m.ipad.toList }

/-- The key in a block of its own: hashed if it is too long, then filled up with zeros. -/
def block (H : Type) [MacHash H] (key : List UInt8) : Vector UInt8 (MacHash.BLOCK_SIZE H) :=
  let k :=
    if key.length > MacHash.BLOCK_SIZE H then
      (MacHash.digest (MacHash.update (MacHash.init : H) key)).1.toList
    else key
  Vector.ofFn fun i => k.getD i 0

/-- `HMAC(key, klen)`, and `init` on an object of any state. -/
def init (key : List UInt8) : HMAC H :=
  begin ⟨MacHash.init, (block H key).map (· ^^^ 0x36), (block H key).map (· ^^^ 0x5C)⟩

def update (m : HMAC H) (data : List UInt8) : HMAC H :=
  { m with inner := MacHash.update m.inner data }

/-- The MAC of the message, and the object ready for the next. -/
def digest (m : HMAC H) : Vector UInt8 (MacHash.DIGEST_SIZE H) × HMAC H :=
  let inner := (MacHash.digest m.inner).1
  let outer := MacHash.update (MacHash.init : H) m.opad.toList
  ((MacHash.digest (MacHash.update outer inner.toList)).1, m.begin)

/-- A message more or less leaves the object as it was. -/
theorem digest_snd (m : HMAC H) : m.digest.2 = m.begin := rfl

end HMAC

end Ilo2.Crypto
