import Ilo2.Lib.Keystream
import Ilo2.Crypto.Md5

/-!
# RC4

`rc4.hpp`: the stream cipher of both transports.  The console keys it through MD5 and
derives a new key from the old one on `update_key`; TLS keys it directly (`raw`).
-/

namespace Ilo2.Crypto

structure RC4 where
  key : Vector UInt8 256
  keylen : Nat
  pre : Vector UInt8 16
  sBox : Vector UInt8 256
  i : Nat
  j : Nat
deriving DecidableEq

namespace RC4

theorem and_255_lt (n : Nat) : n &&& 0xFF < 256 := Nat.lt_succ_of_le Nat.and_le_right

/-- One swap of the key schedule. -/
def scheduleStep (keyBox : Vector UInt8 256) (s : Nat × Vector UInt8 256) (i : Fin 256) :
    Nat × Vector UInt8 256 :=
  let j := (s.1 + s.2[i].toNat + keyBox[i].toNat) &&& 0xFF
  have hj : j < 256 := and_255_lt _
  (j, (s.2.set i s.2[j]).set j s.2[i])

/-- `schedule`, the RC4 key schedule. -/
def schedule (rc : RC4) : RC4 :=
  let sBox := Vector.ofFn fun n : Fin 256 => n.val.toUInt8
  let keyBox := Vector.ofFn fun n : Fin 256 => rc.key.toList.getD (n % rc.keylen) 0
  { rc with sBox := ((List.finRange 256).foldl (scheduleStep keyBox) (0, sBox)).2, i := 0, j := 0 }

/-- `update_key`: the next key is the MD5 of the session key and the key before. -/
def updateKey (rc : RC4) : RC4 :=
  let d := (((MD5.init.update rc.pre.toList).update (rc.key.toList.take 16)).digest).1
  schedule { rc with
    key := Vector.ofFn fun i => if h : i.val < MD5.DIGEST_SIZE then d[i.val] else rc.key[i]
    keylen := 16 }

/-- `RC4(seed)`. -/
def ofSeed (seed : Vector UInt8 16) : RC4 :=
  updateKey ⟨Vector.replicate 256 0, 16, seed, Vector.replicate 256 0, 0, 0⟩

/-- `RC4(RawKey, key, klen)`. -/
def raw (key : List UInt8) : RC4 :=
  let fits := key.length ≠ 0 ∧ key.length ≤ 256
  schedule
    ⟨Vector.ofFn fun i => if fits then key.getD i 0 else 0, if fits then key.length else 1,
      Vector.replicate 16 0, Vector.replicate 256 0, 0, 0⟩

/-- `randomValue`: the next byte of the keystream. -/
def randomValue (rc : RC4) : UInt8 × RC4 :=
  let i := (rc.i + 1) &&& 0xFF
  have hi : i < 256 := and_255_lt _
  let j := (rc.j + rc.sBox[i].toNat) &&& 0xFF
  have hj : j < 256 := and_255_lt _
  let sBox := (rc.sBox.set i rc.sBox[j]).set j rc.sBox[i]
  let n := (sBox[i].toNat + sBox[j].toNat) &&& 0xFF
  have hn : n < 256 := and_255_lt _
  (sBox[n], { rc with sBox := sBox, i := i, j := j })

/-- `crypt`: add the keystream to a buffer. -/
def crypt (rc : RC4) (buf : List UInt8) : List UInt8 × RC4 := Keystream.crypt randomValue rc buf

end RC4

end Ilo2.Crypto
