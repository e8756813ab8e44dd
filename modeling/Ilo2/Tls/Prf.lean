import Ilo2.Crypto.Hmac

/-!
# The pseudo-random function

`prf.hpp`: two streams of HMACs, one with each hash, are added to each other; and the
three derivations that the handshake makes with it.
-/

namespace Ilo2.Tls

open Crypto

def MASTER_SECRET_LEN : Nat := 48
def RANDOM_LEN : Nat := 32
def VERIFY_DATA_LEN : Nat := 12

/-- The bytes of a C string. -/
def ascii (s : String) : List UInt8 := s.toList.map fun c => c.toNat.toUInt8

def LABEL_MASTER_SECRET : List UInt8 := ascii "master secret"
def LABEL_KEY_EXPANSION : List UInt8 := ascii "key expansion"
def LABEL_CLIENT_FINISHED : List UInt8 := ascii "client finished"
def LABEL_SERVER_FINISHED : List UInt8 := ascii "server finished"

section PHash

variable {H : Type} [MacHash H]

/-- The loop of `p_hash`, with `left` bytes to go and `A(i)` in `a`. -/
def pHashLoop (seed : List UInt8) (mac : HMAC H) (a : Vector UInt8 (MacHash.DIGEST_SIZE H))
    (left : Nat) : List UInt8 :=
  if _h : 0 < left then
    let (chunk, mac) := ((mac.update a.toList).update seed).digest
    let n := min left (MacHash.DIGEST_SIZE H)
    let (a, mac) := if n < left then (mac.update a.toList).digest else (a, mac)
    chunk.toList.take n ++ pHashLoop seed mac a (left - n)
  else []
termination_by left
decreasing_by
  have hpos := MacHash.digest_pos (H := H)
  omega

/-- `p_hash`: `HMAC(secret, A(1) + seed) || HMAC(secret, A(2) + seed) || ...`, cut off. -/
def pHash (H : Type) [MacHash H] (secret seed : List UInt8) (outlen : Nat) : List UInt8 :=
  if outlen = 0 then [] else
  let (a, mac) := ((HMAC.init secret : HMAC H).update seed).digest
  pHashLoop seed mac a outlen

end PHash

/-- `prf`: the halves of the secret are `ceil(L / 2)` bytes each, so they share the middle
byte when `L` is odd. -/
def prf (secret label seed : List UInt8) (outlen : Nat) : Vector UInt8 outlen :=
  let ls := label ++ seed
  let half := (secret.length + 1) / 2
  let fromMd5 := pHash MD5 (secret.take half) ls outlen
  let fromSha1 := pHash SHA1 (secret.drop (secret.length - half)) ls outlen
  Vector.ofFn fun i => fromMd5.getD i 0 ^^^ fromSha1.getD i 0

/-- `derive_master_secret`: the client's random comes first. -/
def deriveMasterSecret (preMaster : List UInt8) (clientRandom serverRandom : Vector UInt8 RANDOM_LEN) :
    Vector UInt8 MASTER_SECRET_LEN :=
  prf preMaster LABEL_MASTER_SECRET (clientRandom.toList ++ serverRandom.toList) _

/-- `derive_key_block`: here the server's random comes first. -/
def deriveKeyBlock (master : Vector UInt8 MASTER_SECRET_LEN)
    (serverRandom clientRandom : Vector UInt8 RANDOM_LEN) (outlen : Nat) : Vector UInt8 outlen :=
  prf master.toList LABEL_KEY_EXPANSION (serverRandom.toList ++ clientRandom.toList) outlen

/-- `derive_verify_data`: from both hashes of the transcript. -/
def deriveVerifyData (master : Vector UInt8 MASTER_SECRET_LEN) (label : List UInt8)
    (md5Hash : Vector UInt8 MD5.DIGEST_SIZE) (sha1Hash : Vector UInt8 SHA1.DIGEST_SIZE) :
    Vector UInt8 VERIFY_DATA_LEN :=
  prf master.toList label (md5Hash.toList ++ sha1Hash.toList) _

end Ilo2.Tls
