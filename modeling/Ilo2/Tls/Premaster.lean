import Mathlib.FieldTheory.Finite.Basic
import Mathlib.NumberTheory.LucasLehmer
import Ilo2.Tls.Der

/-!
# The premaster secret on the server's side

The client pads the premaster secret and encrypts it under the key of the certificate; a
server takes the two steps back.

* `Served` - the random source has enough answers for the padding.
* `rsaEncrypt_spec` - what the client sends, and that it fits under the modulus.
* `premaster_recovered` - **the server gets back exactly what was padded**.
-/

namespace Ilo2.Tls

open Crypto BigEndian

/-- Take the padding off: skip to the first 0 after the second byte. -/
def unpad : List UInt8 → Option (List UInt8)
  | 0x00 :: 0x02 :: r =>
      match r.dropWhile (· ≠ 0) with
      | _ :: msg => some msg
      | [] => none
  | _ => none

/-- The source fills a padding string of `len` bytes, and has an answer that is not 0 for
every 0 in it. -/
def Served (len : Nat) : Rng → Prop
  | [] => False
  | f :: rng => ((List.range len).map f).count 0 ≤ rng.countP ends

theorem unpad_padded {ps msg : List UInt8} (h : ∀ b ∈ ps, b ≠ 0) :
    unpad (0x00 :: 0x02 :: (ps ++ 0x00 :: msg)) = some msg := by
  have hdrop : (ps ++ 0x00 :: msg).dropWhile (fun b => decide (b ≠ 0)) = 0x00 :: msg := by
    rw [List.dropWhile_append_of_pos fun b hb => decide_eq_true (h b hb)]
    exact List.dropWhile_cons_of_neg (by decide)
  simp only [unpad, hdrop]

/-- Padding is refused if the message is too long or the source has not enough answers. -/
theorem pad_refused {k : Nat} (hk : 12 ≤ k) (msg : List UInt8) (rng : Rng) :
    (pkcs1v15PadType2 k msg rng).1 = none ↔
      k - 11 < msg.length ∨ ¬ Served (k - msg.length - 3) rng := by
  unfold pkcs1v15PadType2
  split
  · rename_i hlong
    have hlt : k - 11 < msg.length := by omega
    simp [hlt]
  · rename_i hshort
    have hle : ¬ k - 11 < msg.length := by omega
    have hpos : k - msg.length - 3 ≠ 0 := by omega
    cases rng with
    | nil => simp [secureRandom, hpos, Served]
    | cons f rng =>
        have hfix := @fixPadding_isSome ((List.range (k - msg.length - 3)).map f) rng
        simp only [secureRandom, hpos, if_false, Served]
        rcases h : fixPadding ((List.range (k - msg.length - 3)).map f) rng with ⟨qs | qs, rng'⟩
        · rw [h] at hfix
          have hnot : ¬ ((List.range (k - msg.length - 3)).map f).count 0 ≤ rng.countP ends :=
            fun hle => by simpa using hfix.mpr hle
          simp only [true_iff]
          exact Or.inr hnot
        · rw [h] at hfix
          have hserved := hfix.mp rfl
          simp only [reduceCtorEq, false_iff, not_or, not_not]
          exact ⟨hle, hserved⟩

/-- What the client sends: `k` bytes for `EM ^ e % n`, where `EM` is below `n`. -/
theorem rsaEncrypt_spec {key : RsaPublicKey} (hkey : Der.WellFormed key) {msg em : List UInt8}
    {rng rng' : Rng} (hpad : pkcs1v15PadType2 key.k msg rng = (some em, rng')) :
    em.length = key.k ∧ value em < key.n.toNat ∧ ∃ out,
      rsaEncryptPkcs1v15 key msg rng = (some out, rng') ∧ PublicOp key em out := by
  obtain ⟨ps, rfl, hlen, -, -⟩ := pad_shape hpad
  have hk : (0x00 :: 0x02 :: (ps ++ 0x00 :: msg) : List UInt8).length = key.k := by
    simp only [List.length_cons, List.length_append]
    omega
  have hlt : value (0x00 :: 0x02 :: (ps ++ 0x00 :: msg)) < key.n.toNat := by
    have htail := value_lt (0x02 :: (ps ++ 0x00 :: msg))
    rw [List.length_cons] at hk
    rw [value_cons, UInt8.toNat_zero, Nat.zero_mul, Nat.zero_add]
    refine Nat.lt_of_lt_of_le htail (Nat.le_trans (Nat.le_of_eq ?_) hkey.lower)
    rw [← hk, Nat.add_sub_cancel]
  have hbytes : key.k ≤ RsaInt.BYTES := by
    have hvalid := hkey.valid
    simp only [RsaPublicKey.valid, decide_eq_true_eq] at hvalid
    exact hvalid.2.1
  obtain ⟨out, hout, hop⟩ := rsaPublicOp_spec hkey.valid hkey.upper
    (Nat.le_trans (Nat.le_of_eq hk) hbytes)
  refine ⟨hk, hlt, out, ?_, hop⟩
  unfold rsaEncryptPkcs1v15
  rw [if_neg (by simp [hkey.valid]), hpad]
  simp only [hout]

/-- Decryption gives the padded message back. -/
theorem decrypted {key : RsaPublicKey} (hkey : Der.WellFormed key) {decrypt : Nat → Nat}
    (hdec : ∀ m < key.n.toNat, decrypt (m ^ key.e.toNat % key.n.toNat) = m)
    {msg em out : List UInt8} {rng rng' : Rng}
    (hpad : pkcs1v15PadType2 key.k msg rng = (some em, rng'))
    (hout : rsaEncryptPkcs1v15 key msg rng = (some out, rng')) :
    bytes key.k (decrypt (value out)) = em ∧ unpad em = some msg := by
  obtain ⟨hlen, hlt, out', hout', hop⟩ := rsaEncrypt_spec hkey hpad
  rw [hout] at hout'
  cases hout'
  obtain ⟨ps, hem, -, -, hne⟩ := pad_shape hpad
  constructor
  · rw [hop.value, hdec _ hlt, ← hlen, bytes_value]
  · rw [hem, unpad_padded hne]

/-! ### A key -/

/-- A certificate for the modulus `2 ^ 521 - 1` and the exponent 7. -/
def mersenneCert : List UInt8 :=
  [0x30, 0x5F, 0x30, 0x5D, 0x30, 0x5B, 0x30, 0x0D, 0x06, 0x09] ++ Der.OID_RSA_ENCRYPTION ++
    [0x05, 0x00, 0x03, 0x4A, 0x00, 0x30, 0x47, 0x02, 0x42, 0x01] ++ List.replicate 65 0xFF ++
      [0x02, 0x01, 0x07]

def mersenneKey : RsaPublicKey where
  n := (BigInt.fromBytes 64 (0x01 :: List.replicate 65 0xFF)).getD (BigInt.zero 64)
  e := 7
  k := 66

/-- The inverse of 7 modulo `2 ^ 521 - 2`. -/
def mersenneExponent : Nat := (3 * (mersenne 521 - 1) + 1) / 7

theorem mersenneKey_certified : (Der.parseCertificateRsaKey mersenneCert).Yields mersenneKey := by
  unfold Checked.Guarded.Yields
  decide +kernel

theorem toNat_mersenneKey : mersenneKey.n.toNat = mersenne 521 := by
  decide +kernel

theorem mersenne_prime : (mersenne 521).Prime :=
  lucas_lehmer_sufficiency _ (by simp) (by norm_num)

theorem mersenne_mod_seven : mersenne (3 * 173 + 2) % 7 = 3 := by
  have hpow : 2 ^ (3 * 173 + 2) % 7 = 4 := by
    rw [pow_add, pow_mul, Nat.mul_mod, Nat.pow_mod]
    norm_num
  unfold mersenne
  generalize 2 ^ (3 * 173 + 2) = p at hpow
  omega

/-- The two exponents cancel, by Fermat's little theorem. -/
theorem mersenneKey_inverts : ∀ x < mersenneKey.n.toNat,
    (x ^ mersenneKey.e.toNat) ^ mersenneExponent % mersenneKey.n.toNat = x := by
  intro x hx
  have hseven := mersenne_mod_seven
  have hprime : Fact (mersenne 521).Prime := ⟨mersenne_prime⟩
  rw [toNat_mersenneKey] at hx ⊢
  rw [mersenneExponent]
  generalize mersenne 521 = p at *
  have hexp : mersenneKey.e.toNat * ((3 * (p - 1) + 1) / 7) = (p - 1) * 3 + 1 := by
    rw [show mersenneKey.e.toNat = 7 from rfl]
    omega
  have hpow : ((x ^ ((p - 1) * 3 + 1) : Nat) : ZMod p) = (x : Nat) := by
    push_cast
    by_cases h0 : (x : ZMod p) = 0
    · rw [h0, zero_pow (Nat.succ_ne_zero _)]
    · rw [pow_succ, pow_mul, ZMod.pow_card_sub_one_eq_one h0, one_pow, one_mul]
  rw [← Nat.pow_mul, hexp]
  exact ((ZMod.natCast_eq_natCast_iff' _ _ _).mp hpow).trans (Nat.mod_eq_of_lt hx)
/-! ### The round trip -/

/-- **The server always recovers the message.**  Under any key of a certificate:

* when the padding succeeds, the client sends `k` bytes, whose value is `EM ^ e % n` with
  `EM` below `n`; the bytes of the power that it drops are 0; and whoever knows the private
  exponent gets `00 02 PS 00 M` back and finds the message in it;
* the padding is refused exactly if the message is longer than `k - 11` bytes or the random
  source fails. -/
theorem premaster_recovered {cert : List UInt8} {key : RsaPublicKey}
    (hkey : (Der.parseCertificateRsaKey cert).Yields key) {d : Nat}
    (hd : ∀ x < key.n.toNat, (x ^ key.e.toNat) ^ d % key.n.toNat = x) (msg : List UInt8)
    (rng : Rng) :
    (∀ em rng', pkcs1v15PadType2 key.k msg rng = (some em, rng') →
      value em < key.n.toNat ∧ ∃ out, rsaEncryptPkcs1v15 key msg rng = (some out, rng') ∧
        out.length = key.k ∧ value out = value em ^ key.e.toNat % key.n.toNat ∧
        (∃ m c, BigInt.fromBytes 64 em = some m ∧ BigInt.modexpU32 m key.e key.n = some c ∧
          c.toBytes = List.replicate (RsaInt.BYTES - key.k) 0 ++ out) ∧
        (∃ ps : List UInt8, bytes key.k (value out ^ d % key.n.toNat) =
          0x00 :: 0x02 :: (ps ++ 0x00 :: msg) ∧ 8 ≤ ps.length ∧ ∀ b ∈ ps, b ≠ 0) ∧
        unpad (bytes key.k (value out ^ d % key.n.toNat)) = some msg) ∧
    ((pkcs1v15PadType2 key.k msg rng).1 = none ↔
      key.k - 11 < msg.length ∨ ¬ Served (key.k - msg.length - 3) rng) := by
  have hwf := Der.parseCertificateRsaKey_spec cert key hkey
  have hk : 12 ≤ key.k := by
    have hvalid := hwf.valid
    simp only [RsaPublicKey.valid, decide_eq_true_eq] at hvalid
    omega
  refine ⟨fun em rng' hpad => ?_, pad_refused hk msg rng⟩
  obtain ⟨hlen, hlt, out, hout, hop⟩ := rsaEncrypt_spec hwf hpad
  have hdec : ∀ m < key.n.toNat, (m ^ key.e.toNat % key.n.toNat) ^ d % key.n.toNat = m := by
    intro m hm
    rw [← Nat.pow_mod, hd m hm]
  obtain ⟨hem, hunpad⟩ :=
    @decrypted key hwf (fun c => c ^ d % key.n.toNat) hdec msg em out rng rng' hpad hout
  obtain ⟨ps, hshape, -, hps, hne⟩ := pad_shape hpad
  refine ⟨hlt, out, hout, hop.length, hop.value, hop.computed, ⟨ps, ?_, hps, hne⟩, ?_⟩
  · rw [hem, hshape]
  · rw [hem, hunpad]

theorem premaster_recovered_mersenne :
    ∃ out, rsaEncryptPkcs1v15 mersenneKey (List.replicate 48 7) [fun _ => 1] = (some out, []) ∧
      unpad (bytes mersenneKey.k (value out ^ mersenneExponent % mersenneKey.n.toNat)) =
        some (List.replicate 48 7) := by
  obtain ⟨-, out, hout, -, -, -, -, hback⟩ :=
    (premaster_recovered mersenneKey_certified mersenneKey_inverts (List.replicate 48 7)
      [fun _ => 1]).1 _ [] rfl
  exact ⟨out, hout, hback⟩

end Ilo2.Tls
