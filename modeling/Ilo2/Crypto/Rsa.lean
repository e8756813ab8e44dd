import Ilo2.Crypto.BigInt

/-!
# RSA encryption

`random.hpp` and `rsa.hpp`: PKCS#1 v1.5 padding of type 2 and the public operation.

* `pad_shape` - what the padding looks like when it succeeds.
* `rsaPublicOp_spec` - **the output is `m ^ e % n`, in `k` bytes**.
-/

namespace Ilo2.Crypto

/-- The system's random source: its answers to the calls to come, each one a function that
fills a buffer.  The call after the last of them fails. -/
abbrev Rng := List (Nat → UInt8)

/-- `secure_random`: the bytes, if the system gives them, and the source after that. -/
def secureRandom (len : Nat) (rng : Rng) : Option (List UInt8) × Rng :=
  if len = 0 then (some [], rng) else
  match rng with
  | [] => (none, [])
  | f :: rng => (some ((List.range len).map f), rng)

abbrev RsaInt := BigInt 64

def RsaInt.BYTES : Nat := BigInt.BYTES 64

structure RsaPublicKey where
  n : RsaInt := BigInt.zero 64
  e : UInt32 := 0
  k : Nat := 0
deriving DecidableEq

def RsaPublicKey.valid (key : RsaPublicKey) : Bool :=
  key.k ≥ 64 ∧ key.k ≤ RsaInt.BYTES ∧ key.e ≥ 3 ∧ ¬ key.n.isZero

/-! ### Padding -/

/-- `while (b == 0) secure_random(&b, 1)`. -/
def resample : UInt8 → Rng → Option UInt8 × Rng
  | b, [] => (if b = 0 then none else some b, [])
  | b, f :: rng => if b = 0 then resample (f 0) rng else (some b, f :: rng)

/-- The loop over the padding string: no byte of it may be 0. -/
def fixPadding : List UInt8 → Rng → Option (List UInt8) × Rng
  | [], rng => (some [], rng)
  | b :: bs, rng =>
      match resample b rng with
      | (none, rng) => (none, rng)
      | (some b, rng) =>
          match fixPadding bs rng with
          | (none, rng) => (none, rng)
          | (some bs, rng) => (some (b :: bs), rng)

/-- `pkcs1v15_pad_type2`: `EM = 00 02 PS 00 M`, `k` bytes in all. -/
def pkcs1v15PadType2 (k : Nat) (msg : List UInt8) (rng : Rng) : Option (List UInt8) × Rng :=
  if k < 12 ∨ msg.length + 11 > k then (none, rng) else
  match secureRandom (k - msg.length - 3) rng with
  | (none, rng) => (none, rng)
  | (some ps, rng) =>
      match fixPadding ps rng with
      | (none, rng) => (none, rng)
      | (some ps, rng) => (some (0x00 :: 0x02 :: (ps ++ 0x00 :: msg)), rng)

/-! ### Encryption -/

/-- `rsa_public_op`: `m^e mod n` as exactly `k` bytes. -/
def rsaPublicOp (key : RsaPublicKey) (inp : List UInt8) : Option (List UInt8) :=
  if ¬ key.valid then none else
  match BigInt.fromBytes 64 inp with
  | none => none
  | some m =>
      match BigInt.modexpU32 m key.e key.n with
      | none => none
      | some c => some (c.toBytes.drop (RsaInt.BYTES - key.k))

/-- `rsa_encrypt_pkcs1v15`: the padding, then the public operation. -/
def rsaEncryptPkcs1v15 (key : RsaPublicKey) (msg : List UInt8) (rng : Rng) :
    Option (List UInt8) × Rng :=
  if ¬ key.valid then (none, rng) else
  match pkcs1v15PadType2 key.k msg rng with
  | (none, rng) => (none, rng)
  | (some em, rng) => (rsaPublicOp key em, rng)

/-! ### The padding -/

theorem length_secureRandom {len : Nat} {rng rng' : Rng} {bs : List UInt8}
    (h : secureRandom len rng = (some bs, rng')) : bs.length = len := by
  unfold secureRandom at h
  split at h
  · rename_i hlen
    cases h
    exact hlen.symm
  · split at h
    · cases h
    · cases h
      simp

theorem resample_ne_zero {rng rng' : Rng} {b b' : UInt8} (h : resample b rng = (some b', rng')) :
    b' ≠ 0 := by
  induction rng generalizing b with
  | nil =>
      simp only [resample] at h
      split at h
      · cases h
      · cases h
        assumption
  | cons f rng ih =>
      unfold resample at h
      split at h
      · exact ih h
      · cases h
        assumption

/-- An answer that ends the resampling of a byte. -/
def ends (f : Nat → UInt8) : Bool := f 0 ≠ 0

/-- Resampling uses up the answers to the first that is not 0. -/
theorem countP_resample {rng rng' : Rng} {b : UInt8} (h : resample 0 rng = (some b, rng')) :
    rng.countP ends = rng'.countP ends + 1 := by
  induction rng with
  | nil => cases h
  | cons f rng ih =>
      simp only [resample, if_true] at h
      by_cases hf : f 0 = 0
      · rw [hf] at h
        rw [List.countP_cons_of_neg (by simp [ends, hf]), ih h]
      · cases rng with
        | nil =>
            rw [resample, if_neg hf] at h
            cases h
            simp [ends, hf]
        | cons g rng =>
            rw [resample, if_neg hf] at h
            cases h
            rw [List.countP_cons_of_pos (by simp [ends, hf])]

/-- It fails if there is none. -/
theorem resample_none {rng rng' : Rng} (h : resample 0 rng = (none, rng')) :
    rng.countP ends = 0 := by
  induction rng with
  | nil => rfl
  | cons f rng ih =>
      simp only [resample, if_true] at h
      by_cases hf : f 0 = 0
      · rw [hf] at h
        rw [List.countP_cons_of_neg (by simp [ends, hf]), ih h]
      · cases rng with
        | nil =>
            rw [resample, if_neg hf] at h
            cases h
        | cons g rng =>
            rw [resample, if_neg hf] at h
            cases h

theorem resample_of_ne {b : UInt8} (h : b ≠ 0) (rng : Rng) : resample b rng = (some b, rng) := by
  cases rng with
  | nil => rw [resample, if_neg h]
  | cons f rng => rw [resample, if_neg h]

/-- The padding string is fixed as long as the source has an answer for every 0 in it. -/
theorem fixPadding_isSome {ps : List UInt8} {rng : Rng} :
    (fixPadding ps rng).1.isSome ↔ ps.count 0 ≤ rng.countP ends := by
  induction ps generalizing rng with
  | nil => simp [fixPadding]
  | cons b ps ih =>
      by_cases hb : b = 0
      · subst hb
        rw [fixPadding, List.count_cons_self]
        rcases h : resample 0 rng with ⟨c | c, rng'⟩
        · simp [resample_none h]
        · have hcount := countP_resample h
          have hrest := @ih rng'
          dsimp only
          rcases hfix : fixPadding ps rng' with ⟨qs | qs, rng''⟩ <;> rw [hfix] at hrest <;>
            simp at hrest ⊢ <;> omega
      · rw [fixPadding, resample_of_ne hb, List.count_cons_of_ne hb]
        have hrest := @ih rng
        dsimp only
        rcases hfix : fixPadding ps rng with ⟨qs | qs, rng''⟩ <;> rw [hfix] at hrest <;>
          simp at hrest ⊢ <;> omega

/-- The bytes of the padding are as many as before, and none of them is 0. -/
theorem fixPadding_spec {ps : List UInt8} : ∀ {rng rng' : Rng} {qs : List UInt8},
    fixPadding ps rng = (some qs, rng') → qs.length = ps.length ∧ ∀ b ∈ qs, b ≠ 0 := by
  induction ps with
  | nil =>
      intro rng rng' qs h
      cases h
      simp
  | cons b bs ih =>
      intro rng rng' qs h
      unfold fixPadding at h
      split at h
      · cases h
      · rename_i b' rng₁ hb
        split at h
        · cases h
        · rename_i bs' rng₂ hbs
          cases h
          obtain ⟨hlen, hne⟩ := ih hbs
          refine ⟨by simp [hlen], fun c hc => ?_⟩
          rcases List.mem_cons.mp hc with rfl | hc
          · exact resample_ne_zero hb
          · exact hne c hc

/-- What the padding looks like. -/
theorem pad_shape {k : Nat} {msg em : List UInt8} {rng rng' : Rng}
    (h : pkcs1v15PadType2 k msg rng = (some em, rng')) :
    ∃ ps : List UInt8, em = 0x00 :: 0x02 :: (ps ++ 0x00 :: msg) ∧ ps.length + msg.length + 3 = k ∧
      8 ≤ ps.length ∧ ∀ b ∈ ps, b ≠ 0 := by
  unfold pkcs1v15PadType2 at h
  split at h
  · cases h
  rename_i hk
  split at h
  · cases h
  rename_i ps rng₁ hps
  split at h
  · cases h
  rename_i qs rng₂ hqs
  cases h
  obtain ⟨hlen, hne⟩ := fixPadding_spec hqs
  rw [length_secureRandom hps] at hlen
  refine ⟨qs, rfl, ?_, ?_, hne⟩
  · omega
  · omega

/-! ### The public operation -/

/-- The bytes above the last `k` of a number that fits in `k` bytes are 0. -/
theorem bytes_of_lt {k m v : Nat} (hk : k ≤ m) (hv : v < 256 ^ k) :
    BigEndian.bytes m v = List.replicate (m - k) 0 ++ BigEndian.bytes k v := by
  induction k generalizing m v with
  | zero =>
      rw [Nat.pow_zero] at hv
      rw [Nat.lt_one_iff.mp hv, Nat.sub_zero]
      induction m with
      | zero => rfl
      | succ m ih =>
          have hm := ih (Nat.zero_le m)
          simp only [BigEndian.bytes, List.append_nil, Nat.zero_div] at hm ⊢
          rw [hm, List.replicate_succ']
          rfl
  | succ k ih =>
      cases m with
      | zero => omega
      | succ m =>
          rw [Nat.pow_succ] at hv
          rw [BigEndian.bytes, BigEndian.bytes, Nat.succ_sub_succ, ih (by omega) (by omega),
            List.append_assoc]

/-- What the public operation computes of an input that fits. -/
structure PublicOp (key : RsaPublicKey) (inp out : List UInt8) : Prop where
  computed : ∃ m c, BigInt.fromBytes 64 inp = some m ∧
    BigInt.modexpU32 m key.e key.n = some c ∧
    c.toBytes = List.replicate (RsaInt.BYTES - key.k) 0 ++ out
  length : out.length = key.k
  value : BigEndian.value out = BigEndian.value inp ^ key.e.toNat % key.n.toNat

/-- **The public operation.**  Of an input that fits, it is `m ^ e % n` in `k` bytes; the
bytes that it drops are 0. -/
theorem rsaPublicOp_spec {key : RsaPublicKey} (hvalid : key.valid)
    (hn : key.n.toNat < 256 ^ key.k) {inp : List UInt8} (hlen : inp.length ≤ RsaInt.BYTES) :
    ∃ out, rsaPublicOp key inp = some out ∧ PublicOp key inp out := by
  have hv := hvalid
  simp only [RsaPublicKey.valid, decide_eq_true_eq] at hv
  obtain ⟨-, hk, he, hz⟩ := hv
  have he0 : key.e ≠ 0 := by
    intro h
    rw [h] at he
    exact absurd he (by decide)
  have hn0 : key.n.toNat ≠ 0 := fun h => hz (BigInt.isZero_iff.mpr h)
  obtain ⟨m, hm⟩ := BigInt.fromBytes_isSome (L := 64) hlen
  obtain ⟨c, hc, hval⟩ := BigInt.toNat_modexpU32 m he0 hn0
  rw [BigInt.toNat_fromBytes hm] at hval
  have hlt : c.toNat < 256 ^ key.k := by
    rw [hval]
    exact Nat.lt_trans (Nat.mod_lt _ (Nat.pos_of_ne_zero hn0)) hn
  have hbytes : c.toBytes =
      List.replicate (RsaInt.BYTES - key.k) 0 ++ BigEndian.bytes key.k c.toNat := by
    rw [BigInt.toBytes_eq]
    exact bytes_of_lt hk hlt
  refine ⟨BigEndian.bytes key.k c.toNat, ?_, ⟨m, c, hm, hc, hbytes⟩, BigEndian.length_bytes _ _, ?_⟩
  · unfold rsaPublicOp
    rw [if_neg (by simp [hvalid]), hm]
    dsimp only
    rw [hc]
    dsimp only
    rw [hbytes, List.drop_left' List.length_replicate]
  · rw [BigEndian.value_bytes hlt, hval]

end Ilo2.Crypto
