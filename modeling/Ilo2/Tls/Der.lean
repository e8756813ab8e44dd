import Ilo2.Lib.Checked
import Ilo2.Crypto.Rsa

/-!
# The public key in a certificate

`der.hpp`: just enough DER to find an RSA key.  Pointers into the certificate are
offsets; a read outside of it is a fault, a `return false` refuses.

* `parseCertificateRsaKey_spec` - **the key it returns is valid, and its modulus has
  exactly `k` significant bytes**.
-/

namespace Ilo2.Tls.Der

open Crypto Checked

/-- A read at an offset outside the certificate. -/
structure Fault where
  offset : Nat
deriving DecidableEq

abbrev DerM := Guarded Fault

def TAG_INTEGER : UInt8 := 0x02
def TAG_BIT_STRING : UInt8 := 0x03
def TAG_OID : UInt8 := 0x06
def TAG_SEQUENCE : UInt8 := 0x30

/-- `rsaEncryption`, the content bytes of its object identifier. -/
def OID_RSA_ENCRYPTION : List UInt8 := [0x2A, 0x86, 0x48, 0x86, 0xF7, 0x0D, 0x01, 0x01, 0x01]

def byteAt (cert : List UInt8) (p : Nat) : DerM UInt8 :=
  match cert[p]? with
  | some b => pure b
  | none => OptionT.lift (.error ⟨p⟩)

/-- The `n` bytes from offset `p` on. -/
def bytesAt (cert : List UInt8) : (p n : Nat) → DerM (List UInt8)
  | _, 0 => pure []
  | p, n + 1 => do
      let b ← byteAt cert p
      let bs ← bytesAt cert (p + 1) n
      pure (b :: bs)

/-- `end` is one past the whole element. -/
structure Element where
  tag : UInt8
  content : Nat
  len : Nat
  stop : Nat
deriving DecidableEq

/-- The end of `parse`: the content must lie before the limit. -/
def element (tag : UInt8) (p limit len : Nat) : DerM Element := do
  guard (len ≤ limit - p)
  pure ⟨tag, p, len, p + len⟩

/-- `parse`: one element at `p`, without reading at or beyond `limit`. -/
def parse (cert : List UInt8) (p limit : Nat) : DerM Element := do
  guard (p < limit)
  let tag ← byteAt cert p
  guard (tag &&& 0x1F ≠ 0x1F)
  guard (p + 1 < limit)
  let first ← byteAt cert (p + 1)
  if first = 0x80 then failure
  else if first &&& 0x80 ≠ 0 then do
    let nbytes := (first &&& 0x7F).toNat
    guard (1 ≤ nbytes ∧ nbytes ≤ 4)
    guard (nbytes ≤ limit - (p + 2))
    let bs ← bytesAt cert (p + 2) nbytes
    element tag (p + 2 + nbytes) limit (bs.foldl (fun len b => len <<< 8 ||| b.toNat) 0)
  else element tag (p + 2) limit first.toNat

/-- The children of an element that are still to come. -/
structure Iter where
  p : Nat
  limit : Nat

def Element.iter (e : Element) : Iter := ⟨e.content, e.content + e.len⟩

def Iter.next (cert : List UInt8) (it : Iter) : DerM (Element × Iter) := do
  guard (it.p < it.limit)
  let e ← parse cert it.p it.limit
  pure (e, { it with p := e.stop })

def isOid (cert : List UInt8) (e : Element) (oid : List UInt8) : DerM Bool :=
  if e.tag = TAG_OID ∧ e.len = oid.length then do
    let bs ← bytesAt cert e.content e.len
    pure (bs = oid)
  else pure false

/-- `trim_leading_zeros`: the start and the length of what is left. -/
def trimLeadingZeros (cert : List UInt8) : (p len : Nat) → DerM (Nat × Nat)
  | p, len + 2 => do
      let b ← byteAt cert p
      if b = 0 then trimLeadingZeros cert (p + 1) (len + 1) else pure (p, len + 2)
  | p, len => pure (p, len)

/-- The end of `parse_spki_rsa`: the key that two `INTEGER`s make. -/
def rsaKey (cert : List UInt8) (nInt eInt : Element) : DerM RsaPublicKey := do
  let (np, nlen) ← trimLeadingZeros cert nInt.content nInt.len
  let (ep, elen) ← trimLeadingZeros cert eInt.content eInt.len
  guard (nlen ≠ 0 ∧ nlen ≤ RsaInt.BYTES)
  guard (elen ≠ 0 ∧ elen ≤ 4)
  let es ← bytesAt cert ep elen
  let ns ← bytesAt cert np nlen
  match BigInt.fromBytes 64 ns with
  | none => failure
  | some n =>
      let key : RsaPublicKey := ⟨n, es.foldl (fun e b => e <<< 8 ||| b.toUInt32) 0, nlen⟩
      guard key.valid
      pure key

/-- `parse_spki_rsa`: the key of a `SubjectPublicKeyInfo`. -/
def parseSpkiRsa (cert : List UInt8) (spki : Element) : DerM RsaPublicKey := do
  guard (spki.tag = TAG_SEQUENCE)
  let (alg, it) ← spki.iter.next cert
  guard (alg.tag = TAG_SEQUENCE)
  let (oid, _) ← alg.iter.next cert
  guard (← isOid cert oid OID_RSA_ENCRYPTION)
  let (bits, _) ← it.next cert
  guard (bits.tag = TAG_BIT_STRING)
  guard (2 ≤ bits.len)
  guard ((← byteAt cert bits.content) = 0)
  let rsa ← parse cert (bits.content + 1) bits.stop
  guard (rsa.tag = TAG_SEQUENCE)
  let (nInt, rsaIt) ← rsa.iter.next cert
  guard (nInt.tag = TAG_INTEGER)
  let (eInt, _) ← rsaIt.next cert
  guard (eInt.tag = TAG_INTEGER)
  rsaKey cert nInt eInt

/-- The loop over the children of `tbsCertificate`.  An element has two bytes at least, so
there are no more rounds than bytes. -/
def scan (cert : List UInt8) : (rounds : Nat) → Iter → DerM RsaPublicKey
  | 0, _ => failure
  | rounds + 1, it => do
      let (child, it) ← it.next cert
      if child.tag ≠ TAG_SEQUENCE then scan cert rounds it
      else parseSpkiRsa cert child <|> scan cert rounds it

/-- `parse_certificate_rsa_key`: the first child shaped like a `SubjectPublicKeyInfo`. -/
def parseCertificateRsaKey (cert : List UInt8) : DerM RsaPublicKey := do
  guard (cert.length ≠ 0)
  let top ← parse cert 0 cert.length
  guard (top.tag = TAG_SEQUENCE)
  let (tbs, _) ← top.iter.next cert
  guard (tbs.tag = TAG_SEQUENCE)
  scan cert cert.length tbs.iter

/-! ### The key -/

variable {cert : List UInt8}

/-- The modulus takes `k` bytes, no more and no less. -/
structure WellFormed (key : RsaPublicKey) : Prop where
  valid : key.valid
  lower : 256 ^ (key.k - 1) ≤ key.n.toNat
  upper : key.n.toNat < 256 ^ key.k

theorem length_bytesAt {p n : Nat} {bs : List UInt8} (h : (bytesAt cert p n).Yields bs) :
    bs.length = n := by
  induction n generalizing p bs with
  | zero =>
      rw [bytesAt, Guarded.yields_pure] at h
      rw [← h]
      rfl
  | succ n ih =>
      simp only [bytesAt, Guarded.yields_bind, Guarded.yields_pure] at h
      obtain ⟨b, -, tail, htail, rfl⟩ := h
      rw [List.length_cons, ih htail]

/-- What is trimmed starts with a byte that is not 0, unless it is a single byte. -/
theorem trimLeadingZeros_head {p len q m : Nat}
    (h : (trimLeadingZeros cert p len).Yields (q, m)) (hm : 2 ≤ m) :
    ∃ b, (byteAt cert q).Yields b ∧ b ≠ 0 := by
  induction p, len using trimLeadingZeros.induct with
  | case1 p len ih =>
      simp only [trimLeadingZeros, Guarded.yields_bind] at h
      obtain ⟨b, hb, h⟩ := h
      split at h
      · exact ih h
      · rename_i hne
        rw [Guarded.yields_pure] at h
        cases h
        exact ⟨b, hb, hne⟩
  | case2 p len hlen =>
      have hstop : trimLeadingZeros cert p len = pure (p, len) := by
        rw [trimLeadingZeros]
        exact hlen
      rw [hstop, Guarded.yields_pure] at h
      cases h
      exact (hlen (m - 2) (by omega)).elim

/-- The bytes at an offset start with the byte there. -/
theorem bytesAt_cons {p n : Nat} {bs : List UInt8} {b : UInt8}
    (h : (bytesAt cert p n).Yields bs) (hb : (byteAt cert p).Yields b) (hn : n ≠ 0) :
    ∃ tail, bs = b :: tail := by
  cases n with
  | zero => exact absurd rfl hn
  | succ n =>
      simp only [bytesAt, Guarded.yields_bind, Guarded.yields_pure] at h
      obtain ⟨b', hb', tail, -, rfl⟩ := h
      have hsame : b' = b := by
        unfold Guarded.Yields at hb hb'
        rw [hb] at hb'
        cases hb'
        rfl
      exact ⟨tail, by rw [hsame]⟩

theorem rsaKey_wellFormed (nInt eInt : Element) : (rsaKey cert nInt eInt).Ensures WellFormed := by
  intro key h
  simp only [rsaKey, Guarded.yields_bind, Guarded.yields_guard, Prod.exists] at h
  obtain ⟨np, nlen, htrim, ep, elen, -, -, -, -, -, es, -, ns, hns, h⟩ := h
  split at h
  · rw [Guarded.yields_failure] at h
    exact h.elim
  · rename_i n hn
    simp only [Guarded.yields_bind, Guarded.yields_guard, Guarded.yields_pure] at h
    obtain ⟨-, hvalid, rfl⟩ := h
    have hlen := length_bytesAt hns
    have hk : 64 ≤ nlen := by
      simp only [RsaPublicKey.valid, decide_eq_true_eq] at hvalid
      exact hvalid.1
    obtain ⟨b, hb, hne⟩ := trimLeadingZeros_head htrim (by omega)
    obtain ⟨tail, rfl⟩ := bytesAt_cons hns hb (by omega)
    have hval := BigInt.toNat_fromBytes hn
    rw [List.length_cons] at hlen
    refine ⟨hvalid, ?_, ?_⟩
    · have hpos : 1 ≤ b.toNat := Nat.pos_of_ne_zero fun h => hne (UInt8.toNat_inj.mp h)
      show 256 ^ (nlen - 1) ≤ n.toNat
      rw [hval, BigEndian.value_cons, ← hlen, Nat.add_sub_cancel]
      exact Nat.le_add_right_of_le (Nat.le_mul_of_pos_left _ hpos)
    · show n.toNat < 256 ^ nlen
      rw [hval, ← hlen, ← List.length_cons]
      exact BigEndian.value_lt _

theorem parseSpkiRsa_wellFormed (spki : Element) :
    (parseSpkiRsa cert spki).Ensures WellFormed :=
  -- whatever was checked before, a key comes out of `rsaKey` only
  .bind fun _ => .bind fun (_, _) => .bind fun _ => .bind fun (_, _) => .bind fun _ =>
    .bind fun _ => .bind fun (_, _) => .bind fun _ => .bind fun _ => .bind fun _ =>
      .bind fun _ => .bind fun _ => .bind fun _ => .bind fun (nInt, _) => .bind fun _ =>
        .bind fun (eInt, _) => .bind fun _ => rsaKey_wellFormed nInt eInt

theorem scan_wellFormed (rounds : Nat) (it : Iter) :
    (scan cert rounds it).Ensures WellFormed := by
  induction rounds generalizing it with
  | zero => exact .failure
  | succ rounds ih =>
      refine .bind fun (child, it) => ?_
      dsimp only
      split
      · exact ih it
      · exact .orElse (parseSpkiRsa_wellFormed child) (ih it)

/-- **The key of a certificate.**  It is valid, and `k` is the length of its modulus. -/
theorem parseCertificateRsaKey_spec (cert : List UInt8) :
    (parseCertificateRsaKey cert).Ensures WellFormed :=
  .bind fun _ => .bind fun _ => .bind fun _ => .bind fun (_, _) => .bind fun _ =>
    scan_wellFormed _ _

end Ilo2.Tls.Der
