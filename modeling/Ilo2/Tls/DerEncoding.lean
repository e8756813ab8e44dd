import Ilo2.Tls.DerSafety
import Ilo2.Lib.Text

/-!
# Certificates

An element may be written with its length in short form, or in one to four bytes (`Tlv`).
`Certificate n e` says which texts are certificates of the RSA key `n`, `e`, as far as they
matter: the key is in the first child of `tbsCertificate` that begins like a
`SubjectPublicKeyInfo`, whatever stands before and behind it.

* `parse_of_tlv` - an element that is written is parsed; `tlv_of_parse` is the converse.
* `parseSpkiRsa_refuses` - other children do not give a key.
* `certificate_key` - **the key of a certificate is found**.
-/

namespace Ilo2.Tls.Der

open Crypto Checked Guarded Text

/-! ### The encoding -/

/-- The ways of writing a length. -/
inductive Length (n : Nat) : List UInt8 → Prop
  | short : n < 128 → Length n [n.toUInt8]
  | long {k : Nat} : 1 ≤ k → k ≤ 4 → n < 256 ^ k →
      Length n ((0x80 + k).toUInt8 :: BigEndian.bytes k n)

/-- An element with a low tag number. -/
def Tlv (tag : UInt8) (content bs : List UInt8) : Prop :=
  tag &&& 0x1F ≠ 0x1F ∧ ∃ length, Length content.length length ∧ bs = tag :: (length ++ content)

/-- What begins with a `SEQUENCE` whose first element is the `rsaEncryption` OID. -/
def BeginsRsa (content : List UInt8) : Prop :=
  ∃ alg algContent oid, alg <+: content ∧ Tlv TAG_SEQUENCE algContent alg ∧
    oid <+: algContent ∧ Tlv TAG_OID OID_RSA_ENCRYPTION oid

/-- A child of `tbsCertificate` in which no key is sought. -/
def Sibling (bs : List UInt8) : Prop :=
  ∃ tag content, Tlv tag content bs ∧ ¬ (tag = TAG_SEQUENCE ∧ BeginsRsa content)

/-- A certificate of the modulus `n` and the exponent `e`.  An `INTEGER` may begin with
zeros, one of them the pad of a number whose top bit is set. -/
inductive Certificate (n e : Nat) : List UInt8 → Prop
  | mk {oid params alg nBytes nInt eBytes eInt rsa bits spki more tbs others cert : List UInt8}
      {siblings : List (List UInt8)} :
      Tlv TAG_OID OID_RSA_ENCRYPTION oid → Tlv TAG_SEQUENCE (oid ++ params) alg →
      BigEndian.value nBytes = n → Tlv TAG_INTEGER nBytes nInt →
      BigEndian.value eBytes = e → Tlv TAG_INTEGER eBytes eInt →
      Tlv TAG_SEQUENCE (nInt ++ eInt) rsa → Tlv TAG_BIT_STRING (0x00 :: rsa) bits →
      Tlv TAG_SEQUENCE (alg ++ bits) spki → (∀ s ∈ siblings, Sibling s) →
      Tlv TAG_SEQUENCE (siblings.flatten ++ (spki ++ more)) tbs →
      Tlv TAG_SEQUENCE (tbs ++ others) cert → Certificate n e cert

variable {cert bs as content : List UInt8} {p q limit len m n : Nat} {e child : Element}
  {it it' : Iter} {tag : UInt8} {out : RsaPublicKey}

/-! ### Bytes where they stand -/

theorem stands_append :
    Stands (as ++ bs) cert p ↔ Stands as cert p ∧ Stands bs cert (p + as.length) := by
  unfold Stands
  constructor
  · rintro ⟨t, ht⟩
    rw [← List.drop_drop, ← ht, List.append_assoc, List.drop_left]
    exact ⟨List.prefix_append _ _, List.prefix_append _ _⟩
  · rintro ⟨⟨t, ht⟩, h⟩
    rw [← List.drop_drop, ← ht, List.drop_left] at h
    rw [← ht]
    exact (List.prefix_append_right_inj as).mpr h

theorem stands_cons {b : UInt8} :
    Stands (b :: bs) cert p ↔ Stands [b] cert p ∧ Stands bs cert (p + 1) := by
  have h : Stands ([b] ++ bs) cert p ↔ _ := stands_append
  exact h

theorem byteAt_of_stands {b : UInt8} (h : Stands (b :: bs) cert p) : (byteAt cert p).Yields b := by
  obtain ⟨t, ht⟩ := h
  have hget : cert[p]? = some b := by
    rw [← Nat.add_zero p, ← List.getElem?_drop, ← ht]
    rfl
  unfold byteAt
  rw [hget]
  exact yields_pure.mpr rfl

theorem bytesAt_of_stands : ∀ {bs : List UInt8} {p : Nat}, Stands bs cert p →
    (bytesAt cert p bs.length).Yields bs := by
  intro bs
  induction bs with
  | nil => intro p _; exact yields_pure.mpr rfl
  | cons b bs ih =>
      intro p h
      have htail := stands_cons.mp h
      rw [List.length_cons, bytesAt]
      exact yields_bind.mpr ⟨b, byteAt_of_stands h,
        yields_bind.mpr ⟨bs, ih htail.2, yields_pure.mpr rfl⟩⟩

/-- What is read stands there. -/
theorem stands_of_byteAt {b : UInt8} (h : (byteAt cert p).Yields b) : Stands [b] cert p := by
  unfold byteAt at h
  split at h
  · rename_i b' hb
    rw [yields_pure] at h
    subst h
    have hlt : p < cert.length := (List.getElem?_eq_some_iff.mp hb).1
    refine ⟨cert.drop (p + 1), ?_⟩
    rw [List.drop_eq_getElem_cons hlt, (List.getElem?_eq_some_iff.mp hb).2]
    rfl
  · cases h

theorem stands_of_bytesAt : ∀ {n p : Nat} {bs : List UInt8}, (bytesAt cert p n).Yields bs →
    Stands bs cert p := by
  intro n
  induction n with
  | zero =>
      intro p bs h
      rw [bytesAt, yields_pure] at h
      rw [← h]
      exact List.nil_prefix
  | succ n ih =>
      intro p bs h
      simp only [bytesAt, yields_bind, yields_pure] at h
      obtain ⟨b, hb, tail, htail, rfl⟩ := h
      exact stands_cons.mpr ⟨stands_of_byteAt hb, ih htail⟩

/-! ### Elements -/

theorem foldl_length (bs : List UInt8) (acc : Nat) :
    bs.foldl (fun len b => len <<< 8 ||| b.toNat) acc =
      bs.foldl (fun v b => v * 256 + b.toNat) acc := by
  induction bs generalizing acc with
  | nil => rfl
  | cons b bs ih =>
      rw [List.foldl_cons, List.foldl_cons, ih, ← Nat.shiftLeft_add_eq_or_of_lt b.toNat_lt,
        Nat.shiftLeft_eq]

/-- Where an element is found. -/
structure Found (cert : List UInt8) (tag : UInt8) (content : List UInt8) (stop : Nat)
    (e : Element) : Prop where
  tag : e.tag = tag
  len : e.len = content.length
  stop : e.stop = stop
  ends : e.content + e.len = e.stop
  content : Stands content cert e.content

theorem found_element (hs : Stands content cert p) (hlimit : p + content.length ≤ limit) :
    ∃ e, (element tag p limit content.length : DerM Element).Yields e ∧
      Found cert tag content (p + content.length) e := by
  refine ⟨⟨tag, p, content.length, p + content.length⟩, ?_, rfl, rfl, rfl, rfl, hs⟩
  exact yields_bind.mpr ⟨(), yields_guard.mpr (by omega), yields_pure.mpr rfl⟩

/-- `parse` after its first two bytes. -/
theorem parse_eq {first : UInt8} (htag : (byteAt cert p).Yields tag) (hlow : tag &&& 0x1F ≠ 0x1F)
    (hfirst : (byteAt cert (p + 1)).Yields first) (hlimit : p + 1 < limit) :
    parse cert p limit =
      if first = 0x80 then failure
      else if first &&& 0x80 ≠ 0 then do
        let nbytes := (first &&& 0x7F).toNat
        guard (1 ≤ nbytes ∧ nbytes ≤ 4)
        guard (nbytes ≤ limit - (p + 2))
        let bs ← bytesAt cert (p + 2) nbytes
        element tag (p + 2 + nbytes) limit (bs.foldl (fun len b => len <<< 8 ||| b.toNat) 0)
      else element tag (p + 2) limit first.toNat := by
  rw [parse, guard_bind, if_pos (by omega), bind_of_yields htag, guard_bind, if_pos hlow, guard_bind,
    if_pos hlimit, bind_of_yields hfirst]

theorem short_first :
    ∀ n < 128, n.toUInt8 ≠ 0x80 ∧ n.toUInt8 &&& 0x80 = 0 ∧ n.toUInt8.toNat = n := by
  decide +kernel

theorem long_first : ∀ k ≤ 4, 1 ≤ k → (0x80 + k).toUInt8 ≠ 0x80 ∧ (0x80 + k).toUInt8 &&& 0x80 ≠ 0 ∧
    ((0x80 + k).toUInt8 &&& 0x7F).toNat = k := by decide +kernel

/-- **An element that is written** is parsed. -/
theorem parse_of_tlv (limit : Nat) (h : Tlv tag content bs) (hs : Stands bs cert p)
    (hlimit : p + bs.length ≤ limit) :
    ∃ e, (parse cert p limit).Yields e ∧ Found cert tag content (p + bs.length) e := by
  obtain ⟨hlow, length, hlength, rfl⟩ := h
  have htag := byteAt_of_stands hs
  obtain ⟨hsl, hsc⟩ := stands_append.mp (stands_cons.mp hs).2
  rw [List.length_cons, List.length_append] at hlimit ⊢
  cases hlength with
  | short hn =>
      obtain ⟨hne, hbit, hval⟩ := short_first _ hn
      rw [List.length_singleton] at hsc hlimit ⊢
      rw [parse_eq htag hlow (byteAt_of_stands hsl) (by omega), if_neg hne, if_neg (not_not.mpr hbit),
        hval, show p + (1 + content.length + 1) = p + 2 + content.length by omega]
      exact found_element hsc (by omega)
  | @long k hk hk4 hn =>
      obtain ⟨hne, hbit, hval⟩ := long_first k hk4 hk
      have hbytes := (stands_cons.mp hsl).2
      rw [List.length_cons, BigEndian.length_bytes] at hsc hlimit ⊢
      have hread := bytesAt_of_stands hbytes
      rw [BigEndian.length_bytes] at hread
      rw [parse_eq htag hlow (byteAt_of_stands hsl) (by omega), if_neg hne, if_pos hbit]
      dsimp only
      rw [hval, guard_bind, if_pos ⟨hk, hk4⟩, guard_bind, if_pos (by omega), bind_of_yields hread,
        foldl_length, ← BigEndian.value, BigEndian.value_bytes hn,
        show p + (k + 1 + content.length + 1) = p + 2 + k + content.length by omega]
      exact found_element (by rwa [show p + 2 + k = p + 1 + (k + 1) by omega]) (by omega)

theorem first_short : ∀ v < 256, v.toUInt8 &&& 0x80 = 0 → v < 128 := by decide +kernel

theorem first_long : ∀ v < 256, v.toUInt8 &&& 0x80 ≠ 0 →
    v = 0x80 + (v.toUInt8 &&& 0x7F).toNat := by decide +kernel

/-- The content of an element that was parsed. -/
theorem found_of_element (h : (element tag p limit len : DerM Element).Yields e)
    (hp : p ≤ limit) (hcert : limit ≤ cert.length) :
    ∃ content, content.length = len ∧ Found cert tag content (p + len) e := by
  simp only [element, yields_bind, yields_guard, yields_pure, exists_const] at h
  obtain ⟨hlen, rfl⟩ := h
  have htake : ((cert.drop p).take len).length = len := by
    rw [List.length_take, List.length_drop]
    omega
  exact ⟨(cert.drop p).take len, htake, rfl, htake.symm, rfl, rfl, List.take_prefix _ _⟩

/-- An element is put together from what stands behind each other. -/
theorem tlv_found {length : List UInt8} {e : Element} (hlow : e.tag &&& 0x1F ≠ 0x1F)
    (hlength : Length content.length length) (htag : Stands [e.tag] cert p)
    (hsl : Stands length cert (p + 1))
    (h : Found cert e.tag content (p + (1 + length.length + content.length)) e) :
    ∃ content bs, Tlv e.tag content bs ∧ Stands bs cert p ∧
      Found cert e.tag content (p + bs.length) e := by
  have hstart : e.content = p + 1 + length.length := by
    have h1 := h.ends
    rw [h.len, h.stop] at h1
    omega
  refine ⟨content, e.tag :: (length ++ content), ⟨hlow, length, hlength, rfl⟩, ?_, ?_⟩
  · exact stands_cons.mpr ⟨htag, stands_append.mpr ⟨hsl, hstart ▸ h.content⟩⟩
  · rwa [List.length_cons, List.length_append,
      show length.length + content.length + 1 = 1 + length.length + content.length by omega]

/-- **An element that is parsed** stands there. -/
theorem tlv_of_parse (h : (parse cert p limit).Yields e) (hcert : limit ≤ cert.length) :
    ∃ content bs, Tlv e.tag content bs ∧ Stands bs cert p ∧
      Found cert e.tag content (p + bs.length) e := by
  simp only [parse, yields_bind, yields_guard, exists_const] at h
  obtain ⟨hp, tag, htag, hlow, hp', first, hfirst, h⟩ := h
  have hst := stands_of_byteAt htag
  have hsf := stands_of_byteAt hfirst
  have hback : first.toNat.toUInt8 = first := UInt8.ofNat_toNat
  split at h
  · rw [yields_failure] at h
    exact h.elim
  split at h
  · rename_i hbit
    simp only [yields_bind, yields_guard, exists_const] at h
    obtain ⟨⟨hk, hk4⟩, hn, bs, hbs, h⟩ := h
    have hlen := length_bytesAt hbs
    have hvalue := first_long first.toNat first.toNat_lt (by rwa [hback])
    rw [hback] at hvalue
    rw [← hlen] at hk hk4 h hvalue
    rw [foldl_length, ← BigEndian.value] at h
    obtain ⟨content, hc, hfound⟩ := found_of_element h (by omega) hcert
    obtain rfl := hfound.tag
    have hlength := Length.long hk hk4 (BigEndian.value_lt bs)
    rw [BigEndian.bytes_value, ← hvalue, hback, ← hc] at hlength
    refine tlv_found hlow hlength hst (stands_cons.mpr
      ⟨hsf, stands_of_bytesAt hbs⟩) ?_
    rwa [hc, List.length_cons, show p + (1 + (bs.length + 1) + BigEndian.value bs) =
      p + 2 + bs.length + BigEndian.value bs by omega]
  · rename_i hbit
    obtain ⟨content, hc, hfound⟩ := found_of_element h (by omega) hcert
    obtain rfl := hfound.tag
    have hshort := first_short first.toNat first.toNat_lt (by rw [hback]; exact not_not.mp hbit)
    have hlength := Length.short hshort
    rw [hback, ← hc] at hlength
    refine tlv_found hlow hlength hst hsf ?_
    rwa [hc, List.length_singleton, show p + (1 + 1 + first.toNat) = p + 2 + first.toNat by omega]

theorem next_of_tlv (it : Iter) (h : Tlv tag content bs) (hs : Stands bs cert it.p)
    (hlimit : it.p + bs.length ≤ it.limit) :
    ∃ e, (it.next cert).Yields (e, ⟨it.p + bs.length, it.limit⟩) ∧
      Found cert tag content (it.p + bs.length) e := by
  obtain ⟨e, he, hfound⟩ := parse_of_tlv it.limit h hs hlimit
  have hpos : 0 < bs.length := by
    obtain ⟨-, length, -, rfl⟩ := h
    exact Nat.succ_pos _
  refine ⟨e, yields_bind.mpr ⟨(), yields_guard.mpr (by omega), yields_bind.mpr ⟨e, he, ?_⟩⟩, hfound⟩
  rw [yields_pure, hfound.stop]

theorem tlv_of_next (h : (it.next cert).Yields (e, it')) (hcert : it.limit ≤ cert.length) :
    ∃ content bs, Tlv e.tag content bs ∧ Stands bs cert it.p ∧
      Found cert e.tag content (it.p + bs.length) e := by
  simp only [Iter.next, yields_bind, yields_guard, yields_pure, exists_const, Prod.mk.injEq] at h
  obtain ⟨-, a, ha, rfl, -⟩ := h
  exact tlv_of_parse ha hcert

/-- What stands at the start of a content that is long enough is its start. -/
theorem Found.begins {stop : Nat} (h : Found cert tag content stop e) (hs : Stands bs cert e.content)
    (hle : bs.length ≤ e.len) : bs <+: content :=
  List.prefix_of_prefix_length_le hs h.content (h.len ▸ hle)

/-! ### Other children -/

theorem isOid_yields {oid : List UInt8} (h : (isOid cert e oid).Yields true) :
    e.tag = TAG_OID ∧ e.len = oid.length ∧ Stands oid cert e.content := by
  unfold isOid at h
  split at h
  · rename_i hoid
    simp only [yields_bind, yields_pure, decide_eq_true_eq] at h
    obtain ⟨bs, hbs, rfl⟩ := h
    exact ⟨hoid.1, hoid.2, stands_of_bytesAt hbs⟩
  · rw [yields_pure] at h
    cases h

/-- **A child that does not begin like a key** is refused. -/
theorem parseSpkiRsa_refuses {stop : Nat} (h : Found cert TAG_SEQUENCE content stop child)
    (hcert : child.content + child.len ≤ cert.length) (hnot : ¬ BeginsRsa content) :
    (parseSpkiRsa cert child).run = .ok none := by
  obtain ⟨o, ho⟩ := parseSpkiRsa_safe hcert
  cases o with
  | none => exact ho
  | some key =>
      refine absurd ?_ hnot
      have hkey : (parseSpkiRsa cert child).Yields key := ho
      simp only [parseSpkiRsa, yields_bind, yields_guard, exists_const, Prod.exists] at hkey
      obtain ⟨-, alg, it, halg, hseq, oid, it₁, hoid, isRsa, hisOid, hrsa, -⟩ := hkey
      subst hrsa
      obtain ⟨algContent, algBytes, htlv, hstands, hfound⟩ :=
        tlv_of_next halg (show child.iter.limit ≤ _ from hcert)
      obtain ⟨hb, -, -, -⟩ := next_bounds halg
      have hin : alg.content + alg.len ≤ cert.length := hb.inside hcert
      obtain ⟨oidContent, oidBytes, htlv₁, hstands₁, hfound₁⟩ :=
        tlv_of_next hoid (show alg.iter.limit ≤ _ from hin)
      obtain ⟨hb₁, -, -, -⟩ := next_bounds hoid
      obtain ⟨htag, hlen, hoidBytes⟩ := isOid_yields hisOid
      have hsame : oidContent = OID_RSA_ENCRYPTION := by
        refine (hfound₁.begins hoidBytes (Nat.le_of_eq hlen.symm)).eq_of_length ?_ |>.symm
        rw [← hlen, hfound₁.len]
      refine ⟨algBytes, algContent, oidBytes, h.begins hstands ?_, hseq ▸ htlv,
        hfound.begins hstands₁ ?_, hsame ▸ htag ▸ htlv₁⟩
      · have h1 := hb.limit
        rw [hfound.stop] at h1
        exact Nat.add_le_add_iff_left.mp h1
      · have h1 := hb₁.limit
        rw [hfound₁.stop] at h1
        exact Nat.add_le_add_iff_left.mp h1

/-! ### The key -/

variable {nBytes eBytes : List UInt8} {stop : Nat}

theorem trimLeadingZeros_of_stands : ∀ {bs : List UInt8} {p : Nat}, Stands bs cert p →
    ∃ q, (trimLeadingZeros cert p bs.length).Yields (q, (BigInt.trim 1 bs).length) ∧
      Stands (BigInt.trim 1 bs) cert q := by
  intro bs
  induction bs with
  | nil => intro p h; exact ⟨p, yields_pure.mpr rfl, h⟩
  | cons b bs ih =>
      intro p h
      cases bs with
      | nil => exact ⟨p, yields_pure.mpr rfl, h⟩
      | cons b' bs =>
          have hread := byteAt_of_stands h
          rw [List.length_cons, List.length_cons, trimLeadingZeros, bind_of_yields hread, BigInt.trim]
          by_cases h0 : b = 0
          · rw [if_pos h0, if_pos ⟨by simp, h0⟩]
            exact ih (stands_cons.mp h).2
          · rw [if_neg h0, if_neg (fun h => h0 h.2)]
            exact ⟨p, yields_pure.mpr rfl, h⟩

/-- What is left of a number is its significant bytes. -/
theorem trim_size {bs : List UInt8} (h : BigEndian.value bs ≠ 0) :
    1 ≤ (BigInt.trim 1 bs).length ∧ 256 ^ ((BigInt.trim 1 bs).length - 1) ≤ BigEndian.value bs ∧
      BigEndian.value bs < 256 ^ (BigInt.trim 1 bs).length := by
  induction bs with
  | nil => exact absurd rfl h
  | cons b bs ih =>
      rw [BigInt.trim]
      split
      · rename_i h0
        rw [BigEndian.value_cons, h0.2, UInt8.toNat_zero, Nat.zero_mul, Nat.zero_add] at h ⊢
        exact ih h
      · rename_i h0
        refine ⟨Nat.succ_pos _, ?_, BigEndian.value_lt _⟩
        rw [List.length_cons, Nat.add_sub_cancel, BigEndian.value_cons]
        rw [BigEndian.value_cons] at h
        cases bs with
        | nil =>
            rw [List.length_nil, Nat.pow_zero] at h ⊢
            omega
        | cons b' bs =>
            have hb : 0 < b.toNat := Nat.pos_of_ne_zero fun hz =>
              h0 ⟨by simp, UInt8.toNat_inj.mp hz⟩
            exact Nat.le_add_right_of_le (Nat.le_mul_of_pos_left _ hb)

theorem lt_length_trim {bs : List UInt8} {k : Nat} (h : 256 ^ k ≤ BigEndian.value bs) :
    k < (BigInt.trim 1 bs).length := by
  have h0 : BigEndian.value bs ≠ 0 :=
    Nat.pos_iff_ne_zero.mp (Nat.lt_of_lt_of_le (Nat.pow_pos (by decide)) h)
  obtain ⟨-, -, hhigh⟩ := trim_size h0
  exact (Nat.pow_lt_pow_iff_right (by decide)).mp (Nat.lt_of_le_of_lt h hhigh)

theorem length_trim_le {bs : List UInt8} {k : Nat} (h0 : BigEndian.value bs ≠ 0)
    (h : BigEndian.value bs < 256 ^ k) : (BigInt.trim 1 bs).length ≤ k := by
  obtain ⟨-, hlow, -⟩ := trim_size h0
  have hlt : (BigInt.trim 1 bs).length - 1 < k :=
    (Nat.pow_lt_pow_iff_right (a := 256) (by decide)).mp (Nat.lt_of_le_of_lt hlow h)
  omega

theorem foldl_exponent (es : List UInt8) : ∀ acc : UInt32,
    acc.toNat * 256 ^ es.length + BigEndian.value es < 2 ^ 32 →
      (es.foldl (fun (e : UInt32) b => e <<< 8 ||| b.toUInt32) acc).toNat =
        acc.toNat * 256 ^ es.length + BigEndian.value es := by
  induction es with
  | nil => intro acc _; simp
  | cons b es ih =>
      intro acc h
      have hb := b.toNat_lt
      have h8 : (8 : UInt32).toNat % 32 = 8 := by decide
      rw [BigEndian.value_cons, List.length_cons, Nat.pow_succ, Nat.mul_comm (256 ^ es.length),
        ← Nat.mul_assoc, ← Nat.add_assoc, ← Nat.add_mul] at h ⊢
      have hfit : acc.toNat * 256 + b.toNat < 2 ^ 32 := by
        refine Nat.lt_of_le_of_lt ?_ h
        exact Nat.le_add_right_of_le (Nat.le_mul_of_pos_right _ (Nat.pow_pos (by decide)))
      have hstep : (acc <<< 8 ||| b.toUInt32).toNat = acc.toNat * 256 + b.toNat := by
        have hmod : acc.toNat <<< 8 % 2 ^ 32 = acc.toNat <<< 8 := by
          rw [Nat.shiftLeft_eq]
          omega
        rw [UInt32.toNat_or, UInt32.toNat_shiftLeft, h8, UInt8.toNat_toUInt32, hmod,
          ← Nat.shiftLeft_add_eq_or_of_lt hb, Nat.shiftLeft_eq]
      rw [List.foldl_cons, ih _ (by rw [hstep]; exact h), hstep]

/-- The key is the one whose numbers are `n` and `e`, and `k` is the length of `n`. -/
structure Holds (key : RsaPublicKey) (n e : Nat) : Prop where
  modulus : key.n.toNat = n
  exponent : key.e.toNat = e
  lower : 256 ^ (key.k - 1) ≤ n
  upper : n < 256 ^ key.k

/-- **The key of two numbers.** -/
theorem rsaKey_yields {nInt eInt : Element} {s t : Nat} (hn : Found cert TAG_INTEGER nBytes s nInt)
    (he : Found cert TAG_INTEGER eBytes t eInt) (hlow : 256 ^ 63 ≤ BigEndian.value nBytes)
    (hhigh : BigEndian.value nBytes < 256 ^ 256) (h3 : 3 ≤ BigEndian.value eBytes)
    (h32 : BigEndian.value eBytes < 2 ^ 32) :
    ∃ key, (rsaKey cert nInt eInt).Yields key ∧
      Holds key (BigEndian.value nBytes) (BigEndian.value eBytes) := by
  have hn0 : BigEndian.value nBytes ≠ 0 :=
    Nat.pos_iff_ne_zero.mp (Nat.lt_of_lt_of_le (Nat.pow_pos (by decide)) hlow)
  obtain ⟨np, hnp, hns⟩ := trimLeadingZeros_of_stands hn.content
  obtain ⟨ep, hep, hes⟩ := trimLeadingZeros_of_stands he.content
  obtain ⟨hn1, hnlow, hnhigh⟩ := trim_size hn0
  have hepos : BigEndian.value eBytes ≠ 0 := by omega
  obtain ⟨he1, -, -⟩ := trim_size hepos
  have hnmin := lt_length_trim hlow
  have hnmax := length_trim_le hn0 hhigh
  have hemax : (BigInt.trim 1 eBytes).length ≤ 4 := length_trim_le hepos h32
  have hnval := BigInt.value_trim 1 nBytes
  have heval := BigInt.value_trim 1 eBytes
  rw [← hn.len] at hnp
  rw [← he.len] at hep
  generalize BigInt.trim 1 nBytes = ns at *
  generalize BigInt.trim 1 eBytes = es at *
  have hbytes : RsaInt.BYTES = 256 := rfl
  obtain ⟨x, hx⟩ := BigInt.fromBytes_isSome (L := 64) (p := ns) (by
    show ns.length ≤ RsaInt.BYTES
    omega)
  have hxval := BigInt.toNat_fromBytes hx
  have hexp := foldl_exponent es 0 (by
    rw [UInt32.toNat_zero, Nat.zero_mul, Nat.zero_add, heval]
    exact h32)
  rw [UInt32.toNat_zero, Nat.zero_mul, Nat.zero_add, heval] at hexp
  refine ⟨⟨x, es.foldl (fun (e : UInt32) b => e <<< 8 ||| b.toUInt32) 0, ns.length⟩, ?_,
    hxval.trans hnval, hexp, hnlow, hnhigh⟩
  have hvalid : (⟨x, es.foldl (fun (e : UInt32) b => e <<< 8 ||| b.toUInt32) 0, ns.length⟩ :
      RsaPublicKey).valid := by
    simp only [RsaPublicKey.valid, decide_eq_true_eq]
    refine ⟨hnmin, by rw [hbytes]; exact hnmax, ?_, ?_⟩
    · show 3 ≤ (es.foldl (fun (e : UInt32) b => e <<< 8 ||| b.toUInt32) 0).toNat
      rw [hexp]
      exact h3
    · rw [BigInt.isZero_iff, hxval, hnval]
      exact hn0
  rw [rsaKey, bind_of_yields hnp]
  dsimp only
  rw [bind_of_yields hep]
  dsimp only
  rw [guard_bind, if_pos ⟨by omega, by omega⟩, guard_bind, if_pos ⟨by omega, by omega⟩,
    bind_of_yields (bytesAt_of_stands hes), bind_of_yields (bytesAt_of_stands hns), hx]
  dsimp only
  rw [guard_bind, if_pos hvalid]
  exact yields_pure.mpr rfl

/-- The first element of a content, and the iterator behind it. -/
theorem Found.first {tag' : UInt8} {rest : List UInt8} (h : Found cert tag (bs ++ rest) stop e)
    (htlv : Tlv tag' content bs) :
    ∃ e', (e.iter.next cert).Yields (e', ⟨e.content + bs.length, e.content + e.len⟩) ∧
      Found cert tag' content (e.content + bs.length) e' ∧
      Stands rest cert (e.content + bs.length) := by
  obtain ⟨hs, hrest⟩ := stands_append.mp h.content
  have hlen := h.len
  rw [List.length_append] at hlen
  obtain ⟨e', hnext, hfound⟩ := next_of_tlv e.iter htlv hs
    (show e.content + bs.length ≤ e.content + e.len by omega)
  exact ⟨e', hnext, hfound, hrest⟩

/-- **A child that holds a key** gives it. -/
theorem parseSpkiRsa_yields {oid params alg nInt eInt rsa bits : List UInt8} {spki : Element}
    (hspki : Found cert TAG_SEQUENCE (alg ++ bits) stop spki)
    (hoid : Tlv TAG_OID OID_RSA_ENCRYPTION oid)
    (halg : Tlv TAG_SEQUENCE (oid ++ params) alg) (hnInt : Tlv TAG_INTEGER nBytes nInt)
    (heInt : Tlv TAG_INTEGER eBytes eInt) (hrsa : Tlv TAG_SEQUENCE (nInt ++ eInt) rsa)
    (hbits : Tlv TAG_BIT_STRING (0x00 :: rsa) bits) (hlow : 256 ^ 63 ≤ BigEndian.value nBytes)
    (hhigh : BigEndian.value nBytes < 256 ^ 256) (h3 : 3 ≤ BigEndian.value eBytes)
    (h32 : BigEndian.value eBytes < 2 ^ 32) :
    ∃ key, (parseSpkiRsa cert spki).Yields key ∧
      Holds key (BigEndian.value nBytes) (BigEndian.value eBytes) := by
  obtain ⟨algE, halgNext, halgFound, hbitsAt⟩ := hspki.first halg
  obtain ⟨oidE, hoidNext, hoidFound, -⟩ := halgFound.first hoid
  have hlen := hspki.len
  rw [List.length_append] at hlen
  obtain ⟨bitsE, hbitsNext, hbitsFound⟩ := next_of_tlv
    ⟨spki.content + alg.length, spki.content + spki.len⟩ hbits hbitsAt
    (show spki.content + alg.length + bits.length ≤ spki.content + spki.len by omega)
  have hpad := byteAt_of_stands hbitsFound.content
  have hrsaAt := (stands_cons.mp hbitsFound.content).2
  have hblen := hbitsFound.len
  have hbends := hbitsFound.ends
  rw [List.length_cons] at hblen
  obtain ⟨rsaE, hrsaParse, hrsaFound⟩ := parse_of_tlv bitsE.stop hrsa hrsaAt
    (by omega)
  have hrsaPos : 1 ≤ rsa.length := by
    obtain ⟨-, length, -, rfl⟩ := hrsa
    exact Nat.succ_pos _
  obtain ⟨nE, hnNext, hnFound, heAt⟩ := hrsaFound.first hnInt
  have hrlen := hrsaFound.len
  rw [List.length_append] at hrlen
  obtain ⟨eE, heNext, heFound⟩ := next_of_tlv
    ⟨rsaE.content + nInt.length, rsaE.content + rsaE.len⟩ heInt heAt
    (show rsaE.content + nInt.length + eInt.length ≤ rsaE.content + rsaE.len by omega)
  obtain ⟨key, hkey, hholds⟩ := rsaKey_yields hnFound heFound hlow hhigh h3 h32
  have hisOid : (isOid cert oidE OID_RSA_ENCRYPTION).Yields true := by
    unfold isOid
    rw [if_pos ⟨hoidFound.tag, hoidFound.len⟩, hoidFound.len,
      bind_of_yields (bytesAt_of_stands hoidFound.content)]
    exact yields_pure.mpr (decide_eq_true rfl)
  refine ⟨key, ?_, hholds⟩
  simp only [parseSpkiRsa, yields_bind, yields_guard, exists_const, Prod.exists]
  exact ⟨hspki.tag, algE, _, halgNext, halgFound.tag, oidE, _, hoidNext, true, hisOid, rfl,
    bitsE, _, hbitsNext, hbitsFound.tag, by omega, 0x00, hpad, rfl, rsaE, hrsaParse, hrsaFound.tag,
    nE, _, hnNext, hnFound.tag, eE, _, heNext, heFound.tag, hkey⟩

/-! ### The search -/

theorem orElse_of_refuses {x y : DerM RsaPublicKey} (h : x.run = .ok none) : (x <|> y) = y := by
  apply OptionT.ext
  rw [OptionT.run_orElse, h]
  rfl

theorem orElse_of_yields {x y : DerM RsaPublicKey} {key : RsaPublicKey} (h : x.Yields key) :
    (x <|> y).Yields key := by
  unfold Guarded.Yields at h ⊢
  rw [OptionT.run_orElse, h]
  rfl

/-- **The siblings** are passed over. -/
theorem scan_siblings {siblings : List (List UInt8)} (hs : ∀ s ∈ siblings, Sibling s) :
    ∀ {rounds : Nat} {it : Iter}, Stands siblings.flatten cert it.p →
      it.p + siblings.flatten.length ≤ it.limit → it.limit ≤ cert.length →
      scan cert (siblings.length + rounds) it =
        scan cert rounds ⟨it.p + siblings.flatten.length, it.limit⟩ := by
  induction siblings with
  | nil => intro rounds it _ _ _; rw [List.length_nil, Nat.zero_add]; rfl
  | cons s siblings ih =>
      intro rounds it hstands hlimit hcert
      obtain ⟨tag, content, htlv, hnot⟩ := hs s (List.mem_cons_self ..)
      have hsib : ∀ t ∈ siblings, Sibling t := fun t ht => hs t (List.mem_cons_of_mem _ ht)
      rw [List.flatten_cons] at hstands hlimit ⊢
      rw [List.length_append] at hlimit ⊢
      obtain ⟨hhead, htail⟩ := stands_append.mp hstands
      obtain ⟨child, hnext, hfound⟩ := next_of_tlv it htlv hhead (by omega)
      obtain ⟨hb, -, -, -⟩ := next_bounds hnext
      have hrest : scan cert (siblings.length + rounds) ⟨it.p + s.length, it.limit⟩ =
          scan cert rounds ⟨it.p + (s.length + siblings.flatten.length), it.limit⟩ := by
        have hnextAt : it.p + s.length + siblings.flatten.length ≤ it.limit := by omega
        rw [← Nat.add_assoc]
        exact ih hsib htail hnextAt hcert
      rw [List.length_cons, show siblings.length + 1 + rounds = siblings.length + rounds + 1 by omega,
        scan, bind_of_yields hnext]
      dsimp only
      rw [← hrest]
      split
      · rfl
      · rename_i hseq
        rw [not_not] at hseq
        have htag : tag = TAG_SEQUENCE := hfound.tag.symm.trans hseq
        subst htag
        exact orElse_of_refuses (parseSpkiRsa_refuses hfound (hb.inside hcert) fun h => hnot ⟨rfl, h⟩)

theorem length_flatten_siblings {siblings : List (List UInt8)} (hs : ∀ s ∈ siblings, Sibling s) :
    siblings.length ≤ siblings.flatten.length := by
  induction siblings with
  | nil => exact Nat.le_refl _
  | cons s siblings ih =>
      obtain ⟨tag, content, ⟨-, length, -, rfl⟩, -⟩ := hs s (List.mem_cons_self ..)
      have := ih fun t ht => hs t (List.mem_cons_of_mem _ ht)
      rw [List.flatten_cons, List.length_append, List.length_cons, List.length_cons]
      omega

/-- **The child behind the siblings** gives the key. -/
theorem scan_yields (it : Iter) {siblings : List (List UInt8)} {spki more : List UInt8}
    (hs : ∀ s ∈ siblings, Sibling s) (htlv : Tlv TAG_SEQUENCE content spki)
    (hstands : Stands (siblings.flatten ++ (spki ++ more)) cert it.p)
    (hlimit : it.p + (siblings.flatten ++ (spki ++ more)).length ≤ it.limit)
    (hcert : it.limit ≤ cert.length)
    (hkey : ∀ child stop, Found cert TAG_SEQUENCE content stop child →
      ∃ key, (parseSpkiRsa cert child).Yields key ∧ Holds key m n) :
    ∃ key, (scan cert cert.length it).Yields key ∧ Holds key m n := by
  obtain ⟨hsib, hrest⟩ := stands_append.mp hstands
  obtain ⟨hspki, -⟩ := stands_append.mp hrest
  rw [List.length_append, List.length_append] at hlimit
  have hcount := length_flatten_siblings hs
  have hpos : 0 < spki.length := by
    obtain ⟨-, length, -, rfl⟩ := htlv
    exact Nat.succ_pos _
  obtain ⟨child, hnext, hfound⟩ := next_of_tlv
    ⟨it.p + siblings.flatten.length, it.limit⟩ htlv hspki
    (show it.p + siblings.flatten.length + spki.length ≤ it.limit by omega)
  obtain ⟨r, hr⟩ : ∃ r, cert.length = siblings.length + (r + 1) :=
    ⟨cert.length - siblings.length - 1, by omega⟩
  obtain ⟨key, hyields, hholds⟩ := hkey child _ hfound
  refine ⟨key, ?_, hholds⟩
  rw [hr, scan_siblings hs hsib (by omega) hcert, scan]
  refine yields_bind.mpr ⟨(child, _), hnext, ?_⟩
  dsimp only
  rw [if_neg (not_not.mpr hfound.tag)]
  exact orElse_of_yields hyields

/-- **The key of a certificate is found**, whatever stands beside it. -/
theorem certificate_key {n e : Nat} {cert : List UInt8} (h : Certificate n e cert)
    (hlow : 256 ^ 63 ≤ n) (hhigh : n < 256 ^ 256) (h3 : 3 ≤ e) (h32 : e < 2 ^ 32)
    (suffix : List UInt8) (out : RsaPublicKey) :
    ∃ key, parseCertificateRsaKeyInto (cert ++ suffix) out = .ok (true, key) ∧ key.n.toNat = n ∧
      key.e.toNat = e ∧ 256 ^ (key.k - 1) ≤ n ∧ n < 256 ^ key.k := by
  obtain ⟨hoid, halg, rfl, hnInt, rfl, heInt, hrsa, hbits, hspki, hsiblings, htbs, hcert⟩ := h
  have hlen : (cert ++ suffix).length = cert.length + suffix.length := List.length_append
  have hpos : (cert ++ suffix).length ≠ 0 := by
    obtain ⟨-, length, -, rfl⟩ := hcert
    exact Nat.succ_ne_zero _
  have hstands : Stands cert (cert ++ suffix) 0 := ⟨suffix, rfl⟩
  obtain ⟨top, htop, htopFound⟩ := parse_of_tlv (cert ++ suffix).length hcert hstands
    (by rw [hlen, Nat.zero_add]; exact Nat.le_add_right _ _)
  obtain ⟨tbsE, htbsNext, htbsFound, -⟩ := htopFound.first htbs
  obtain ⟨htbsIn, -, -, -⟩ := next_bounds htbsNext
  have htopIn := (parse_bounds htop).inside (Nat.le_refl _)
  obtain ⟨key, hscan, hholds⟩ := scan_yields tbsE.iter hsiblings hspki htbsFound.content
    (Nat.le_of_eq (congrArg (tbsE.content + ·) htbsFound.len.symm)) (htbsIn.inside htopIn)
    fun child stop hfound =>
      parseSpkiRsa_yields hfound hoid halg hnInt heInt hrsa hbits hlow hhigh h3 h32
  have hparse : (parseCertificateRsaKey (cert ++ suffix)).Yields key := by
    rw [parseCertificateRsaKey, guard_bind, if_pos hpos]
    refine yields_bind.mpr ⟨top, htop, ?_⟩
    rw [guard_bind, if_pos htopFound.tag]
    refine yields_bind.mpr ⟨(tbsE, _), htbsNext, ?_⟩
    dsimp only
    rw [guard_bind, if_pos htbsFound.tag]
    exact hscan
  refine ⟨key, ?_, hholds.modulus, hholds.exponent, hholds.lower, hholds.upper⟩
  rw [parseCertificateRsaKeyInto_eq, hparse]
  rfl

/-- An element whose length is in short form. -/
def short (tag : UInt8) (content : List UInt8) : List UInt8 :=
  tag :: content.length.toUInt8 :: content

theorem tlv_short (hlow : tag &&& 0x1F ≠ 0x1F) (h : content.length < 128) :
    Tlv tag content (short tag content) :=
  ⟨hlow, [content.length.toUInt8], .short h, rfl⟩

def mersenneKey : List UInt8 :=
  short TAG_INTEGER (0x01 :: List.replicate 65 0xFF) ++ short TAG_INTEGER [0x07]

def mersenneAlgorithm : List UInt8 :=
  short TAG_OID OID_RSA_ENCRYPTION ++ [0x05, 0x00]

def mersenneSpki : List UInt8 :=
  short TAG_SEQUENCE mersenneAlgorithm ++ short TAG_BIT_STRING (0x00 :: short TAG_SEQUENCE mersenneKey)

/-- A version, a key, and nothing else. -/
def mersenneTbs : List UInt8 :=
  [short 0xA0 [0x02, 0x01, 0x02]].flatten ++ (short TAG_SEQUENCE mersenneSpki ++ [])

theorem certificate_key_mersenne :
    ∃ key, parseCertificateRsaKeyInto
      (short TAG_SEQUENCE (short TAG_SEQUENCE mersenneTbs ++ []) ++ [0x2A]) {} =
        .ok (true, key) ∧ key.n.toNat = 2 ^ 521 - 1 ∧ key.e.toNat = 7 ∧
      256 ^ (key.k - 1) ≤ 2 ^ 521 - 1 ∧ 2 ^ 521 - 1 < 256 ^ key.k := by
  have hversion : ∀ s ∈ [short 0xA0 [0x02, 0x01, 0x02]], Sibling s := by
    intro s hs
    rw [List.mem_singleton.mp hs]
    exact ⟨0xA0, _, tlv_short (by decide) (by decide), fun h => absurd h.1 (by decide)⟩
  refine certificate_key (Certificate.mk (tlv_short ?_ ?_) (tlv_short ?_ ?_) ?_ (tlv_short ?_ ?_)
    ?_ (tlv_short ?_ ?_) (tlv_short ?_ ?_) (tlv_short ?_ ?_) (tlv_short ?_ ?_) hversion
    (tlv_short ?_ ?_) (tlv_short ?_ ?_)) ?_ ?_ ?_ ?_ _ _ <;> decide +kernel

end Ilo2.Tls.Der
