import Ilo2.Tls.Der

/-!
# DER on hostile input

Every length in a certificate is chosen by the peer.  An element lies between the position
it was parsed at and the limit (`Bounds`), so that the limits of the levels below are within
the certificate, and no read is outside it.

* `parse_bounds`, `next_bounds`, `child_bounds` - where elements lie.
* `scan_rounds` - the search ends: an element has at least two bytes.
* `parse_certificate_safe` - **no certificate is read outside of its bytes**.
-/

namespace Ilo2.Tls.Der

open Crypto Checked Guarded

variable {cert : List UInt8} {p q limit len m n : Nat} {e child : Element} {it it' : Iter}
  {out : RsaPublicKey}

/-! ### Where elements lie -/

/-- The element is parsed at `p`, and ends before the limit. -/
structure Bounds (p limit : Nat) (e : Element) : Prop where
  start : p < e.content
  stop : e.content + e.len = e.stop
  limit : e.stop ≤ limit

theorem Bounds.inside (h : Bounds p limit e) (hl : limit ≤ n) : e.content + e.len ≤ n :=
  h.stop ▸ Nat.le_trans h.limit hl

theorem element_bounds {tag : UInt8} {start : Nat} (hstart : start < p) (hp : p ≤ limit)
    (h : (element tag p limit len).Yields e) : Bounds start limit e := by
  simp only [element, yields_bind, yields_guard, yields_pure, exists_const] at h
  obtain ⟨hlen, rfl⟩ := h
  exact ⟨hstart, rfl, by show p + len ≤ limit; omega⟩

/-- **What `parse` yields** lies between `p` and the limit. -/
theorem parse_bounds (h : (parse cert p limit).Yields e) : Bounds p limit e := by
  simp only [parse, yields_bind, yields_guard, exists_const] at h
  obtain ⟨hp, tag, -, -, hp', first, -, h⟩ := h
  split at h
  · rw [yields_failure] at h
    exact h.elim
  split at h
  · simp only [yields_bind, yields_guard, exists_const] at h
    obtain ⟨-, hn, bs, -, h⟩ := h
    exact element_bounds (by omega) (by omega) h
  · exact element_bounds (by omega) (by omega) h

theorem next_bounds (h : (it.next cert).Yields (e, it')) :
    Bounds it.p it.limit e ∧ it'.p = e.stop ∧ it'.limit = it.limit ∧ it.p < it'.p := by
  simp only [Iter.next, yields_bind, yields_guard, yields_pure, exists_const, Prod.mk.injEq] at h
  obtain ⟨-, a, ha, rfl, rfl⟩ := h
  have hb := parse_bounds ha
  refine ⟨hb, rfl, rfl, ?_⟩
  have h1 := hb.start
  have h2 := hb.stop
  show it.p < a.stop
  omega

/-- `child` comes out of `next`, called on `it` often enough. -/
inductive Below (cert : List UInt8) : Iter → Element → Prop
  | next {it it' : Iter} {e : Element} : (it.next cert).Yields (e, it') → Below cert it e
  | later {it it' : Iter} {e child : Element} : (it.next cert).Yields (e, it') →
      Below cert it' child → Below cert it child

theorem below_bounds (h : Below cert it child) : Bounds it.p it.limit child := by
  induction h with
  | next h => exact (next_bounds h).1
  | later h _ ih =>
      obtain ⟨-, -, hlimit, hlt⟩ := next_bounds h
      exact ⟨Nat.lt_trans hlt ih.start, ih.stop, hlimit ▸ ih.limit⟩

/-- **Children** lie inside their parent. -/
theorem child_bounds (h : Below cert e.iter child) :
    e.content < child.content ∧ child.stop ≤ e.content + e.len :=
  ⟨(below_bounds h).start, (below_bounds h).limit⟩

/-! ### Reads -/

theorem byteAt_safe (h : p < cert.length) : Safe (byteAt cert p) := by
  unfold byteAt
  rw [List.getElem?_eq_getElem h]
  exact safe_pure _

theorem bytesAt_safe : ∀ {n p : Nat}, p + n ≤ cert.length → Safe (bytesAt cert p n) := by
  intro n
  induction n with
  | zero => intro p _; exact safe_pure _
  | succ n ih =>
      intro p h
      exact (byteAt_safe (by omega)).bind fun b _ => (ih (by omega)).bind fun bs _ => safe_pure _

theorem element_safe (tag : UInt8) (p limit len : Nat) :
    Safe (element tag p limit len : DerM Element) :=
  (safe_guard _).bind fun _ _ => safe_pure _

/-- **`parse` reads before the limit only.** -/
theorem parse_safe (h : limit ≤ cert.length) : Safe (parse cert p limit) := by
  refine (safe_guard _).bind fun _ hp => (byteAt_safe ?_).bind fun tag _ =>
    (safe_guard _).bind fun _ _ => (safe_guard _).bind fun _ hp' => (byteAt_safe ?_).bind
      fun first _ => ?_
  · rw [yields_guard] at hp
    omega
  · rw [yields_guard] at hp'
    omega
  · split
    · exact safe_failure
    split
    · refine (safe_guard _).bind fun _ _ => (safe_guard _).bind fun _ hn => (bytesAt_safe ?_).bind
        fun bs _ => element_safe _ _ _ _
      rw [yields_guard] at hn hp'
      omega
    · exact element_safe _ _ _ _

theorem next_safe (h : it.limit ≤ cert.length) : Safe (it.next cert) :=
  (safe_guard _).bind fun _ _ => (parse_safe h).bind fun _ _ => safe_pure _

theorem isOid_safe {oid : List UInt8} (h : e.content + e.len ≤ cert.length) :
    Safe (isOid cert e oid) := by
  unfold isOid
  split
  · exact (bytesAt_safe h).bind fun bs _ => safe_pure _
  · exact safe_pure _

/-- Trimming keeps the end. -/
theorem trimLeadingZeros_safe : p + len ≤ cert.length →
    Safe (trimLeadingZeros cert p len) ∧
      ∀ q m, (trimLeadingZeros cert p len).Yields (q, m) → q + m = p + len := by
  induction p, len using trimLeadingZeros.induct with
  | case1 p len ih =>
      intro h
      obtain ⟨hsafe, hends⟩ := ih (by omega)
      rw [trimLeadingZeros]
      refine ⟨(byteAt_safe (by omega)).bind fun b _ => ?_, fun q m hq => ?_⟩
      · split
        · exact hsafe
        · exact safe_pure _
      · obtain ⟨b, -, hq⟩ := yields_bind.mp hq
        split at hq
        · have := hends q m hq
          omega
        · rw [yields_pure] at hq
          cases hq
          rfl
  | case2 p len hlen =>
      intro h
      have hstop : trimLeadingZeros cert p len = pure (p, len) := by
        rw [trimLeadingZeros]
        exact hlen
      rw [hstop]
      refine ⟨safe_pure _, fun q m hq => ?_⟩
      rw [yields_pure] at hq
      cases hq
      rfl

theorem rsaKey_safe {nInt eInt : Element} (hn : nInt.content + nInt.len ≤ cert.length)
    (he : eInt.content + eInt.len ≤ cert.length) : Safe (rsaKey cert nInt eInt) := by
  obtain ⟨hsafe, hends⟩ := trimLeadingZeros_safe hn
  obtain ⟨hsafe', hends'⟩ := trimLeadingZeros_safe he
  refine hsafe.bind fun (np, nlen) hnp => hsafe'.bind fun (ep, elen) hep => ?_
  have h1 := hends _ _ hnp
  have h2 := hends' _ _ hep
  refine (safe_guard _).bind fun _ _ => (safe_guard _).bind fun _ _ =>
    (bytesAt_safe (by omega)).bind fun es _ => (bytesAt_safe (by omega)).bind fun ns _ => ?_
  split
  · exact safe_failure
  · exact (safe_guard _).bind fun _ _ => safe_pure _

/-- Elements of an element in the certificate are in the certificate. -/
theorem parseSpkiRsa_safe {spki : Element} (h : spki.content + spki.len ≤ cert.length) :
    Safe (parseSpkiRsa cert spki) := by
  refine (safe_guard _).bind fun _ _ => (next_safe (show spki.iter.limit ≤ _ from h)).bind
    fun (alg, it) halg => ?_
  obtain ⟨hb, -, hlimit, -⟩ := next_bounds halg
  have hit : it.limit ≤ cert.length := hlimit ▸ h
  have hin : alg.content + alg.len ≤ cert.length := hb.inside h
  refine (safe_guard _).bind fun _ _ => (next_safe (show alg.iter.limit ≤ _ from hin)).bind
    fun (oid, it₁) hoid => ?_
  obtain ⟨hb₁, -, -, -⟩ := next_bounds hoid
  refine (isOid_safe (hb₁.inside hin)).bind fun isRsa _ =>
    (safe_guard _).bind fun _ _ => (next_safe hit).bind fun (bits, it₂) hbits => ?_
  obtain ⟨hb₂, -, -, -⟩ := next_bounds hbits
  have hin₂ : bits.stop ≤ cert.length := Nat.le_trans hb₂.limit hit
  have hstop := hb₂.stop
  refine (safe_guard _).bind fun _ _ => (safe_guard _).bind fun _ hlen => ?_
  rw [yields_guard] at hlen
  refine (byteAt_safe (by omega)).bind fun b _ => (safe_guard _).bind fun _ _ =>
    (parse_safe hin₂).bind fun rsa hrsa => ?_
  have hb₃ := parse_bounds hrsa
  have hin₃ : rsa.content + rsa.len ≤ cert.length := hb₃.inside hin₂
  refine (safe_guard _).bind fun _ _ => (next_safe (show rsa.iter.limit ≤ _ from hin₃)).bind
    fun (nInt, it₃) hn => ?_
  obtain ⟨hb₄, -, hlimit₄, -⟩ := next_bounds hn
  have hit₃ : it₃.limit ≤ cert.length := hlimit₄ ▸ hin₃
  refine (safe_guard _).bind fun _ _ => (next_safe hit₃).bind fun (eInt, it₄) he => ?_
  obtain ⟨hb₅, -, -, -⟩ := next_bounds he
  exact (safe_guard _).bind fun _ _ => rsaKey_safe (hb₄.inside hin₃)
    (hb₅.inside hit₃)

theorem scan_safe (rounds : Nat) : ∀ {it : Iter}, it.limit ≤ cert.length →
    Safe (scan cert rounds it) := by
  induction rounds with
  | zero => intro it _; exact safe_failure
  | succ rounds ih =>
      intro it h
      refine (next_safe h).bind fun (child, it') hnext => ?_
      obtain ⟨hb, -, hlimit, -⟩ := next_bounds hnext
      have hit : it'.limit ≤ cert.length := hlimit ▸ h
      dsimp only
      split
      · exact ih hit
      · exact (parseSpkiRsa_safe (hb.inside h)).orElse (ih hit)

theorem parseCertificateRsaKey_safe (cert : List UInt8) : Safe (parseCertificateRsaKey cert) := by
  refine (safe_guard _).bind fun _ _ => (parse_safe (Nat.le_refl _)).bind fun top htop => ?_
  have hb := parse_bounds htop
  have hin : top.content + top.len ≤ cert.length := hb.inside (Nat.le_refl _)
  refine (safe_guard _).bind fun _ _ => (next_safe (show top.iter.limit ≤ _ from hin)).bind
    fun (tbs, it) htbs => ?_
  obtain ⟨hb₁, -, -, -⟩ := next_bounds htbs
  exact (safe_guard _).bind fun _ _ => scan_safe _ (hb₁.inside hin)

/-! ### The end of the search -/

/-- At the limit the search is over. -/
theorem scan_done (rounds : Nat) (h : it.limit ≤ it.p) : scan cert rounds it = failure := by
  cases rounds with
  | zero => rfl
  | succ rounds =>
      have hnext : it.next cert = failure := by
        unfold Iter.next guard
        rw [if_neg (by omega)]
        rfl
      rw [scan, hnext]
      rfl

/-- **The search ends** by itself: rounds that are more than the bytes change nothing. -/
theorem scan_rounds (rounds : Nat) : ∀ {it : Iter} {more : Nat}, it.limit ≤ it.p + rounds →
    rounds ≤ more → scan cert more it = scan cert rounds it := by
  induction rounds with
  | zero =>
      intro it more h _
      rw [scan_done more h, scan_done 0 h]
  | succ rounds ih =>
      intro it more h hmore
      obtain ⟨more, rfl⟩ : ∃ k, more = k + 1 := ⟨more - 1, by omega⟩
      rw [scan, scan]
      refine bind_congr fun (child, it') hnext => ?_
      obtain ⟨-, -, hlimit, hlt⟩ := next_bounds hnext
      dsimp only
      rw [ih (by omega) (by omega)]

/-! ### The key as an out-parameter -/

/-- `if (!x) return false;`, and what follows; `out` is as it was. -/
def orReturn {α : Type} (out : RsaPublicKey) (x : DerM α)
    (g : α → Except Fault (Bool × RsaPublicKey)) : Except Fault (Bool × RsaPublicKey) := do
  match ← x.run with
  | none => .ok (false, out)
  | some a => g a

/-- `parse_spki_rsa(spki, out)`: what it returns, and `out` after it. -/
def parseSpkiRsaInto (cert : List UInt8) (spki : Element) (out : RsaPublicKey) :
    Except Fault (Bool × RsaPublicKey) :=
  orReturn out (parseSpkiRsa cert spki) fun key => .ok (true, key)

/-- The loop over the children, `out` passed on from one to the next. -/
def scanInto (cert : List UInt8) : (rounds : Nat) → Iter → RsaPublicKey →
    Except Fault (Bool × RsaPublicKey)
  | 0, _, out => .ok (false, out)
  | rounds + 1, it, out =>
      orReturn out (it.next cert) fun (child, it) =>
        if child.tag ≠ TAG_SEQUENCE then scanInto cert rounds it out
        else do
          let (found, out) ← parseSpkiRsaInto cert child out
          if found then .ok (true, out) else scanInto cert rounds it out

/-- `parse_certificate_rsa_key(cert, len, out)`. -/
def parseCertificateRsaKeyInto (cert : List UInt8) (out : RsaPublicKey) :
    Except Fault (Bool × RsaPublicKey) :=
  if cert.length = 0 then .ok (false, out)
  else
    orReturn out (parse cert 0 cert.length) fun top =>
      if top.tag ≠ TAG_SEQUENCE then .ok (false, out)
      else
        orReturn out (top.iter.next cert) fun (tbs, _) =>
          if tbs.tag ≠ TAG_SEQUENCE then .ok (false, out)
          else scanInto cert cert.length tbs.iter out

/-- What a computation that returns a key leaves in `out`. -/
def stored (out : RsaPublicKey) : Option RsaPublicKey → Bool × RsaPublicKey
  | some key => (true, key)
  | none => (false, out)

/-- A failure leaves `out` alone, wherever it comes. -/
theorem stored_bind {α : Type} (x : DerM α) {f : α → DerM RsaPublicKey}
    {g : α → Except Fault (Bool × RsaPublicKey)} (h : ∀ a, g a = (f a).run.map (stored out)) :
    orReturn out x g = (x >>= f).run.map (stored out) := by
  unfold orReturn
  rw [OptionT.run_bind]
  rcases x.run with e | _ | a
  · rfl
  · rfl
  · exact h a

theorem stored_guard {p : Prop} [Decidable p] {f : Unit → DerM RsaPublicKey}
    {g : Except Fault (Bool × RsaPublicKey)} (h : g = (f ()).run.map (stored out)) :
    (if ¬ p then .ok (false, out) else g) = (guard p >>= f).run.map (stored out) := by
  rw [guard_bind]
  by_cases hp : p
  · rw [if_neg (not_not.mpr hp), if_pos hp, h]
  · rw [if_pos hp, if_neg hp]
    rfl

theorem scanInto_eq (rounds : Nat) : ∀ (it : Iter) (out : RsaPublicKey),
    scanInto cert rounds it out = (scan cert rounds it).run.map (stored out) := by
  induction rounds with
  | zero => intro it out; rfl
  | succ rounds ih =>
      intro it out
      rw [scanInto, scan]
      refine stored_bind (it.next cert) fun (child, it') => ?_
      dsimp only
      split
      · exact ih it' out
      rw [OptionT.run_orElse, parseSpkiRsaInto, orReturn]
      rcases (parseSpkiRsa cert child).run with f | _ | key
      · rfl
      · exact ih it' out
      · rfl

/-- The search with an out-parameter is the search, and what it returns is stored. -/
theorem parseCertificateRsaKeyInto_eq (cert : List UInt8) (out : RsaPublicKey) :
    parseCertificateRsaKeyInto cert out = (parseCertificateRsaKey cert).run.map (stored out) := by
  unfold parseCertificateRsaKeyInto parseCertificateRsaKey
  by_cases h0 : cert.length = 0
  · rw [if_pos h0, guard_bind, if_neg (not_not.mpr h0)]
    rfl
  rw [if_neg h0, guard_bind, if_pos h0]
  refine stored_bind (parse cert 0 cert.length) fun top => ?_
  refine stored_guard (stored_bind (top.iter.next cert) fun (tbs, it) => ?_)
  exact stored_guard (scanInto_eq _ _ _)

/-- **No certificate is read outside of its bytes**, and the search for its key ends. -/
theorem parse_certificate_safe (cert : List UInt8) (out : RsaPublicKey) :
    (∀ p limit, limit ≤ cert.length → Safe (parse cert p limit)) ∧
    (∀ p limit e, (parse cert p limit).Yields e →
      p < e.content ∧ e.content + e.len = e.stop ∧ e.stop ≤ limit) ∧
    (∀ (it : Iter) (e : Element) (it' : Iter), (it.next cert).Yields (e, it') →
      it.p < e.content ∧ e.content + e.len = e.stop ∧ e.stop ≤ it.limit ∧ it'.p = e.stop ∧
        it'.limit = it.limit ∧ it.p < it'.p) ∧
    (∀ parent child : Element, Below cert parent.iter child →
      parent.content < child.content ∧ child.stop ≤ parent.content + parent.len) ∧
    (∀ (it : Iter) (more : Nat), it.limit ≤ cert.length → cert.length ≤ more →
      scan cert more it = scan cert cert.length it) ∧
    ∃ r, parseCertificateRsaKeyInto cert out = .ok r ∧ (r.1 = false → r.2 = out) ∧
      (r.1 = true → 64 ≤ r.2.k ∧ r.2.k ≤ 256 ∧ 3 ≤ r.2.e.toNat ∧
        256 ^ (r.2.k - 1) ≤ r.2.n.toNat ∧ r.2.n.toNat < 256 ^ r.2.k) := by
  refine ⟨fun p limit h => parse_safe h, fun p limit e h => ?_, fun it e it' h => ?_,
    fun parent child h => child_bounds h, fun it more h hmore => ?_, ?_⟩
  · have hb := parse_bounds h
    exact ⟨hb.start, hb.stop, hb.limit⟩
  · obtain ⟨hb, hp, hlimit, hlt⟩ := next_bounds h
    exact ⟨hb.start, hb.stop, hb.limit, hp, hlimit, hlt⟩
  · exact scan_rounds _ (by omega) hmore
  · obtain ⟨o, ho⟩ := parseCertificateRsaKey_safe cert
    refine ⟨stored out o, by rw [parseCertificateRsaKeyInto_eq, ho]; rfl, ?_⟩
    cases o with
    | none => exact ⟨fun _ => rfl, fun h => by cases h⟩
    | some key =>
        refine ⟨fun h => ?_, fun _ => ?_⟩
        · cases h
        · have hwf := parseCertificateRsaKey_spec cert key ho
          have hvalid := hwf.valid
          simp only [RsaPublicKey.valid, decide_eq_true_eq] at hvalid
          obtain ⟨hlow, hhigh, he, -⟩ := hvalid
          exact ⟨hlow, hhigh, he, hwf.lower, hwf.upper⟩

end Ilo2.Tls.Der
