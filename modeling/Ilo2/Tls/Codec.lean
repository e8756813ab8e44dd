import Ilo2.Lib.Codec
import Ilo2.Tls.Handshake
import Mathlib.Data.List.GetD

/-!
# The codecs of the handshake

Three parsers with lengths that the peer chooses.  `parse_certificate_list` returns pointers into
the body, and leaves some of them in `out` when it fails, so it is modelled a second time here,
with places in the body for certificates.

* `handshakeFormat`, `serverHelloFormat` - what these parsers accept is an encoding, so no
  proper part of an encoding is accepted.
* `certificateList_spec` - **every entry lies inside the body**, and the entries are the
  certificates.
* `codecs` - the round trips and the refusals together.
-/

namespace Ilo2.Tls

open Codec

/-! ### The reader -/

theorem u16_sound {p r : List UInt8} {v : UInt16} (h : Reader.u16 p = some (v, r)) :
    p = be16 v ++ r := by
  match p, h with
  | b₁ :: b₀ :: r', h =>
      simp only [Reader.u16, Option.some.injEq, Prod.mk.injEq] at h
      obtain ⟨rfl, rfl⟩ := h
      obtain ⟨h₁, h₀⟩ := BigEndian.bytes_u16 b₁ b₀
      rw [be16, h₁, h₀]
      rfl

theorem u8_sound {p r : List UInt8} {b : UInt8} (h : Reader.u8 p = some (b, r)) : p = b :: r := by
  match p, h with
  | b' :: r', h =>
      cases h
      rfl

theorem take_sound {n : Nat} {p a r : List UInt8} (h : Reader.take n p = some (a, r)) :
    p = a ++ r ∧ a.length = n := by
  rw [Reader.take] at h
  split at h
  · cases h
  · rename_i hlen
    cases h
    refine ⟨(List.take_append_drop n p).symm, ?_⟩
    rw [List.length_take]
    omega

/-- The bytes of a vector that is copied byte by byte. -/
theorem toList_ofFn {n : Nat} {bs : List UInt8} (h : bs.length = n) :
    (Vector.ofFn fun i : Fin n => bs.getD i 0).toList = bs := by
  rw [Vector.toList_ofFn]
  apply List.ext_getElem
  · rw [List.length_ofFn, h]
  · intro i h₁ h₂
    rw [List.getElem_ofFn, List.getD_eq_getElem _ _ h₂]

/-! ### Handshake messages -/

/-- A message with its header. -/
def handshakeFormat : Format HandshakeMessage UInt8 where
  Valid m := m.body.length < 2 ^ 24 ∧ m.total = HANDSHAKE_HEADER_LEN + m.body.length
  encode m := frame m.type m.body
  parse := parseHandshake
  round := by
    rintro ⟨type, body, total⟩ ⟨hlen, htotal⟩ rest
    rw [parseHandshake_frame hlen rest, ← htotal]
  sound := by
    intro p m h
    obtain ⟨hp, hlen, htotal⟩ := parseHandshake_sound h
    exact ⟨⟨hlen, htotal⟩, p.drop m.total, hp.symm⟩

/-! ### The hello -/

/-- A session id of more than 32 bytes is refused, whatever comes after its length. -/
theorem parseServerHello_long (version : UInt16) (random : Vector UInt8 RANDOM_LEN) {n : UInt8}
    (h : n > 32) (rest : List UInt8) :
    parseServerHello (be16 version ++ (random.toList ++ n :: rest)) = none := by
  rw [parseServerHello, u16_be16, Option.bind_eq_bind, Option.bind_some]
  simp only [take_append Vector.length_toList, Reader.u8, Option.bind_eq_bind, Option.bind_some]
  rw [if_pos h]

/-- What is read as a hello is one. -/
theorem parseServerHello_sound {p : List UInt8} {sh : ServerHello}
    (h : parseServerHello p = some sh) :
    sh.sessionId.length ≤ 32 ∧ encodeServerHello sh <+: p := by
  rw [parseServerHello] at h
  obtain ⟨⟨version, r₁⟩, h₁, h⟩ := Option.bind_eq_some_iff.mp h
  obtain ⟨⟨rnd, r₂⟩, h₂, h⟩ := Option.bind_eq_some_iff.mp h
  obtain ⟨⟨sidLen, r₃⟩, h₃, h⟩ := Option.bind_eq_some_iff.mp h
  dsimp only at h₂ h₃ h
  split at h
  · cases h
  · rename_i hle
    obtain ⟨⟨sid, r₄⟩, h₄, h⟩ := Option.bind_eq_some_iff.mp h
    obtain ⟨⟨suite, r₅⟩, h₅, h⟩ := Option.bind_eq_some_iff.mp h
    obtain ⟨⟨compression, r₆⟩, h₆, h⟩ := Option.bind_eq_some_iff.mp h
    cases h
    dsimp only at h₄ h₅ h₆
    obtain ⟨e₂, hrnd⟩ := take_sound h₂
    obtain ⟨e₄, hsid⟩ := take_sound h₄
    have hlen : sid.length.toUInt8 = sidLen := by
      apply UInt8.toNat_inj.mp
      rw [hsid, Nat.toUInt8, UInt8.toNat_ofNat', Nat.mod_eq_of_lt sidLen.toNat_lt]
    rw [gt_iff_lt, UInt8.lt_iff_toNat_lt] at hle
    refine ⟨by rw [hsid]; exact Nat.le_of_not_lt hle, r₆, ?_⟩
    rw [encodeServerHello, toList_ofFn hrnd, hlen, u16_sound h₁, e₂, u8_sound h₃, e₄,
      u16_sound h₅, u8_sound h₆]
    simp only [List.append_assoc, List.cons_append, List.nil_append]

/-- A hello, which bytes after it do not disturb. -/
def serverHelloFormat : Format ServerHello UInt8 where
  Valid sh := sh.sessionId.length ≤ 32
  encode := encodeServerHello
  parse := parseServerHello
  round := parseServerHello_encode
  sound := parseServerHello_sound

/-- An encoding with a session id of more than 32 bytes is refused. -/
theorem parseServerHello_refused {sh : ServerHello} (h : 32 < sh.sessionId.length)
    (hlt : sh.sessionId.length < 256) (rest : List UInt8) :
    parseServerHello (encodeServerHello sh ++ rest) = none := by
  rw [encodeServerHello, List.append_assoc, List.append_assoc, List.cons_append]
  apply parseServerHello_long
  rw [gt_iff_lt, UInt8.lt_iff_toNat_lt, Nat.toUInt8, UInt8.toNat_ofNat', Nat.mod_eq_of_lt hlt]
  exact h

/-! ### The certificates -/

/-- `CertificateEntry`, with a place in the body for the pointer. -/
structure CertificateEntry where
  data : Nat
  len : Nat
deriving DecidableEq

/-- What an entry points to. -/
def CertificateEntry.bytes (body : List UInt8) (e : CertificateEntry) : List UInt8 :=
  (body.drop e.data).take e.len

/-- The loop of `parse_certificate_list`: `list` is what is left of the reader, at `pos` of the
body. -/
def certificateLoop : (rounds pos : Nat) → List UInt8 → List CertificateEntry →
    Bool × List CertificateEntry
  | 0, _, list, out => (list.length = 0, out)
  | rounds + 1, pos, list, out =>
      if list.length = 0 then (true, out) else
      match Reader.u24 list with
      | none => (false, out)
      | some (clen, list) =>
          match Reader.take clen.toNat list with
          | none => (false, out)
          | some (_, list) => certificateLoop rounds (pos + 3 + clen.toNat) list
              (out ++ [⟨pos + 3, clen.toNat⟩])

/-- `parse_certificate_list`: its result, and the entries that it leaves in `out`. -/
def certificateList (body : List UInt8) : Bool × List CertificateEntry :=
  match Reader.u24 body with
  | none => (false, [])
  | some (total, r) =>
      if r.length < total.toNat then (false, []) else
      let (ok, out) := certificateLoop total.toNat 3 (r.take total.toNat) []
      (ok && !out.isEmpty, out)

theorem length_entry (before : List UInt8) {cert : List UInt8} {n : Nat} (hcert : cert.length = n) :
    (before ++ (len24 n ++ cert)).length = before.length + 3 + n := by
  simp only [List.length_append, hcert, len24, List.length_cons, List.length_nil]
  omega

/-- An entry is the bytes behind its length. -/
theorem entry_bytes {body before cert after : List UInt8} {n : Nat} (hcert : cert.length = n)
    (hbody : body = before ++ (len24 n ++ (cert ++ after))) :
    CertificateEntry.bytes body ⟨before.length + 3, n⟩ = cert := by
  have hlen : (before ++ len24 n).length = before.length + 3 := List.length_append
  show (body.drop (before.length + 3)).take n = cert
  rw [hbody, ← List.append_assoc, ← hlen, List.drop_left, ← hcert, List.take_left]

/-- **The loop** adds entries inside the body, and they are the certificates if it comes to the
end. -/
theorem certificateLoop_spec (body : List UInt8) (rounds : Nat) :
    ∀ (before list after : List UInt8) (out : List CertificateEntry),
      body = before ++ (list ++ after) →
      ∃ es, certificateLoop rounds before.length list out =
          ((certificateEntries rounds list).isSome, out ++ es) ∧
        (∀ e ∈ es, e.data + e.len ≤ body.length) ∧
        ∀ certs, certificateEntries rounds list = some certs → es.map (·.bytes body) = certs := by
  induction rounds with
  | zero =>
      intro before list after out _
      refine ⟨[], ?_, nofun, ?_⟩
      · rw [certificateLoop, certificateEntries, List.append_nil]
        split
        · rename_i h
          simp [h]
        · rename_i h
          simp [h]
      · intro certs h
        rw [certificateEntries] at h
        split at h
        · cases h
          rfl
        · cases h
  | succ rounds ih =>
      intro before list after out hbody
      rw [certificateLoop, certificateEntries]
      by_cases hnil : list.length = 0
      · rw [if_pos hnil, if_pos hnil]
        refine ⟨[], by simp, nofun, ?_⟩
        intro certs h
        cases h
        rfl
      · rw [if_neg hnil, if_neg hnil]
        cases hlen : Reader.u24 list with
        | none => exact ⟨[], by simp, nofun, nofun⟩
        | some read =>
            obtain ⟨clen, list₁⟩ := read
            cases htake : Reader.take clen.toNat list₁ with
            | none => exact ⟨[], by simp [htake], nofun, by simp [htake]⟩
            | some read =>
                obtain ⟨cert, list₂⟩ := read
                obtain ⟨e₁, -⟩ := len24_u24 hlen
                obtain ⟨e₂, hcert⟩ := take_sound htake
                have hpos := length_entry before hcert
                have hmid : body = (before ++ (len24 clen.toNat ++ cert)) ++ (list₂ ++ after) := by
                  rw [hbody, e₁, e₂]
                  simp only [List.append_assoc]
                obtain ⟨es, hloop, hin, hcerts⟩ := ih (before ++ (len24 clen.toNat ++ cert)) list₂
                  after (out ++ [⟨before.length + 3, clen.toNat⟩]) hmid
                refine ⟨⟨before.length + 3, clen.toNat⟩ :: es, ?_, ?_, ?_⟩
                · rw [hpos, List.append_assoc, List.singleton_append] at hloop
                  simp only [hloop, htake, Option.bind_eq_bind, Option.bind_some]
                  cases certificateEntries rounds list₂ with
                  | none => rfl
                  | some certs => rfl
                · intro e he
                  rcases List.mem_cons.mp he with rfl | he
                  · show before.length + 3 + clen.toNat ≤ body.length
                    rw [hmid, List.length_append, hpos]
                    exact Nat.le_add_right _ _
                  · exact hin e he
                · intro certs h
                  simp only [htake, Option.bind_eq_bind, Option.bind_some] at h
                  obtain ⟨certs', hrest, hcons⟩ := Option.bind_eq_some_iff.mp h
                  cases hcons
                  rw [List.map_cons, hcerts certs' hrest]
                  have hplace : body = before ++ (len24 clen.toNat ++ (cert ++ (list₂ ++ after))) := by
                    rw [hmid]
                    simp only [List.append_assoc]
                  rw [entry_bytes hcert hplace]

/-- **`parse_certificate_list`**: every entry lies inside the body, also when the list is refused,
and the entries of an accepted list are its certificates. -/
theorem certificateList_spec (body : List UInt8) :
    (certificateList body).1 = (parseCertificateList body).isSome ∧
      (∀ e ∈ (certificateList body).2, e.data + e.len ≤ body.length) ∧
      ∀ certs, parseCertificateList body = some certs →
        (certificateList body).2.map (·.bytes body) = certs := by
  rw [certificateList, parseCertificateList]
  cases htotal : Reader.u24 body with
  | none => exact ⟨rfl, nofun, nofun⟩
  | some read =>
      obtain ⟨total, r⟩ := read
      simp only [Option.bind_eq_bind, Option.bind_some]
      by_cases hlen : r.length < total.toNat
      · rw [if_pos hlen, if_pos hlen]
        exact ⟨rfl, nofun, nofun⟩
      · rw [if_neg hlen, if_neg hlen]
        obtain ⟨hbody, -⟩ := len24_u24 htotal
        have hsplit : body = len24 total.toNat ++ (r.take total.toNat ++ r.drop total.toNat) := by
          rw [List.take_append_drop, ← hbody]
        obtain ⟨es, hloop, hin, hcerts⟩ := certificateLoop_spec body total.toNat _ _ _ [] hsplit
        have hthree : (len24 total.toNat).length = 3 := rfl
        rw [hthree, List.nil_append] at hloop
        rw [hloop]
        refine ⟨?_, hin, ?_⟩
        · cases hread : certificateEntries total.toNat (r.take total.toNat) with
          | none => rfl
          | some certs =>
              rw [← hcerts certs hread, Option.bind_some]
              cases es with
              | nil => rfl
              | cons e es => rfl
        · intro certs h
          obtain ⟨certs', hread, hne⟩ := Option.bind_eq_some_iff.mp h
          split at hne
          · cases hne
          · cases hne
            exact hcerts certs hread

/-! ### All three -/

/-- **The codecs**: what has been built is read back with whatever follows it, what is cut off is
refused, and so is a session id that is too long; no entry of a certificate list lies outside its
body. -/
theorem codecs :
    (∀ (type : UInt8) (body rest : List UInt8), body.length < 2 ^ 24 →
      parseHandshake (frame type body ++ rest) = some ⟨type, body, 4 + body.length⟩) ∧
    (∀ (type : UInt8) (body q : List UInt8), body.length < 2 ^ 24 →
      q <+: frame type body → q ≠ frame type body → parseHandshake q = none) ∧
    (∀ (sh : ServerHello) (rest : List UInt8), sh.sessionId.length ≤ 32 →
      parseServerHello (encodeServerHello sh ++ rest) = some sh) ∧
    (∀ (sh : ServerHello) (q : List UInt8), sh.sessionId.length ≤ 32 →
      q <+: encodeServerHello sh → q ≠ encodeServerHello sh → parseServerHello q = none) ∧
    (∀ (sh : ServerHello) (rest : List UInt8), 32 < sh.sessionId.length →
      sh.sessionId.length < 256 → parseServerHello (encodeServerHello sh ++ rest) = none) ∧
    (∀ (certs : List (List UInt8)) (rest : List UInt8), certs ≠ [] →
      (certs.flatMap encodeEntry).length < 2 ^ 24 →
      let body := encodeCertificateList certs ++ rest
      (certificateList body).1 = true ∧ (certificateList body).2.map (·.bytes body) = certs) ∧
    (∀ body : List UInt8, ∀ e ∈ (certificateList body).2, e.data + e.len ≤ body.length) := by
  refine ⟨?_, ?_, ?_, ?_, ?_, ?_, ?_⟩
  · intro type body rest hlen
    exact parseHandshake_frame hlen rest
  · intro type body q hlen hq hne
    exact handshakeFormat.prefix_refused
      (a := ⟨type, body, HANDSHAKE_HEADER_LEN + body.length⟩) ⟨hlen, rfl⟩ hq hne
  · intro sh rest hsid
    exact parseServerHello_encode hsid rest
  · intro sh q hsid hq hne
    exact serverHelloFormat.prefix_refused hsid hq hne
  · intro sh rest hlong hlt
    exact parseServerHello_refused hlong hlt rest
  · intro certs rest hne hlen
    obtain ⟨hok, -, hcerts⟩ := certificateList_spec (encodeCertificateList certs ++ rest)
    have hparse := parseCertificateList_encode hne hlen rest
    refine ⟨?_, hcerts certs hparse⟩
    rw [hok, hparse]
    rfl
  · intro body
    exact (certificateList_spec body).2.1

/-- A Finished message that is followed by another byte, and cut after its header; a hello and a
list of two certificates, one of them empty. -/
theorem codecs_small :
    parseHandshake (frame 20 [1, 2] ++ [9]) = some ⟨20, [1, 2], 6⟩ ∧
    parseHandshake [20, 0, 0, 2] = none ∧
    parseServerHello (encodeServerHello ⟨0x0301, Vector.replicate 32 7, [5], 4, 0⟩ ++ [9]) =
      some ⟨0x0301, Vector.replicate 32 7, [5], 4, 0⟩ ∧
    parseServerHello [3, 1] = none ∧
    parseServerHello (encodeServerHello ⟨0x0301, Vector.replicate 32 7, List.replicate 33 5, 4, 0⟩ ++
      [9]) = none ∧
    (certificateList (encodeCertificateList [[1, 2], []] ++ [9])).1 = true :=
  ⟨codecs.1 20 [1, 2] [9] (by decide),
    codecs.2.1 20 [1, 2] [20, 0, 0, 2] (by decide) ⟨[1, 2], rfl⟩ (by decide),
    codecs.2.2.1 _ [9] (by decide),
    codecs.2.2.2.1 ⟨0x0301, Vector.replicate 32 7, [5], 4, 0⟩ [3, 1] (by decide)
      ⟨(encodeServerHello ⟨0x0301, Vector.replicate 32 7, [5], 4, 0⟩).drop 2, rfl⟩ (by decide),
    codecs.2.2.2.2.1 _ [9] (by decide) (by decide),
    (codecs.2.2.2.2.2.1 [[1, 2], []] [9] (by decide) (by decide)).1⟩

end Ilo2.Tls
