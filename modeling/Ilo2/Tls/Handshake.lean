import Ilo2.Tls.Prf
import Ilo2.Tls.Record
import Ilo2.Crypto.Rsa

/-!
# Handshake messages

`handshake.hpp`: the messages, built and parsed, and the running hash over them.  A buffer
is a list of bytes, and a `Reader` is what is left of it.

* `parseHandshake_frame`, `parseHandshake_sound` - **a message parses exactly if it stands
  framed at the front of the buffer**.
* `parseServerHello_encode`, `parseCertificateList_encode` - the server's messages are read back.
* `Transcript.Absorbed` - the object has been given these messages, in whatever pieces.
-/

namespace Ilo2.Tls

open Crypto

def HT_CLIENT_HELLO : UInt8 := 1
def HT_SERVER_HELLO : UInt8 := 2
def HT_CERTIFICATE : UInt8 := 11
def HT_SERVER_KEY_EXCHANGE : UInt8 := 12
def HT_CERTIFICATE_REQUEST : UInt8 := 13
def HT_SERVER_HELLO_DONE : UInt8 := 14
def HT_CLIENT_KEY_EXCHANGE : UInt8 := 16
def HT_FINISHED : UInt8 := 20

def TLS_RSA_WITH_RC4_128_MD5 : UInt16 := 0x0004

def HANDSHAKE_HEADER_LEN : Nat := 4
def PREMASTER_LEN : Nat := 48

/-! ### The reader -/

namespace Reader

def u8 : List UInt8 → Option (UInt8 × List UInt8)
  | b :: r => some (b, r)
  | _ => none

def u16 : List UInt8 → Option (UInt16 × List UInt8)
  | b₁ :: b₀ :: r => some (BigEndian.u16 b₁ b₀, r)
  | _ => none

def u24 : List UInt8 → Option (UInt32 × List UInt8)
  | b₂ :: b₁ :: b₀ :: r => some (b₂.toUInt32 <<< 16 ||| b₁.toUInt32 <<< 8 ||| b₀.toUInt32, r)
  | _ => none

def take (n : Nat) (r : List UInt8) : Option (List UInt8 × List UInt8) :=
  if r.length < n then none else some (r.take n, r.drop n)

end Reader

/-! ### The transcript -/

structure Transcript where
  md5 : MD5 := MD5.init
  sha1 : SHA1 := SHA1.init

namespace Transcript

def update (t : Transcript) (p : List UInt8) : Transcript :=
  if p.length = 0 then t else ⟨t.md5.update p, t.sha1.update p⟩

/-- `snapshot`: both hashes of the messages so far; the object itself goes on. -/
def snapshot (t : Transcript) : Vector UInt8 MD5.DIGEST_SIZE × Vector UInt8 SHA1.DIGEST_SIZE :=
  (t.md5.digest.1, t.sha1.digest.1)

end Transcript

/-! ### Building -/

/-- A length in two bytes. -/
def len16 (n : Nat) : List UInt8 := [(n >>> 8).toUInt8, n.toUInt8]

/-- A length in three bytes. -/
def len24 (n : Nat) : List UInt8 := [(n >>> 16).toUInt8, (n >>> 8).toUInt8, n.toUInt8]

def be16 (v : UInt16) : List UInt8 := [(v >>> 8).toUInt8, v.toUInt8]

def frame (type : UInt8) (body : List UInt8) : List UInt8 := type :: (len24 body.length ++ body)

def makeClientRandom (gmtUnixTime : UInt32) (rng : Rng) :
    Option (Vector UInt8 RANDOM_LEN) × Rng :=
  let (bytes, rng) := secureRandom (RANDOM_LEN - 4) rng
  let time := [(gmtUnixTime >>> 24).toUInt8, (gmtUnixTime >>> 16).toUInt8,
    (gmtUnixTime >>> 8).toUInt8, gmtUnixTime.toUInt8]
  (bytes.map fun bs => Vector.ofFn fun i => (time ++ bs).getD i 0, rng)

def buildClientHello (version : UInt16) (random : Vector UInt8 RANDOM_LEN) (suites : List UInt16) :
    List UInt8 :=
  frame HT_CLIENT_HELLO
    (be16 version ++ random.toList ++ [0x00] ++ len16 (suites.length * 2) ++
      suites.flatMap be16 ++ [0x01, 0x00])

/-- `make_premaster`: the version is the one offered. -/
def makePremaster (offeredVersion : UInt16) (rng : Rng) : Option (List UInt8) × Rng :=
  let (bytes, rng) := secureRandom (PREMASTER_LEN - 2) rng
  (bytes.map fun bs => be16 offeredVersion ++ bs, rng)

theorem makePremaster_spec {version : UInt16} {premaster : List UInt8} {rng rng' : Rng}
    (h : makePremaster version rng = (some premaster, rng')) :
    premaster.length = PREMASTER_LEN ∧ premaster.take 2 = be16 version := by
  unfold makePremaster at h
  rcases hrandom : secureRandom (PREMASTER_LEN - 2) rng with ⟨_ | bs, rng₁⟩ <;> rw [hrandom] at h
  · cases h
  · cases h
    refine ⟨?_, rfl⟩
    rw [List.length_append, length_secureRandom hrandom]
    rfl

def buildClientKeyExchange (key : RsaPublicKey) (premaster : List UInt8) (rng : Rng) :
    Option (List UInt8) × Rng :=
  let (ciphertext, rng) := rsaEncryptPkcs1v15 key premaster rng
  (ciphertext.map fun c => frame HT_CLIENT_KEY_EXCHANGE (len16 c.length ++ c), rng)

def buildEmptyCertificate : List UInt8 := frame HT_CERTIFICATE [0x00, 0x00, 0x00]

/-- The verify data that belongs to a transcript. -/
def verifyData (master : Vector UInt8 MASTER_SECRET_LEN) (label : List UInt8) (t : Transcript) :
    Vector UInt8 VERIFY_DATA_LEN :=
  deriveVerifyData master label t.snapshot.1 t.snapshot.2

def buildFinished (master : Vector UInt8 MASTER_SECRET_LEN) (label : List UInt8) (t : Transcript) :
    List UInt8 := frame HT_FINISHED (verifyData master label t).toList

def checkFinished (master : Vector UInt8 MASTER_SECRET_LEN) (label : List UInt8) (t : Transcript)
    (body : List UInt8) : Bool :=
  if body.length ≠ VERIFY_DATA_LEN then false
  else ctEqual (verifyData master label t).toList body

/-! ### Parsing -/

/-- `len` is the length of the body. -/
structure HandshakeMessage where
  type : UInt8
  body : List UInt8
  total : Nat
deriving DecidableEq

def parseHandshake (p : List UInt8) : Option HandshakeMessage := do
  let (type, r) ← Reader.u8 p
  let (len, r) ← Reader.u24 r
  if r.length < len.toNat then none
  else some ⟨type, (p.drop HANDSHAKE_HEADER_LEN).take len.toNat, HANDSHAKE_HEADER_LEN + len.toNat⟩

structure ServerHello where
  version : UInt16
  random : Vector UInt8 RANDOM_LEN
  sessionId : List UInt8
  cipherSuite : UInt16
  compression : UInt8
deriving DecidableEq

/-- `parse_server_hello`: bytes after the compression method are ignored. -/
def parseServerHello (body : List UInt8) : Option ServerHello := do
  let (version, r) ← Reader.u16 body
  let (rnd, r) ← Reader.take RANDOM_LEN r
  let (sidLen, r) ← Reader.u8 r
  if sidLen > 32 then none else do
  let (sid, r) ← Reader.take sidLen.toNat r
  let (cipherSuite, r) ← Reader.u16 r
  let (compression, _) ← Reader.u8 r
  some ⟨version, Vector.ofFn fun i => rnd.getD i 0, sid, cipherSuite, compression⟩

/-- The loop of `parse_certificate_list`: an entry has three bytes at least, so there are no
more rounds than bytes. -/
def certificateEntries : (rounds : Nat) → List UInt8 → Option (List (List UInt8))
  | 0, r => if r.length = 0 then some [] else none
  | rounds + 1, r =>
      if r.length = 0 then some [] else do
      let (clen, r) ← Reader.u24 r
      let (cert, r) ← Reader.take clen.toNat r
      let certs ← certificateEntries rounds r
      some (cert :: certs)

def parseCertificateList (body : List UInt8) : Option (List (List UInt8)) := do
  let (total, r) ← Reader.u24 body
  if r.length < total.toNat then none else do
  let certs ← certificateEntries total.toNat (r.take total.toNat)
  if certs.isEmpty then none else some certs

structure Alert where
  level : UInt8
  description : UInt8
deriving DecidableEq

def parseAlert (body : List UInt8) : Option Alert :=
  match body with
  | [level, description] => some ⟨level, description⟩
  | _ => none

/-- `alert_name`. -/
def alertName (description : UInt8) : String :=
  match description.toNat with
  | 0 => "close_notify"
  | 10 => "unexpected_message"
  | 20 => "bad_record_mac"
  | 21 => "decryption_failed"
  | 22 => "record_overflow"
  | 30 => "decompression_failure"
  | 40 => "handshake_failure"
  | 41 => "no_certificate"
  | 42 => "bad_certificate"
  | 43 => "unsupported_certificate"
  | 44 => "certificate_revoked"
  | 45 => "certificate_expired"
  | 46 => "certificate_unknown"
  | 47 => "illegal_parameter"
  | 48 => "unknown_ca"
  | 49 => "access_denied"
  | 50 => "decode_error"
  | 51 => "decrypt_error"
  | 60 => "export_restriction"
  | 70 => "protocol_version"
  | 71 => "insufficient_security"
  | 80 => "internal_error"
  | 90 => "user_canceled"
  | 100 => "no_renegotiation"
  | _ => "unknown_alert"

/-! ### Messages in a buffer -/

theorem toNat_u24 (b₂ b₁ b₀ : UInt8) :
    (b₂.toUInt32 <<< 16 ||| b₁.toUInt32 <<< 8 ||| b₀.toUInt32).toNat =
      b₂.toNat * 65536 + b₁.toNat * 256 + b₀.toNat := by
  have hor := BigEndian.or_three b₂ b₁ b₀
  rw [UInt32.toNat_or, UInt32.toNat_or, BigEndian.toNat_shift_u32 b₂ (by decide),
    BigEndian.toNat_shift_u32 b₁ (by decide), UInt8.toNat_toUInt32]
  refine hor.trans ?_
  simp only [BigEndian.value, List.foldl_cons, List.foldl_nil]
  omega

/-- A length in three bytes is read back. -/
theorem u24_len24 {n : Nat} (h : n < 2 ^ 24) (r : List UInt8) :
    ∃ v, Reader.u24 (len24 n ++ r) = some (v, r) ∧ v.toNat = n := by
  refine ⟨_, rfl, ?_⟩
  rw [toNat_u24]
  simp only [Nat.toUInt8, UInt8.toNat_ofNat', Nat.shiftRight_eq_div_pow]
  omega

/-- Whatever is read as three bytes is a length in three bytes. -/
theorem len24_u24 {p r : List UInt8} {v : UInt32} (h : Reader.u24 p = some (v, r)) :
    p = len24 v.toNat ++ r ∧ v.toNat < 2 ^ 24 := by
  match p, h with
  | b₂ :: b₁ :: b₀ :: r', h =>
      simp only [Reader.u24, Option.some.injEq, Prod.mk.injEq] at h
      obtain ⟨rfl, rfl⟩ := h
      have h2 := b₂.toNat_lt
      have h1 := b₁.toNat_lt
      have h0 := b₀.toNat_lt
      rw [toNat_u24]
      refine ⟨?_, by omega⟩
      have e2 : ((b₂.toNat * 65536 + b₁.toNat * 256 + b₀.toNat) >>> 16).toUInt8 = b₂ := by
        apply UInt8.toNat_inj.mp
        rw [Nat.toUInt8, UInt8.toNat_ofNat', Nat.shiftRight_eq_div_pow]
        omega
      have e1 : ((b₂.toNat * 65536 + b₁.toNat * 256 + b₀.toNat) >>> 8).toUInt8 = b₁ := by
        apply UInt8.toNat_inj.mp
        rw [Nat.toUInt8, UInt8.toNat_ofNat', Nat.shiftRight_eq_div_pow]
        omega
      have e0 : (b₂.toNat * 65536 + b₁.toNat * 256 + b₀.toNat).toUInt8 = b₀ := by
        apply UInt8.toNat_inj.mp
        rw [Nat.toUInt8, UInt8.toNat_ofNat']
        omega
      rw [len24, e2, e1, e0]
      rfl

theorem length_frame (type : UInt8) (body : List UInt8) :
    (frame type body).length = HANDSHAKE_HEADER_LEN + body.length := by
  simp [frame, len24, HANDSHAKE_HEADER_LEN]
  omega

/-- A framed message is read back, whatever follows it. -/
theorem parseHandshake_frame {type : UInt8} {body : List UInt8} (h : body.length < 2 ^ 24)
    (rest : List UInt8) :
    parseHandshake (frame type body ++ rest) =
      some ⟨type, body, HANDSHAKE_HEADER_LEN + body.length⟩ := by
  obtain ⟨v, hv, hval⟩ := u24_len24 h (body ++ rest)
  have hrest : frame type body ++ rest = type :: (len24 body.length ++ (body ++ rest)) := by
    simp [frame]
  have hdrop : (frame type body ++ rest).drop HANDSHAKE_HEADER_LEN = body ++ rest := rfl
  unfold parseHandshake
  rw [hdrop, hrest]
  simp only [Reader.u8, hv, Option.bind_eq_bind, Option.bind_some, hval]
  rw [if_neg (by simp), List.take_left]

/-- What is read as a message stands framed at the front. -/
theorem parseHandshake_sound {p : List UInt8} {m : HandshakeMessage}
    (h : parseHandshake p = some m) :
    p = frame m.type m.body ++ p.drop m.total ∧ m.body.length < 2 ^ 24 ∧
      m.total = HANDSHAKE_HEADER_LEN + m.body.length := by
  unfold parseHandshake at h
  match p, h with
  | type :: r, h =>
      simp only [Reader.u8, Option.bind_eq_bind, Option.bind_some] at h
      obtain ⟨⟨v, r'⟩, hv, h⟩ := Option.bind_eq_some_iff.mp h
      obtain ⟨hr, hlt⟩ := len24_u24 hv
      dsimp only at h
      split at h
      · cases h
      · rename_i hlen
        cases h
        have hdrop : (type :: r).drop HANDSHAKE_HEADER_LEN = r' := by
          rw [hr]
          rfl
        have hbody : (r'.take v.toNat).length = v.toNat := by
          rw [List.length_take]
          omega
        dsimp only
        rw [hdrop, ← List.drop_drop, hdrop, frame, hbody]
        refine ⟨?_, hlt, rfl⟩
        rw [List.cons_append, List.append_assoc, List.take_append_drop, ← hr]

/-! ### What a server sends -/

/-- The body that `parse_server_hello` reads. -/
def encodeServerHello (sh : ServerHello) : List UInt8 :=
  be16 sh.version ++ (sh.random.toList ++ (sh.sessionId.length.toUInt8 :: (sh.sessionId ++
    (be16 sh.cipherSuite ++ [sh.compression]))))

def encodeEntry (cert : List UInt8) : List UInt8 := len24 cert.length ++ cert

/-- The body that `parse_certificate_list` reads. -/
def encodeCertificateList (certs : List (List UInt8)) : List UInt8 :=
  len24 (certs.flatMap encodeEntry).length ++ certs.flatMap encodeEntry

theorem take_append {n : Nat} {a : List UInt8} (h : a.length = n) (r : List UInt8) :
    Reader.take n (a ++ r) = some (a, r) := by
  rw [Reader.take, if_neg (by rw [List.length_append]; omega), ← h, List.take_left, List.drop_left]

theorem u16_be16 (v : UInt16) (r : List UInt8) : Reader.u16 (be16 v ++ r) = some (v, r) := by
  show some (BigEndian.u16 _ _, r) = _
  rw [BigEndian.u16_bytes]

/-- A vector that is copied byte by byte. -/
theorem ofFn_toList {n : Nat} (v : Vector UInt8 n) :
    (Vector.ofFn fun i : Fin n => v.toList.getD i 0) = v := by
  apply Vector.ext
  intro i hi
  have hlen : i < v.toList.length := by rwa [Vector.length_toList]
  rw [Vector.getElem_ofFn, List.getD_eq_getElem?_getD, List.getElem?_eq_getElem hlen]
  exact Vector.getElem_toList hlen

/-- A hello is read back, whatever follows it. -/
theorem parseServerHello_encode {sh : ServerHello} (h : sh.sessionId.length ≤ 32)
    (rest : List UInt8) : parseServerHello (encodeServerHello sh ++ rest) = some sh := by
  have hsid : sh.sessionId.length.toUInt8.toNat = sh.sessionId.length := by
    rw [Nat.toUInt8, UInt8.toNat_ofNat']
    omega
  have hle : ¬ sh.sessionId.length.toUInt8 > 32 := by
    rw [gt_iff_lt, UInt8.lt_iff_toNat_lt, hsid]
    exact Nat.not_lt.mpr h
  unfold parseServerHello encodeServerHello
  simp only [List.append_assoc, u16_be16, Option.bind_eq_bind, Option.bind_some,
    take_append Vector.length_toList, List.cons_append, Reader.u8]
  rw [if_neg hle, take_append hsid.symm]
  simp only [Option.bind_some, u16_be16, ofFn_toList]

theorem certificateEntries_encode {certs : List (List UInt8)} : ∀ {rounds : Nat},
    (certs.flatMap encodeEntry).length ≤ rounds → (certs.flatMap encodeEntry).length < 2 ^ 24 →
      certificateEntries rounds (certs.flatMap encodeEntry) = some certs := by
  induction certs with
  | nil =>
      intro rounds _ _
      cases rounds <;> rfl
  | cons cert certs ih =>
      intro rounds hle hlt
      have hlen : (len24 cert.length).length = 3 := rfl
      simp only [List.flatMap_cons, encodeEntry, List.length_append, hlen] at hle hlt
      cases rounds with
      | zero => omega
      | succ rounds =>
          obtain ⟨v, hv, hval⟩ := u24_len24 (n := cert.length) (by omega)
            (cert ++ certs.flatMap encodeEntry)
          rw [List.flatMap_cons]
          unfold certificateEntries
          rw [if_neg (by simp [encodeEntry, len24]), encodeEntry, List.append_assoc, hv]
          simp only [Option.bind_eq_bind, Option.bind_some, hval]
          rw [take_append rfl, Option.bind_some, ih (by omega) (by omega)]
          rfl

/-- A list of certificates is read back, whatever follows it. -/
theorem parseCertificateList_encode {certs : List (List UInt8)} (hne : certs ≠ [])
    (h : (certs.flatMap encodeEntry).length < 2 ^ 24) (rest : List UInt8) :
    parseCertificateList (encodeCertificateList certs ++ rest) = some certs := by
  obtain ⟨v, hv, hval⟩ := u24_len24 h (certs.flatMap encodeEntry ++ rest)
  unfold parseCertificateList encodeCertificateList
  rw [List.append_assoc, hv]
  simp only [Option.bind_eq_bind, Option.bind_some, hval]
  rw [if_neg (by simp), List.take_left, certificateEntries_encode (Nat.le_refl _) h,
    Option.bind_some, if_neg (by simpa using hne)]

/-! ### The transcript -/

namespace Transcript

/-- The object has been given the bytes `msgs`, in whatever pieces. -/
structure Absorbed (t : Transcript) (msgs : List UInt8) : Prop where
  md5 : MD5.Absorbed t.md5 msgs
  sha1 : SHA1.Absorbed t.sha1 msgs

theorem Absorbed.start : Absorbed {} [] := ⟨MD5.Absorbed.init, SHA1.Absorbed.init⟩

theorem Absorbed.update {t : Transcript} {msgs : List UInt8} (h : Absorbed t msgs)
    (p : List UInt8) : Absorbed (t.update p) (msgs ++ p) := by
  unfold Transcript.update
  split
  · rename_i hp
    rw [List.length_eq_zero_iff.mp hp, List.append_nil]
    exact h
  · exact ⟨h.md5.update p, h.sha1.update p⟩

/-- A number of messages, one after the other. -/
theorem Absorbed.foldl {t : Transcript} {before : List UInt8} (h : Absorbed t before)
    (msgs : List (List UInt8)) :
    Absorbed (msgs.foldl Transcript.update t) (before ++ msgs.flatten) := by
  induction msgs generalizing t before with
  | nil => rwa [List.flatten_nil, List.append_nil]
  | cons m msgs ih =>
      rw [List.foldl_cons, List.flatten_cons, ← List.append_assoc]
      exact ih (h.update m)

/-- A snapshot is the two hashes of what has been absorbed. -/
theorem Absorbed.snapshot {t : Transcript} {msgs : List UInt8} (h : Absorbed t msgs) :
    t.snapshot = (MD5.hash msgs, SHA1.hash msgs) := by
  rw [Transcript.snapshot, h.md5.digest, h.sha1.digest]

theorem Absorbed.verifyData {t : Transcript} {msgs : List UInt8} (h : Absorbed t msgs)
    (master : Vector UInt8 MASTER_SECRET_LEN) (label : List UInt8) :
    verifyData master label t =
      deriveVerifyData master label (MD5.hash msgs) (SHA1.hash msgs) := by
  rw [Tls.verifyData, h.snapshot]

theorem Absorbed.finished {t : Transcript} {msgs : List UInt8} (h : Absorbed t msgs)
    (master : Vector UInt8 MASTER_SECRET_LEN) (label : List UInt8) :
    buildFinished master label t =
      frame HT_FINISHED (deriveVerifyData master label (MD5.hash msgs) (SHA1.hash msgs)).toList := by
  rw [buildFinished, h.verifyData]

end Transcript

/-- A body passes the check if it is the verify data. -/
theorem checkFinished_iff {master : Vector UInt8 MASTER_SECRET_LEN} {label : List UInt8}
    {t : Transcript} {body : List UInt8} :
    checkFinished master label t body = true ↔ body = (verifyData master label t).toList := by
  unfold checkFinished
  split
  · rename_i hne
    constructor
    · intro h
      cases h
    · intro h
      rw [h, Vector.length_toList] at hne
      exact absurd rfl hne
  · rename_i hlen
    rw [ctEqual_iff (by rw [Vector.length_toList]; omega), eq_comm]

end Ilo2.Tls
