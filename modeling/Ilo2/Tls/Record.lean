import Ilo2.Lib.BigEndian
import Ilo2.Crypto.Hmac
import Ilo2.Crypto.Rc4

/-!
# The record layer

`record.hpp`: records are protected with a MAC over the plaintext, the sequence number
and the header fields, and then encrypted with a keystream that runs on from record to
record.

* `InStep` - a reader whose cipher and number are those of the writer.
* `protect_unprotect` - such a reader returns what the writer was given.
* `unprotect_protect` - a body it accepts is the one the writer would have sent.
* `record_lockstep` - **every history of records and key changes keeps the two in step**.
-/

namespace Ilo2.Tls

open Crypto BigEndian

def CT_CHANGE_CIPHER_SPEC : UInt8 := 20
def CT_ALERT : UInt8 := 21
def CT_HANDSHAKE : UInt8 := 22
def CT_APPLICATION_DATA : UInt8 := 23

def VERSION_TLS_1_0 : UInt16 := 0x0301
def RECORD_HEADER_LEN : Nat := 5
def MAX_PLAINTEXT : Nat := 16384
def MAX_CIPHERTEXT : Nat := 16384 + 2048

structure RecordHeader where
  type : UInt8
  version : UInt16
  length : UInt16
deriving DecidableEq

def parseRecordHeader (p : List UInt8) : Option RecordHeader :=
  match p with
  | type :: v₁ :: v₀ :: l₁ :: l₀ :: _ =>
      let h : RecordHeader := ⟨type, u16 v₁ v₀, u16 l₁ l₀⟩
      if h.length.toNat ≤ MAX_CIPHERTEXT then some h else none
  | _ => none

def isValidContentType (t : UInt8) : Bool :=
  t = CT_CHANGE_CIPHER_SPEC ∨ t = CT_ALERT ∨ t = CT_HANDSHAKE ∨ t = CT_APPLICATION_DATA

/-- `ct_equal`: compare without stopping at the first difference. -/
def ctEqual (a b : List UInt8) : Bool :=
  (a.zip b).foldl (fun diff p => diff ||| (p.1 ^^^ p.2)) 0 = 0

theorem ctEqual_iff {a b : List UInt8} (h : a.length = b.length) :
    ctEqual a b = true ↔ a = b := by
  have hor (x y : UInt8) : x ||| y = 0 ↔ x = 0 ∧ y = 0 := UInt8.or_eq_zero_iff
  have aux : ∀ (a b : List UInt8) (diff : UInt8), a.length = b.length →
      ((a.zip b).foldl (fun diff p => diff ||| (p.1 ^^^ p.2)) diff = 0 ↔ diff = 0 ∧ a = b) := by
    intro a
    induction a with
    | nil =>
        intro b diff h
        rw [List.length_eq_zero_iff.mp h.symm]
        simp
    | cons x a ih =>
        intro b diff h
        cases b with
        | nil => cases h
        | cons y b =>
            rw [List.zip_cons_cons, List.foldl_cons, ih b _ (Nat.succ.inj h), hor,
              UInt8.xor_eq_zero_iff, List.cons.injEq, and_assoc]
  unfold ctEqual
  rw [decide_eq_true_iff, aux a b 0 h]
  simp

/-! ### Keys -/

def KEY_LEN : Nat := 16

section Keys

variable (H : Type) [MacHash H]

def MAC_LEN : Nat := MacHash.DIGEST_SIZE H

structure KeyMaterialT where
  clientMac : Vector UInt8 (MAC_LEN H)
  serverMac : Vector UInt8 (MAC_LEN H)
  clientKey : Vector UInt8 KEY_LEN
  serverKey : Vector UInt8 KEY_LEN

def KEY_BLOCK_LEN : Nat := 2 * MAC_LEN H + 2 * KEY_LEN

/-- `split`: cut the key block into the four keys. -/
def KeyMaterialT.split (kb : Vector UInt8 (KEY_BLOCK_LEN H)) : KeyMaterialT H where
  clientMac := Vector.ofFn fun i => kb.toList.getD i 0
  serverMac := Vector.ofFn fun i => kb.toList.getD (MAC_LEN H + i) 0
  clientKey := Vector.ofFn fun i => kb.toList.getD (2 * MAC_LEN H + i) 0
  serverKey := Vector.ofFn fun i => kb.toList.getD (2 * MAC_LEN H + KEY_LEN + i) 0

/-- What an active direction holds: its MAC object and its keystream. -/
structure CipherState where
  mac : HMAC H
  rc4 : RC4

/-- `write_mac_` and `write_rc4_` mean something only while `write_active_` is set, so
the three are one optional `CipherState`; the same for reading. -/
structure RecordLayerT where
  version : UInt16 := VERSION_TLS_1_0
  writeCipher : Option (CipherState H) := none
  readCipher : Option (CipherState H) := none
  writeSeq : UInt64 := 0
  readSeq : UInt64 := 0

end Keys

variable {H : Type} [MacHash H]

def CipherState.ofKeys (macKey : Vector UInt8 (MAC_LEN H)) (encKey : Vector UInt8 KEY_LEN) :
    CipherState H := ⟨HMAC.init macKey.toList, RC4.raw encKey.toList⟩

namespace RecordLayerT

def enableWriteCipher (r : RecordLayerT H) (macKey : Vector UInt8 (MAC_LEN H))
    (encKey : Vector UInt8 KEY_LEN) : RecordLayerT H :=
  { r with writeCipher := some (.ofKeys macKey encKey), writeSeq := 0 }

def enableReadCipher (r : RecordLayerT H) (macKey : Vector UInt8 (MAC_LEN H))
    (encKey : Vector UInt8 KEY_LEN) : RecordLayerT H :=
  { r with readCipher := some (.ofKeys macKey encKey), readSeq := 0 }

/-- What `append_header` appends. -/
def header (version : UInt16) (type : UInt8) (len : Nat) : List UInt8 :=
  [type, (version >>> 8).toUInt8, version.toUInt8, (len >>> 8).toUInt8, len.toUInt8]

/-- The 13 bytes in front of the fragment in the input of the MAC. -/
def macHeader (seq : UInt64) (type : UInt8) (version : UInt16) (len : Nat) : List UInt8 :=
  (List.range 8).map (fun i => (seq >>> (56 - 8 * i).toUInt64).toUInt8) ++
    header version type len

def computeMac (mac : HMAC H) (seq : UInt64) (type : UInt8) (version : UInt16)
    (frag : List UInt8) : Vector UInt8 (MAC_LEN H) × HMAC H :=
  let mac := mac.update (macHeader seq type version frag.length)
  let mac := if frag.length ≠ 0 then mac.update frag else mac
  mac.digest

/-- `protect`: the record, if the data fits in one, and the layer after it. -/
def protect (r : RecordLayerT H) (type : UInt8) (data : List UInt8) :
    Option (List UInt8) × RecordLayerT H :=
  if data.length > MAX_PLAINTEXT then (none, r) else
  match r.writeCipher with
  | none =>
      (some (header r.version type data.length ++ data), { r with writeSeq := r.writeSeq + 1 })
  | some c =>
      let (tag, mac) := computeMac c.mac r.writeSeq type r.version data
      let (frag, rc4) := c.rc4.crypt (data ++ tag.toList)
      (some (header r.version type frag.length ++ frag),
        { r with writeCipher := some ⟨mac, rc4⟩, writeSeq := r.writeSeq + 1 })

/-- `unprotect`: the plaintext of a record body, if it is one, and the layer after it. -/
def unprotect (r : RecordLayerT H) (type : UInt8) (version : UInt16) (body : List UInt8) :
    Option (List UInt8) × RecordLayerT H :=
  if body.length > MAX_CIPHERTEXT then (none, r) else
  match r.readCipher with
  | none =>
      if body.length > MAX_PLAINTEXT then (none, r)
      else (some body, { r with readSeq := r.readSeq + 1 })
  | some c =>
      if body.length < MAC_LEN H then (none, r) else
      let (buf, rc4) := c.rc4.crypt body
      let plainLen := buf.length - MAC_LEN H
      if plainLen > MAX_PLAINTEXT then (none, { r with readCipher := some ⟨c.mac, rc4⟩ }) else
      let (want, mac) := computeMac c.mac r.readSeq type version (buf.take plainLen)
      if ctEqual want.toList (buf.drop plainLen) then
        (some (buf.take plainLen),
          { r with readCipher := some ⟨mac, rc4⟩, readSeq := r.readSeq + 1 })
      else (none, { r with readCipher := some ⟨mac, rc4⟩ })

/-! ### One record -/

theorem length_header (version : UInt16) (type : UInt8) (len : Nat) :
    (header version type len).length = RECORD_HEADER_LEN := rfl

/-- A header says what it was made from. -/
theorem parseRecordHeader_header {version : UInt16} {type : UInt8} {body : List UInt8}
    (h : body.length ≤ MAX_CIPHERTEXT) :
    ∃ len, parseRecordHeader (header version type body.length ++ body) = some ⟨type, version, len⟩ ∧
      len.toNat = body.length := by
  have hlen : (u16 (body.length >>> 8).toUInt8 body.length.toUInt8).toNat = body.length :=
    u16_nat (Nat.lt_of_le_of_lt h (by decide))
  refine ⟨_, ?_, hlen⟩
  show (if (u16 (body.length >>> 8).toUInt8 body.length.toUInt8).toNat ≤ MAX_CIPHERTEXT then
    some (⟨type, u16 (version >>> 8).toUInt8 version.toUInt8, _⟩ : RecordHeader) else none) = _
  rw [hlen, if_pos h, u16_bytes]

/-- The MAC object is as good as new after every record. -/
theorem computeMac_snd (mac : HMAC H) (seq : UInt64) (type : UInt8) (version : UInt16)
    (frag : List UInt8) : (computeMac mac seq type version frag).2 = mac.begin := by
  unfold computeMac
  dsimp only
  split <;> rfl

/-- What the writer sends after the header, and its cipher after it. -/
def sealed (r : RecordLayerT H) (type : UInt8) (data : List UInt8) :
    List UInt8 × Option (CipherState H) :=
  match r.writeCipher with
  | none => (data, none)
  | some c =>
      let out := c.rc4.crypt (data ++ (computeMac c.mac r.writeSeq type r.version data).1.toList)
      (out.1, some ⟨c.mac.begin, out.2⟩)

/-- **`protect`** sends a header and the sealed data, or refuses and changes nothing. -/
theorem protect_eq (r : RecordLayerT H) (type : UInt8) (data : List UInt8) :
    r.protect type data = if data.length > MAX_PLAINTEXT then (none, r) else
      (some (header r.version type (r.sealed type data).1.length ++ (r.sealed type data).1),
        { r with writeCipher := (r.sealed type data).2, writeSeq := r.writeSeq + 1 }) := by
  unfold protect sealed
  split
  · rfl
  · cases hc : r.writeCipher with
    | none => rfl
    | some c => simp only [computeMac_snd]

theorem length_sealed_le (r : RecordLayerT H) (type : UInt8) {data : List UInt8}
    (h : data.length ≤ MAX_PLAINTEXT) : (r.sealed type data).1.length ≤ MAX_CIPHERTEXT := by
  have hmac : MAC_LEN H ≤ 2048 := Nat.le_trans MacHash.digest_le MacHash.block_le
  have hmax : MAX_CIPHERTEXT = MAX_PLAINTEXT + 2048 := rfl
  unfold sealed
  cases r.writeCipher with
  | none => exact Nat.le_trans h (by omega)
  | some c =>
      simp only [RC4.crypt, Keystream.length_crypt, List.length_append, Vector.length_toList]
      omega

/-! ### Two layers in step -/

/-- A reader that is where the writer is. -/
structure InStep (w r : RecordLayerT H) : Prop where
  cipher : r.readCipher = w.writeCipher
  seq : r.readSeq = w.writeSeq

/-- The reader opens what the writer sealed, and the two stay in step. -/
theorem InStep.unprotect_sealed {w r : RecordLayerT H} (h : InStep w r) (type : UInt8)
    {data : List UInt8} (hlen : data.length ≤ MAX_PLAINTEXT) :
    r.unprotect type w.version (w.sealed type data).1 =
      (some data, { r with readCipher := (w.sealed type data).2, readSeq := r.readSeq + 1 }) := by
  have hmax : MAX_PLAINTEXT ≤ MAX_CIPHERTEXT := by decide
  have hbody := length_sealed_le w type hlen
  unfold unprotect
  rw [if_neg (Nat.not_lt.mpr hbody), h.cipher, h.seq]
  unfold sealed
  cases hc : w.writeCipher with
  | none => simp only [if_neg (Nat.not_lt.mpr hlen)]
  | some c =>
      have htag : (computeMac c.mac w.writeSeq type w.version data).1.toList.length = MAC_LEN H :=
        Vector.length_toList
      dsimp only
      simp only [RC4.crypt, Keystream.length_crypt, Keystream.crypt_crypt]
      rw [if_neg (by rw [List.length_append]; omega)]
      rw [List.length_append, htag, Nat.add_sub_cancel, if_neg (Nat.not_lt.mpr hlen),
        List.take_left, List.drop_left, if_pos ((ctEqual_iff rfl).mpr rfl), computeMac_snd]

/-- A body that the reader opens is the one that the writer would have sealed. -/
theorem InStep.sealed_unprotect {w r : RecordLayerT H} (h : InStep w r) {type : UInt8}
    {data body : List UInt8} (hopen : (r.unprotect type w.version body).1 = some data) :
    data.length ≤ MAX_PLAINTEXT ∧ (w.sealed type data).1 = body := by
  unfold unprotect at hopen
  rw [h.cipher, h.seq] at hopen
  unfold sealed
  split at hopen
  · cases hopen
  cases hc : w.writeCipher with
  | none =>
      simp only [hc] at hopen
      split at hopen
      · cases hopen
      · cases hopen
        exact ⟨by omega, rfl⟩
  | some c =>
      simp only [hc] at hopen
      split at hopen
      · cases hopen
      split at hopen
      · cases hopen
      split at hopen
      · rename_i hmac hplain heq
        cases hopen
        have hbuf : (c.rc4.crypt body).1.length = body.length := Keystream.length_crypt _ _ _
        have htag := (ctEqual_iff (by
          rw [Vector.length_toList, List.length_drop]
          omega)).mp heq
        refine ⟨by rw [List.length_take]; omega, ?_⟩
        dsimp only
        rw [htag, List.take_append_drop]
        exact congrArg Prod.fst (Keystream.crypt_crypt RC4.randomValue c.rc4 body)
      · cases hopen

/-- Protecting and unprotecting, whole records. -/
theorem InStep.protect_unprotect {w r : RecordLayerT H} (h : InStep w r) (type : UInt8)
    {data : List UInt8} (hlen : data.length ≤ MAX_PLAINTEXT) :
    ∃ body len, (w.protect type data).1 = some (header w.version type body.length ++ body) ∧
      parseRecordHeader (header w.version type body.length ++ body) =
        some ⟨type, w.version, len⟩ ∧ len.toNat = body.length ∧
      (r.unprotect type w.version body).1 = some data ∧
      InStep (w.protect type data).2 (r.unprotect type w.version body).2 := by
  obtain ⟨len, hparse, hval⟩ := @parseRecordHeader_header w.version type _
    (length_sealed_le w type hlen)
  refine ⟨_, len, ?_, hparse, hval, ?_, ?_⟩
  · rw [protect_eq, if_neg (Nat.not_lt.mpr hlen)]
  · rw [h.unprotect_sealed type hlen]
  · rw [protect_eq, if_neg (Nat.not_lt.mpr hlen), h.unprotect_sealed type hlen]
    exact ⟨rfl, congrArg (· + 1) h.seq⟩

end RecordLayerT

/-! ### Histories -/

/-- A step of the two parties: a fragment to send, or new keys on both sides. -/
inductive Step (H : Type) [MacHash H] where
  | fragment (type : UInt8) (data : List UInt8)
  | enable (macKey : Vector UInt8 (MAC_LEN H)) (encKey : Vector UInt8 KEY_LEN)

/-- Read a record: its header, then its body. -/
def receive (r : RecordLayerT H) (record : List UInt8) :
    Option (List UInt8) × RecordLayerT H :=
  match parseRecordHeader record with
  | none => (none, r)
  | some h => r.unprotect h.type h.version (record.drop RECORD_HEADER_LEN)

/-- Send a fragment, unless the writer refuses it. -/
def deliver (p : RecordLayerT H × RecordLayerT H) (type : UInt8) (data : List UInt8) :
    RecordLayerT H × RecordLayerT H :=
  match p.1.protect type data with
  | (none, w) => (w, p.2)
  | (some record, w) => (w, (receive p.2 record).2)

/-- The writer and the reader after a step. -/
def Step.run (p : RecordLayerT H × RecordLayerT H) : Step H → RecordLayerT H × RecordLayerT H
  | .fragment type data => deliver p type data
  | .enable macKey encKey =>
      (p.1.enableWriteCipher macKey encKey, p.2.enableReadCipher macKey encKey)

/-- A writer and a reader after a history, from two fresh layers. -/
def history (vw vr : UInt16) (steps : List (Step H)) : RecordLayerT H × RecordLayerT H :=
  steps.foldl Step.run ({ version := vw }, { version := vr })

theorem receive_header {version : UInt16} {type : UInt8} {len : UInt16} {body : List UInt8}
    (r : RecordLayerT H)
    (h : parseRecordHeader (RecordLayerT.header version type body.length ++ body) =
      some ⟨type, version, len⟩) :
    receive r (RecordLayerT.header version type body.length ++ body) =
      r.unprotect type version body := by
  unfold receive
  rw [h]
  rfl

/-- Sending keeps the two in step. -/
theorem deliver_inStep {p : RecordLayerT H × RecordLayerT H} (h : p.1.InStep p.2) (type : UInt8)
    (data : List UInt8) : (deliver p type data).1.InStep (deliver p type data).2 := by
  unfold deliver
  by_cases hlen : data.length ≤ MAX_PLAINTEXT
  · obtain ⟨body, len, hprot, hparse, -, -, hin⟩ := h.protect_unprotect type hlen
    rcases hp : p.1.protect type data with ⟨out, w⟩
    rw [hp] at hprot hin
    dsimp only at hprot hin
    subst hprot
    dsimp only
    rw [receive_header _ hparse]
    exact hin
  · rw [RecordLayerT.protect_eq, if_pos (Nat.lt_of_not_le hlen)]
    exact h

theorem history_inStep (vw vr : UInt16) (steps : List (Step H)) :
    (history vw vr steps).1.InStep (history vw vr steps).2 := by
  unfold history
  induction steps using List.reverseRecOn with
  | nil => exact ⟨rfl, rfl⟩
  | append_singleton steps s ih =>
      rw [List.foldl_append]
      cases s with
      | fragment type data => exact deliver_inStep ih type data
      | enable macKey encKey => exact ⟨rfl, rfl⟩

/-- **The record layer stays in step.**  After any history of fragments and key changes:

* the two sequence numbers agree;
* a fragment of at most `2 ^ 14` bytes is accepted, its header parses, and the reader
  returns exactly its data;
* a longer one is refused, and the writer is what it was;
* a body that the reader accepts is the one the writer would have sent for what the
  reader returns. -/
theorem record_lockstep (vw vr : UInt16) (steps : List (Step H)) (type : UInt8) :
    (history vw vr steps).2.readSeq = (history vw vr steps).1.writeSeq ∧
    (∀ data, data.length ≤ MAX_PLAINTEXT → ∃ record h,
      ((history vw vr steps).1.protect type data).1 = some record ∧
      parseRecordHeader record = some h ∧ h.type = type ∧
      h.version = (history vw vr steps).1.version ∧
      h.length.toNat = (record.drop RECORD_HEADER_LEN).length ∧
      ((history vw vr steps).2.unprotect h.type h.version (record.drop RECORD_HEADER_LEN)).1 =
        some data) ∧
    (∀ data, MAX_PLAINTEXT < data.length →
      (history vw vr steps).1.protect type data = (none, (history vw vr steps).1)) ∧
    ∀ body data, ((history vw vr steps).2.unprotect type (history vw vr steps).1.version body).1 =
      some data → ∃ record, ((history vw vr steps).1.protect type data).1 = some record ∧
        record.drop RECORD_HEADER_LEN = body := by
  have hin := history_inStep vw vr steps
  refine ⟨hin.seq, fun data hlen => ?_, fun data hlen => ?_, fun body data hopen => ?_⟩
  · obtain ⟨body, len, hprot, hparse, hval, hopen, -⟩ := hin.protect_unprotect type hlen
    exact ⟨_, _, hprot, hparse, rfl, rfl, hval, hopen⟩
  · rw [RecordLayerT.protect_eq, if_pos hlen]
  · obtain ⟨hlen, hsealed⟩ := hin.sealed_unprotect hopen
    refine ⟨RecordLayerT.header (history vw vr steps).1.version type body.length ++ body, ?_, rfl⟩
    rw [RecordLayerT.protect_eq, if_neg (Nat.not_lt.mpr hlen), hsealed]

end Ilo2.Tls
