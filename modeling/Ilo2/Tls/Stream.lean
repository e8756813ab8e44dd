import Ilo2.Tls.Client

/-!
# Streams of records

A writer turns pieces of plaintext into a stream of records; a reader takes a stream of
bytes apart again.

* `sendPieces` - what a writer sends.
* `Opens` - the records that a reader has opened, one after the other.
* `reader`, `writer` - the halves of a record layer: reading does not touch the one,
  writing does not touch the other.
-/

namespace Ilo2.Tls

open Crypto

/-! ### The two halves of a record layer -/

namespace RecordLayerT

variable {H : Type} [MacHash H]

def reader (r : RecordLayerT H) : RecordLayerT H :=
  { readCipher := r.readCipher, readSeq := r.readSeq }

def writer (r : RecordLayerT H) : RecordLayerT H :=
  { version := r.version, writeCipher := r.writeCipher, writeSeq := r.writeSeq }

/-- Whether two layers are in step is up to the writing half of the one and the reading half of
the other. -/
theorem InStep.of_reader {w r r' : RecordLayerT H} (h : InStep w r) (heq : r'.reader = r.reader) :
    InStep w r' where
  cipher := (congrArg readCipher heq).trans h.cipher
  seq := (congrArg readSeq heq).trans h.seq

theorem InStep.of_writer {w w' r : RecordLayerT H} (h : InStep w r) (heq : w'.writer = w.writer) :
    InStep w' r where
  cipher := h.cipher.trans (congrArg writeCipher heq).symm
  seq := h.seq.trans (congrArg writeSeq heq).symm

theorem unprotect_writer (r : RecordLayerT H) (type : UInt8) (version : UInt16)
    (body : List UInt8) : (r.unprotect type version body).2.writer = r.writer := by
  unfold unprotect
  dsimp only
  repeat' split
  all_goals rfl

theorem receive_writer (r : RecordLayerT H) (record : List UInt8) :
    (receive r record).2.writer = r.writer := by
  unfold receive
  split
  · rfl
  · exact unprotect_writer r _ _ _

/-- What is read depends on the reader alone. -/
theorem unprotect_reader (r : RecordLayerT H) (type : UInt8) (version : UInt16)
    (body : List UInt8) : r.reader.unprotect type version body =
      ((r.unprotect type version body).1, (r.unprotect type version body).2.reader) := by
  unfold unprotect
  dsimp only [reader]
  repeat' split
  all_goals rfl

/-- A record that is opened is counted. -/
theorem unprotect_seq {r r' : RecordLayerT H} {type : UInt8} {version : UInt16}
    {body plaintext : List UInt8} (h : r.unprotect type version body = (some plaintext, r')) :
    r'.readSeq = r.readSeq + 1 := by
  unfold unprotect at h
  dsimp only at h
  repeat' split at h
  all_goals cases h
  all_goals rfl

theorem protect_reader (r : RecordLayerT H) (type : UInt8) (data : List UInt8) :
    (r.protect type data).2.reader = r.reader := by
  rw [protect_eq]
  split <;> rfl

/-- What is written depends on the writer alone. -/
theorem protect_writer (r : RecordLayerT H) (type : UInt8) (data : List UInt8) :
    r.writer.protect type data =
      ((r.protect type data).1, (r.protect type data).2.writer) := by
  rw [protect_eq, protect_eq]
  split <;> rfl

end RecordLayerT

/-- What parses as a header is one. -/
theorem parseRecordHeader_sound {p : List UInt8} {h : RecordHeader}
    (hp : parseRecordHeader p = some h) :
    p.take RECORD_HEADER_LEN = RecordLayerT.header h.version h.type h.length.toNat := by
  match p, hp with
  | type :: v₁ :: v₀ :: l₁ :: l₀ :: rest, hp =>
      simp only [parseRecordHeader] at hp
      split at hp
      · cases hp
        obtain ⟨hl₁, hl₀⟩ := BigEndian.nat_u16 l₁ l₀
        obtain ⟨hv₁, hv₀⟩ := BigEndian.bytes_u16 v₁ v₀
        simp only [RecordLayerT.header, hl₁, hl₀, hv₁, hv₀]
        rfl
      · cases hp

/-- The header is in the first five bytes. -/
theorem parseRecordHeader_append {p : List UInt8} (h : RECORD_HEADER_LEN ≤ p.length)
    (q : List UInt8) : parseRecordHeader (p ++ q) = parseRecordHeader p := by
  match p, h with
  | type :: v₁ :: v₀ :: l₁ :: l₀ :: rest, _ => rfl
  | [], h => exact absurd h (by decide)
  | [_], h => exact absurd h (by simp [RECORD_HEADER_LEN])
  | [_, _], h => exact absurd h (by simp [RECORD_HEADER_LEN])
  | [_, _, _], h => exact absurd h (by simp [RECORD_HEADER_LEN])
  | [_, _, _, _], h => exact absurd h (by simp [RECORD_HEADER_LEN])

/-! ### Plaintext -/

/-- The plaintext of a record. -/
structure Piece where
  type : UInt8
  data : List UInt8

/-- The handshake bytes in a sequence of pieces. -/
def payload (ps : List Piece) : List UInt8 :=
  ps.flatMap fun p => if p.type = CT_HANDSHAKE then p.data else []

/-- An alert that the client goes on after: it is not fatal, and it is not `close_notify`. -/
def Ignored (body : List UInt8) : Prop :=
  ∃ a, parseAlert body = some a ∧ a.level ≠ 2 ∧ a.description ≠ 0

/-- A warning is ignored, unless it is `close_notify`. -/
theorem ignored_warning {description : UInt8} (h : description ≠ 0) : Ignored [1, description] :=
  ⟨⟨1, description⟩, rfl, (by decide : (1 : UInt8) ≠ 2), h⟩

/-- A record of a flight: a part of the handshake bytes that is not empty, or an alert that
the client ignores. -/
inductive Piece.Legal : Piece → Prop
  | fragment {data : List UInt8} : data ≠ [] → data.length ≤ MAX_PLAINTEXT →
      Legal ⟨CT_HANDSHAKE, data⟩
  | alert {data : List UInt8} : Ignored data → Legal ⟨CT_ALERT, data⟩

theorem Ignored.length {body : List UInt8} (h : Ignored body) : body.length = 2 := by
  obtain ⟨a, ha, -⟩ := h
  match body, ha with
  | [_, _], _ => rfl

theorem payload_cons (p : Piece) (ps : List Piece) :
    payload (p :: ps) = (if p.type = CT_HANDSHAKE then p.data else []) ++ payload ps := rfl

theorem payload_append (ps qs : List Piece) : payload (ps ++ qs) = payload ps ++ payload qs :=
  List.flatMap_append

/-! ### Records that were read -/

/-- A record as it was on the wire, and what it was opened to. -/
structure Received where
  type : UInt8
  version : UInt16
  body : List UInt8
  plaintext : List UInt8

def Received.piece (x : Received) : Piece := ⟨x.type, x.plaintext⟩

def Received.wire (x : Received) : List UInt8 :=
  RecordLayerT.header x.version x.type x.body.length ++ x.body

/-- The reader `r` opens the records `xs`, and is `r'` after them. -/
inductive Opens : RecordLayer → List Received → RecordLayer → Prop
  | nil (r : RecordLayer) : Opens r [] r
  | snoc {r r' r'' : RecordLayer} {xs : List Received} {x : Received} : Opens r xs r' →
      r'.unprotect x.type x.version x.body = (some x.plaintext, r'') → Opens r (xs ++ [x]) r''

/-- Without a cipher, a record is opened to its body. -/
theorem Opens.cleartext {r r' : RecordLayer} {xs : List Received} (h : Opens r xs r')
    (hr : r.readCipher = none) : r'.readCipher = none ∧ ∀ x ∈ xs, x.plaintext = x.body := by
  induction h with
  | nil => exact ⟨hr, by simp⟩
  | @snoc r₁ r₂ xs x _ hx ih =>
      obtain ⟨hr₁, hxs⟩ := ih
      unfold RecordLayerT.unprotect at hx
      rw [hr₁] at hx
      split at hx
      · cases hx
      · dsimp only at hx
        split at hx
        · cases hx
        · obtain ⟨hbody, rfl⟩ := Prod.mk.inj hx
          refine ⟨rfl, fun y hy => ?_⟩
          rcases List.mem_append.mp hy with hy | hy
          · exact hxs y hy
          · rw [List.mem_singleton.mp hy]
            exact (Option.some.inj hbody).symm

/-- The sequence number counts the records. -/
theorem Opens.readSeq {r r' : RecordLayer} {xs : List Received} (h : Opens r xs r') :
    r'.readSeq = r.readSeq + UInt64.ofNat xs.length := by
  induction h with
  | nil => simp
  | @snoc r₁ r₂ xs x _ hx ih =>
      rw [RecordLayerT.unprotect_seq hx, ih, List.length_append, List.length_singleton,
        UInt64.ofNat_add, UInt64.add_assoc]
      rfl

/-! ### Records that are sent -/

/-- A record of a length and a type that a record layer takes. -/
def Piece.Fits (p : Piece) : Prop := isValidContentType p.type ∧ p.data.length ≤ MAX_PLAINTEXT

theorem Piece.Legal.fits {p : Piece} (h : p.Legal) : p.Fits := by
  cases h with
  | fragment _ hlen => exact ⟨rfl, hlen⟩
  | alert hign => exact ⟨rfl, by rw [hign.length]; decide⟩

/-- A flight without handshake bytes has no fragments. -/
theorem alerts_of_payload {ps : List Piece} (hlegal : ∀ p ∈ ps, p.Legal) (h : payload ps = []) :
    ∀ p ∈ ps, p.type = CT_ALERT ∧ Ignored p.data := by
  intro p hp
  cases hlegal p hp with
  | fragment hne _ =>
      have hnil := List.flatMap_eq_nil_iff.mp h _ hp
      exact absurd hnil hne
  | alert hign => exact ⟨rfl, hign⟩

/-- A record, and the writer after it. -/
def sendPiece (w : RecordLayer) (p : Piece) : List UInt8 × RecordLayer :=
  match w.protect p.type p.data with
  | (some record, w) => (record, w)
  | (none, w) => ([], w)

def sendPieces : RecordLayer → List Piece → List UInt8 × RecordLayer
  | w, [] => ([], w)
  | w, p :: ps =>
      let (record, w) := sendPiece w p
      let (records, w) := sendPieces w ps
      (record ++ records, w)

/-- What is sent depends on the writer alone. -/
theorem sendPieces_writer (w : RecordLayer) (ps : List Piece) :
    sendPieces w.writer ps = ((sendPieces w ps).1, (sendPieces w ps).2.writer) := by
  induction ps generalizing w with
  | nil => rfl
  | cons p ps ih =>
      have hpiece : sendPiece w.writer p = ((sendPiece w p).1, (sendPiece w p).2.writer) := by
        have hprot := RecordLayerT.protect_writer w p.type p.data
        unfold sendPiece
        rw [hprot]
        rcases w.protect p.type p.data with ⟨record | record, w₁⟩ <;> rfl
      simp only [sendPieces, hpiece, ih]

theorem sendPieces_congr {w w' : RecordLayer} (h : w.writer = w'.writer) (ps : List Piece) :
    (sendPieces w ps).1 = (sendPieces w' ps).1 ∧
      (sendPieces w ps).2.writer = (sendPieces w' ps).2.writer := by
  have h₁ := sendPieces_writer w ps
  have h₂ := sendPieces_writer w' ps
  rw [h, h₂] at h₁
  exact ⟨(congrArg Prod.fst h₁).symm, (congrArg Prod.snd h₁).symm⟩

/-- Sending does not touch the reader. -/
theorem sendPieces_reader (w : RecordLayer) (ps : List Piece) :
    (sendPieces w ps).2.reader = w.reader := by
  induction ps generalizing w with
  | nil => rfl
  | cons p ps ih =>
      have hpiece : (sendPiece w p).2.reader = w.reader := by
        have hprot := RecordLayerT.protect_reader w p.type p.data
        unfold sendPiece
        rcases h : w.protect p.type p.data with ⟨record | record, w₁⟩ <;> rw [h] at hprot <;>
          exact hprot
      exact (ih _).trans hpiece

theorem sendPieces_append (w : RecordLayer) (ps qs : List Piece) :
    sendPieces w (ps ++ qs) =
      ((sendPieces w ps).1 ++ (sendPieces (sendPieces w ps).2 qs).1,
        (sendPieces (sendPieces w ps).2 qs).2) := by
  induction ps generalizing w with
  | nil => rfl
  | cons p ps ih => simp only [List.cons_append, sendPieces, ih, List.append_assoc]

end Ilo2.Tls
