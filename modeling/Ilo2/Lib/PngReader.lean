import Ilo2.Lib.Inflate
import Ilo2.Lib.Crc

/-!
# Pictures

A reader of the PNG format, for pictures with eight bits a sample that are not interlaced and have
no chunks but those that every picture has.

* `chunk_write` - a chunk is read back, when its check value is the one of what is in it.
* `unfilterRow_filtered` - **a line is read back** from its differences to what was predicted.
* `read_write` - a picture is read from its parts.
-/

namespace PngReader

/-! ### Chunks -/

/-- The check value of a chunk. -/
def crc32 (bytes : List UInt8) : Nat :=
  (~~~Crc.remainder 0xEDB88320#32 0xFFFFFFFF#32 bytes).toNat

/-- A chunk: its type, what is in it, and the bytes behind it. -/
def chunk (bytes : List UInt8) : Option (List UInt8 × List UInt8 × List UInt8) :=
  let len := BigEndian.value (bytes.take 4)
  let type := (bytes.drop 4).take 4
  let data := (bytes.drop 8).take len
  if bytes.length < 12 + len then none
  else if BigEndian.value ((bytes.drop (8 + len)).take 4) ≠ crc32 (type ++ data) then none
  else some (type, data, bytes.drop (12 + len))

def IHDR : List UInt8 := [0x49, 0x48, 0x44, 0x52]
def IDAT : List UInt8 := [0x49, 0x44, 0x41, 0x54]
def IEND : List UInt8 := [0x49, 0x45, 0x4E, 0x44]

/-- What the data chunks hold, one behind the other, up to the end of the picture. -/
def dataChunks : (fuel : Nat) → List UInt8 → Option (List UInt8)
  | 0, _ => none
  | fuel + 1, bytes => do
      let (type, data, rest) ← chunk bytes
      if type = IDAT then
        let more ← dataChunks fuel rest
        some (data ++ more)
      else if type = IEND ∧ data = [] ∧ rest = [] then some []
      else none

/-! ### Filters -/

/-- The one of `a`, `b` and `c` that is closest to `a + b - c`. -/
def paeth (a b c : UInt8) : UInt8 :=
  let p : Int := a.toNat + b.toNat - c.toNat
  let pa := (p - a.toNat).natAbs
  let pb := (p - b.toNat).natAbs
  let pc := (p - c.toNat).natAbs
  if pa ≤ pb ∧ pa ≤ pc then a else if pb ≤ pc then b else c

/-- What a filter predicts for a byte: `a` is to its left, `b` above it, `c` above `a`. -/
def predict (type : Nat) (a b c : UInt8) : UInt8 :=
  match type with
  | 0 => 0
  | 1 => a
  | 2 => b
  | 3 => ((a.toNat + b.toNat) / 2).toUInt8
  | _ => paeth a b c

/-- The byte that is `bpp` bytes before position `i`. -/
def before (bpp : Nat) (line : List UInt8) (i : Nat) : UInt8 :=
  if i < bpp then 0 else line.getD (i - bpp) 0

/-- The bytes of a line, with the line above it. -/
def unfilterRow (bpp type : Nat) (above : List UInt8) : (line done : List UInt8) → List UInt8
  | [], done => done
  | x :: line, done =>
      unfilterRow bpp type above line (done ++ [x + predict type (before bpp done done.length)
        (above.getD done.length 0) (before bpp above done.length)])

/-- The lines of a picture; in front of each one is its filter. -/
def unfilter (bpp rowBytes : Nat) : (rows : Nat) → (above bytes : List UInt8) →
    Option (List UInt8)
  | 0, _, bytes => if bytes = [] then some [] else none
  | _ + 1, _, [] => none
  | rows + 1, above, type :: bytes =>
      if 4 < type.toNat ∨ bytes.length < rowBytes then none
      else do
        let row := unfilterRow bpp type.toNat above (bytes.take rowBytes) []
        let more ← unfilter bpp rowBytes rows row (bytes.drop rowBytes)
        some (row ++ more)

/-! ### Pictures -/

structure Picture where
  width : Nat
  height : Nat
  /-- The bytes of a pixel. -/
  channels : Nat
  bytes : List UInt8
deriving DecidableEq

/-- The bytes of a pixel of a colour type. -/
def channels : UInt8 → Option Nat
  | 0 => some 1
  | 2 => some 3
  | 4 => some 2
  | 6 => some 4
  | _ => none

def signature : List UInt8 := [137, 80, 78, 71, 13, 10, 26, 10]

/-- The picture in a file. -/
def read (file : List UInt8) : Option Picture :=
  if file.take 8 ≠ signature then none
  else do
    let (type, header, rest) ← chunk (file.drop 8)
    if type ≠ IHDR ∨ header.length ≠ 13 ∨ header.getD 8 0 ≠ 8 ∨ header.drop 10 ≠ [0, 0, 0] then none
    else
      let width := BigEndian.value (header.take 4)
      let height := BigEndian.value ((header.drop 4).take 4)
      let bpp ← channels (header.getD 9 0)
      if width = 0 ∨ height = 0 then none
      else
        let data ← dataChunks rest.length rest
        let lines ← Inflate.zlib data
        let bytes ← unfilter bpp (width * bpp) height [] lines
        some { width := width, height := height, channels := bpp, bytes := bytes }

/-! ### Reading chunks -/

variable {data rest type row above bytes : List UInt8} {bpp : Nat}

/-- The bytes of a chunk. -/
def putChunk (type data : List UInt8) : List UInt8 :=
  BigEndian.bytes 4 data.length ++ (type ++ (data ++ BigEndian.bytes 4 (crc32 (type ++ data))))

/-- **A chunk is read back.** -/
theorem chunk_write (htype : type.length = 4) (hdata : data.length < 2 ^ 32) (rest : List UInt8) :
    chunk (putChunk type data ++ rest) = some (type, data, rest) := by
  have hlen4 := BigEndian.length_bytes 4 data.length
  have hcrc4 := BigEndian.length_bytes 4 (crc32 (type ++ data))
  have hcrc : crc32 (type ++ data) < 256 ^ 4 := (~~~Crc.remainder _ _ _).isLt
  have hbytes : putChunk type data ++ rest = BigEndian.bytes 4 data.length ++
      (type ++ (data ++ (BigEndian.bytes 4 (crc32 (type ++ data)) ++ rest))) := by
    simp only [putChunk, List.append_assoc]
  -- The parts, one after the other.
  have h4 : (putChunk type data ++ rest).drop 4 =
      type ++ (data ++ (BigEndian.bytes 4 (crc32 (type ++ data)) ++ rest)) := by
    rw [hbytes, List.drop_left' hlen4]
  have h8 : (putChunk type data ++ rest).drop 8 =
      data ++ (BigEndian.bytes 4 (crc32 (type ++ data)) ++ rest) := by
    rw [← List.drop_drop (i := 4) (j := 4), h4, List.drop_left' htype]
  have hcheck : (putChunk type data ++ rest).drop (8 + data.length) =
      BigEndian.bytes 4 (crc32 (type ++ data)) ++ rest := by
    rw [← List.drop_drop, h8, List.drop_left' rfl]
  have hrest : (putChunk type data ++ rest).drop (12 + data.length) = rest := by
    rw [show 12 + data.length = 8 + data.length + 4 by omega, ← List.drop_drop, hcheck,
      List.drop_left' hcrc4]
  have hlen : BigEndian.value ((putChunk type data ++ rest).take 4) = data.length := by
    rw [hbytes, List.take_left' hlen4, BigEndian.value_bytes hdata]
  have hlong : ¬ (putChunk type data ++ rest).length < 12 + data.length := by
    rw [hbytes]
    simp only [List.length_append, hlen4, hcrc4, htype]
    omega
  rw [chunk]
  simp only [hlen, hrest, hcheck, h8, h4]
  rw [List.take_left' htype, List.take_left' rfl, List.take_left' hcrc4,
    BigEndian.value_bytes hcrc, if_neg hlong, if_neg (fun h => h rfl)]

/-- One chunk of data, and the last chunk. -/
theorem dataChunks_one (hdata : data.length < 2 ^ 32) {fuel : Nat} (hfuel : 2 ≤ fuel) :
    dataChunks fuel (putChunk IDAT data ++ putChunk IEND []) = some data := by
  obtain ⟨fuel, rfl⟩ : ∃ n, fuel = n + 2 := ⟨fuel - 2, by omega⟩
  have hend : chunk (putChunk IEND [] ++ []) = some (IEND, [], []) :=
    chunk_write rfl (by decide) []
  rw [List.append_nil] at hend
  have hneq : IEND ≠ IDAT := by decide
  rw [dataChunks, chunk_write rfl hdata, Inflate.some_bind]
  dsimp only
  rw [if_pos rfl, dataChunks, hend, Inflate.some_bind]
  dsimp only
  rw [if_neg hneq, if_pos ⟨rfl, rfl, rfl⟩, Inflate.some_bind, List.append_nil]

/-! ### Reading lines -/

/-- What is predicted for byte `i` of a line. -/
def predicted (bpp type : Nat) (above row : List UInt8) (i : Nat) : UInt8 :=
  predict type (before bpp row i) (above.getD i 0) (before bpp above i)

/-- A line as its differences to what is predicted. -/
def filterRow (bpp type : Nat) (above row : List UInt8) : List UInt8 :=
  row.zipIdx.map fun (x, i) => x - predicted bpp type above row i

theorem length_filterRow (bpp type : Nat) (above row : List UInt8) :
    (filterRow bpp type above row).length = row.length := by
  rw [filterRow, List.length_map, List.length_zipIdx]

theorem filterRow_eq_map (bpp type : Nat) (above row : List UInt8) : filterRow bpp type above row =
    (List.range row.length).map fun i => row.getD i 0 - predicted bpp type above row i := by
  refine List.ext_getElem (by rw [length_filterRow, List.length_map, List.length_range]) ?_
  intro i h1 h2
  rw [length_filterRow] at h1
  simp only [filterRow, List.getElem_map, List.getElem_zipIdx, List.getElem_range, Nat.zero_add]
  rw [List.getD_eq_getElem?_getD, List.getElem?_eq_getElem h1, Option.getD_some]

/-- To the left of the first pixel there is nothing. -/
theorem predicted_first {i : Nat} (hi : i < bpp) (type : Nat) (above row : List UInt8) :
    predicted bpp type above row i = predict type 0 (above.getD i 0) 0 := by
  rw [predicted, before, before, if_pos hi, if_pos hi]

/-- There is nothing above the first line. -/
theorem predicted_top (bpp type : Nat) (row : List UInt8) (i : Nat) :
    predicted bpp type [] row i = predict type (before bpp row i) 0 0 := by
  have hnone : before bpp [] i = 0 := by
    rw [before]
    split <;> rfl
  rw [predicted, hnone]
  rfl

theorem unfilterRow_from (hbpp : 0 < bpp) (type : Nat) (above row : List UInt8) (n : Nat) :
    ∀ i, row.length - i = n → i ≤ row.length →
      unfilterRow bpp type above (((row.drop i).zipIdx i).map fun (x, j) =>
        x - predicted bpp type above row j) (row.take i) = row := by
  induction n with
  | zero =>
      intro i hn hi
      rw [List.drop_eq_nil_of_le (by omega), List.take_of_length_le (by omega)]
      rfl
  | succ n ih =>
      intro i hn hi
      have hlt : i < row.length := by omega
      have hlen : (row.take i).length = i := by
        rw [List.length_take, Nat.min_eq_left hi]
      -- What is to the left has been read already.
      have hleft : before bpp (row.take i) i = before bpp row i := by
        unfold before
        split
        · rfl
        · rw [List.getD_eq_getElem?_getD, List.getElem?_take_of_lt (by omega),
            ← List.getD_eq_getElem?_getD]
      rw [List.drop_eq_getElem_cons hlt, List.zipIdx_cons, List.map_cons, unfilterRow, hlen, hleft,
        ← predicted]
      dsimp only
      rw [UInt8.sub_add_cancel, ← List.take_succ_eq_append_getElem hlt]
      exact ih (i + 1) (by omega) hlt

/-- **A line is read back** from its differences. -/
theorem unfilterRow_filterRow (hbpp : 0 < bpp) (type : Nat) (above row : List UInt8) :
    unfilterRow bpp type above (filterRow bpp type above row) [] = row :=
  unfilterRow_from hbpp type above row _ 0 rfl (Nat.zero_le _)

/-- One line, and those below it. -/
theorem unfilter_cons (hbpp : 0 < bpp) (filter : UInt8) (hfilter : filter.toNat ≤ 4)
    (above : List UInt8) {rows : Nat} {below : List UInt8}
    (h : unfilter bpp row.length rows row rest = some below) :
    unfilter bpp row.length (rows + 1) above
      (filter :: (filterRow bpp filter.toNat above row ++ rest)) = some (row ++ below) := by
  have hlen := length_filterRow bpp filter.toNat above row
  have hlong : ¬ (4 < filter.toNat ∨
      (filterRow bpp filter.toNat above row ++ rest).length < row.length) := by
    rw [List.length_append]
    omega
  rw [unfilter, if_neg hlong, List.take_left' hlen, List.drop_left' hlen,
    unfilterRow_filterRow hbpp]
  dsimp only
  rw [h, Inflate.some_bind]

/-! ### Reading files -/

/-- What is in the header. -/
def header (w h : Nat) (colour : UInt8) : List UInt8 :=
  BigEndian.bytes 4 w ++ (BigEndian.bytes 4 h ++ [8, colour, 0, 0, 0])

section Header

variable (w h : Nat) (colour : UInt8)

theorem length_header : (header w h colour).length = 13 := by
  rw [header, List.length_append, List.length_append, BigEndian.length_bytes,
    BigEndian.length_bytes]
  rfl

theorem header_drop_four :
    (header w h colour).drop 4 = BigEndian.bytes 4 h ++ [8, colour, 0, 0, 0] :=
  List.drop_left' (BigEndian.length_bytes 4 w)

theorem header_drop_eight : (header w h colour).drop 8 = [8, colour, 0, 0, 0] := by
  rw [← List.drop_drop (i := 4) (j := 4), header_drop_four,
    List.drop_left' (BigEndian.length_bytes 4 h)]

/-- The fields behind the width and the height. -/
theorem header_getD (k : Nat) :
    (header w h colour).getD (8 + k) 0 = [8, colour, 0, 0, 0].getD k 0 := by
  have hdrop : ((header w h colour).drop 8)[k]? = (header w h colour)[8 + k]? := List.getElem?_drop
  rw [header_drop_eight] at hdrop
  rw [List.getD_eq_getElem?_getD, List.getD_eq_getElem?_getD, hdrop]

theorem header_good : ¬ (IHDR ≠ IHDR ∨ (header w h colour).length ≠ 13 ∨
    (header w h colour).getD 8 0 ≠ 8 ∨ (header w h colour).drop 10 ≠ [0, 0, 0]) := by
  have hzeros : (header w h colour).drop 10 = [0, 0, 0] := by
    rw [← List.drop_drop (i := 2) (j := 8), header_drop_eight]
    rfl
  rintro (hne | hne | hne | hne)
  · exact hne rfl
  · exact hne (length_header w h colour)
  · exact hne (header_getD w h colour 0)
  · exact hne hzeros

end Header

/-- **A picture is read** from its header, one chunk of data and the last chunk. -/
theorem read_write {w h : Nat} {colour : UInt8} {lines : List UInt8} (hw : 0 < w)
    (hw32 : w < 2 ^ 32) (hh : 0 < h) (hh32 : h < 2 ^ 32) (hcolour : channels colour = some bpp)
    (hdata : data.length < 2 ^ 32) (hlines : Inflate.zlib data = some lines)
    (hbytes : unfilter bpp (w * bpp) h [] lines = some bytes) :
    read (signature ++ (putChunk IHDR (header w h colour) ++
      (putChunk IDAT data ++ putChunk IEND []))) =
        some { width := w, height := h, channels := bpp, bytes := bytes } := by
  have hsignature : signature.length = 8 := rfl
  have hwidth : (header w h colour).take 4 = BigEndian.bytes 4 w :=
    List.take_left' (BigEndian.length_bytes 4 w)
  have hheight : ((header w h colour).drop 4).take 4 = BigEndian.bytes 4 h := by
    rw [header_drop_four]
    exact List.take_left' (BigEndian.length_bytes 4 h)
  have htype : (header w h colour).getD 9 0 = colour := header_getD w h colour 1
  have hfuel : 2 ≤ (putChunk IDAT data ++ putChunk IEND []).length := by
    simp only [putChunk, List.length_append, BigEndian.length_bytes]
    omega
  rw [read, List.take_left' hsignature, if_neg (fun hne => hne rfl), List.drop_left' hsignature,
    chunk_write rfl (by rw [length_header]; decide), Inflate.some_bind]
  dsimp only
  rw [if_neg (header_good w h colour), hwidth, hheight, htype, BigEndian.value_bytes hw32,
    BigEndian.value_bytes hh32, hcolour, Inflate.some_bind, if_neg (by omega),
    dataChunks_one hdata hfuel, Inflate.some_bind, hlines, Inflate.some_bind, hbytes,
    Inflate.some_bind]

end PngReader
