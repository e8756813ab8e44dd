import Ilo2.Png.Zlib
import Ilo2.Lib.PngReader

/-!
# Writing pictures

`stbi_write_png_to_mem` of `stb_image_write.h` and `save_argb_png` of `cim_png.hpp`: each line is
written as its differences to what one of five filters predicts, the lines are compressed, and three
chunks are put around them.

What is written to the file is the result, so a file that cannot be opened is not here.

* `crc32_eq` - the table gives the check value.
* `encodePngLine_eq` - a line, filtered; the first line has filters of its own.
* `read_written` - **what is written is the picture**.
* `read_stbiWritePngToMem` - and no `int` overflows on the way.
-/

namespace Ilo2.Png

open PngReader

/-! ### Check values -/

def crcTable : List UInt32 :=
  [0x00000000, 0x77073096, 0xEE0E612C, 0x990951BA, 0x076DC419, 0x706AF48F, 0xE963A535, 0x9E6495A3,
    0x0EDB8832, 0x79DCB8A4, 0xE0D5E91E, 0x97D2D988, 0x09B64C2B, 0x7EB17CBD, 0xE7B82D07, 0x90BF1D91,
    0x1DB71064, 0x6AB020F2, 0xF3B97148, 0x84BE41DE, 0x1ADAD47D, 0x6DDDE4EB, 0xF4D4B551, 0x83D385C7,
    0x136C9856, 0x646BA8C0, 0xFD62F97A, 0x8A65C9EC, 0x14015C4F, 0x63066CD9, 0xFA0F3D63, 0x8D080DF5,
    0x3B6E20C8, 0x4C69105E, 0xD56041E4, 0xA2677172, 0x3C03E4D1, 0x4B04D447, 0xD20D85FD, 0xA50AB56B,
    0x35B5A8FA, 0x42B2986C, 0xDBBBC9D6, 0xACBCF940, 0x32D86CE3, 0x45DF5C75, 0xDCD60DCF, 0xABD13D59,
    0x26D930AC, 0x51DE003A, 0xC8D75180, 0xBFD06116, 0x21B4F4B5, 0x56B3C423, 0xCFBA9599, 0xB8BDA50F,
    0x2802B89E, 0x5F058808, 0xC60CD9B2, 0xB10BE924, 0x2F6F7C87, 0x58684C11, 0xC1611DAB, 0xB6662D3D,
    0x76DC4190, 0x01DB7106, 0x98D220BC, 0xEFD5102A, 0x71B18589, 0x06B6B51F, 0x9FBFE4A5, 0xE8B8D433,
    0x7807C9A2, 0x0F00F934, 0x9609A88E, 0xE10E9818, 0x7F6A0DBB, 0x086D3D2D, 0x91646C97, 0xE6635C01,
    0x6B6B51F4, 0x1C6C6162, 0x856530D8, 0xF262004E, 0x6C0695ED, 0x1B01A57B, 0x8208F4C1, 0xF50FC457,
    0x65B0D9C6, 0x12B7E950, 0x8BBEB8EA, 0xFCB9887C, 0x62DD1DDF, 0x15DA2D49, 0x8CD37CF3, 0xFBD44C65,
    0x4DB26158, 0x3AB551CE, 0xA3BC0074, 0xD4BB30E2, 0x4ADFA541, 0x3DD895D7, 0xA4D1C46D, 0xD3D6F4FB,
    0x4369E96A, 0x346ED9FC, 0xAD678846, 0xDA60B8D0, 0x44042D73, 0x33031DE5, 0xAA0A4C5F, 0xDD0D7CC9,
    0x5005713C, 0x270241AA, 0xBE0B1010, 0xC90C2086, 0x5768B525, 0x206F85B3, 0xB966D409, 0xCE61E49F,
    0x5EDEF90E, 0x29D9C998, 0xB0D09822, 0xC7D7A8B4, 0x59B33D17, 0x2EB40D81, 0xB7BD5C3B, 0xC0BA6CAD,
    0xEDB88320, 0x9ABFB3B6, 0x03B6E20C, 0x74B1D29A, 0xEAD54739, 0x9DD277AF, 0x04DB2615, 0x73DC1683,
    0xE3630B12, 0x94643B84, 0x0D6D6A3E, 0x7A6A5AA8, 0xE40ECF0B, 0x9309FF9D, 0x0A00AE27, 0x7D079EB1,
    0xF00F9344, 0x8708A3D2, 0x1E01F268, 0x6906C2FE, 0xF762575D, 0x806567CB, 0x196C3671, 0x6E6B06E7,
    0xFED41B76, 0x89D32BE0, 0x10DA7A5A, 0x67DD4ACC, 0xF9B9DF6F, 0x8EBEEFF9, 0x17B7BE43, 0x60B08ED5,
    0xD6D6A3E8, 0xA1D1937E, 0x38D8C2C4, 0x4FDFF252, 0xD1BB67F1, 0xA6BC5767, 0x3FB506DD, 0x48B2364B,
    0xD80D2BDA, 0xAF0A1B4C, 0x36034AF6, 0x41047A60, 0xDF60EFC3, 0xA867DF55, 0x316E8EEF, 0x4669BE79,
    0xCB61B38C, 0xBC66831A, 0x256FD2A0, 0x5268E236, 0xCC0C7795, 0xBB0B4703, 0x220216B9, 0x5505262F,
    0xC5BA3BBE, 0xB2BD0B28, 0x2BB45A92, 0x5CB36A04, 0xC2D7FFA7, 0xB5D0CF31, 0x2CD99E8B, 0x5BDEAE1D,
    0x9B64C2B0, 0xEC63F226, 0x756AA39C, 0x026D930A, 0x9C0906A9, 0xEB0E363F, 0x72076785, 0x05005713,
    0x95BF4A82, 0xE2B87A14, 0x7BB12BAE, 0x0CB61B38, 0x92D28E9B, 0xE5D5BE0D, 0x7CDCEFB7, 0x0BDBDF21,
    0x86D3D2D4, 0xF1D4E242, 0x68DDB3F8, 0x1FDA836E, 0x81BE16CD, 0xF6B9265B, 0x6FB077E1, 0x18B74777,
    0x88085AE6, 0xFF0F6A70, 0x66063BCA, 0x11010B5C, 0x8F659EFF, 0xF862AE69, 0x616BFFD3, 0x166CCF45,
    0xA00AE278, 0xD70DD2EE, 0x4E048354, 0x3903B3C2, 0xA7672661, 0xD06016F7, 0x4969474D, 0x3E6E77DB,
    0xAED16A4A, 0xD9D65ADC, 0x40DF0B66, 0x37D83BF0, 0xA9BCAE53, 0xDEBB9EC5, 0x47B2CF7F, 0x30B5FFE9,
    0xBDBDF21C, 0xCABAC28A, 0x53B39330, 0x24B4A3A6, 0xBAD03605, 0xCDD70693, 0x54DE5729, 0x23D967BF,
    0xB3667A2E, 0xC4614AB8, 0x5D681B02, 0x2A6F2B94, 0xB40BBE37, 0xC30C8EA1, 0x5A05DF1B, 0x2D02EF8D]

/-- `stbiw__crc32`. -/
def crc32 (buffer : List UInt8) : UInt32 :=
  ~~~buffer.foldl (fun crc b => crc >>> 8 ^^^ crcTable.getD (b ^^^ crc.toUInt8).toNat 0) (~~~0)

/-- `stbiw__wp32`. -/
def wp32 (v : UInt32) : List UInt8 :=
  [(v >>> 24).toUInt8, (v >>> 16).toUInt8, (v >>> 8).toUInt8, v.toUInt8]

/-- `stbiw__wptag`, what is in the chunk, and `stbiw__wpcrc`. -/
def taggedWithCrc (tag data : List UInt8) : List UInt8 :=
  tag ++ data ++ wp32 (crc32 (tag ++ data))

/-! ### Lines -/

/-- `STBIW_UCHAR`. -/
def uchar (v : Int) : UInt8 := (v % 256).toNat.toUInt8

/-- `stbiw__paeth`. -/
def paeth (a b c : Int) : UInt8 :=
  let p := a + b - c
  let pa := (p - a).natAbs
  let pb := (p - b).natAbs
  let pc := (p - c).natAbs
  if pa ≤ pb ∧ pa ≤ pc then uchar a
  else if pb ≤ pc then uchar b
  else uchar c

def mapping : List Nat := [0, 1, 2, 3, 4]
def firstmap : List Nat := [0, 1, 0, 5, 6]

/-- `stbiw__encode_png_line`; the rows are not flipped. -/
def encodePngLine (pixels : List UInt8) (strideBytes width y n filterType : Nat) : List UInt8 :=
  let mymap := if y ≠ 0 then mapping else firstmap
  let type := mymap.getD filterType 0
  let z (i : Nat) : UInt8 := pixels.getD (strideBytes * y + i) 0
  -- `z[i - n]`, `z[i - signed_stride]` and `z[i - signed_stride - n]`
  let left (i : Nat) : UInt8 := pixels.getD (strideBytes * y + i - n) 0
  let up (i : Nat) : UInt8 := pixels.getD (strideBytes * y + i - strideBytes) 0
  let upLeft (i : Nat) : UInt8 := pixels.getD (strideBytes * y + i - strideBytes - n) 0
  if type = 0 then (List.range (width * n)).map z
  else
    let first (i : Nat) : UInt8 :=
      match type with
      | 2 => z i - up i
      | 3 => z i - up i >>> 1
      | 4 => z i - paeth 0 (up i).toNat 0
      | _ => z i
    let others (i : Nat) : UInt8 :=
      match type with
      | 1 => z i - left i
      | 2 => z i - up i
      | 3 => z i - (((left i).toNat + (up i).toNat) >>> 1).toUInt8
      | 4 => z i - paeth (left i).toNat (up i).toNat (upLeft i).toNat
      | 5 => z i - left i >>> 1
      | _ => z i - paeth (left i).toNat 0 0
    (List.range n).map first ++ (List.range' n (width * n - n)).map others

/-- The sum of `abs((signed char) line_buffer[i])`. -/
def estimate (line : List UInt8) : Nat :=
  (line.map fun b => if b.toNat < 128 then b.toNat else 256 - b.toNat).sum

/-- The loop over the filters: the first one with the lowest estimate. -/
def bestFilter (line : Nat → List UInt8) : Nat :=
  ((List.range 5).foldl (fun (best, bestVal) filterType =>
    if estimate (line filterType) < bestVal then (filterType, estimate (line filterType))
    else (best, bestVal)) (0, 0x7FFFFFFF)).1

/-- `filt`: in front of each line is its filter. -/
def filt (forceFilter : Int) (pixels : List UInt8) (strideBytes x y n : Nat) : List UInt8 :=
  let forceFilter := if forceFilter ≥ 5 then -1 else forceFilter
  (List.range y).flatMap fun j =>
    let filterType :=
      if forceFilter > -1 then forceFilter.toNat
      else bestFilter (encodePngLine pixels strideBytes x j n)
    filterType.toUInt8 :: encodePngLine pixels strideBytes x j n filterType

/-! ### Files -/

def ctype : List Int := [-1, 0, 4, 2, 6]

/-- `stbi_write_png_to_mem`, with the values of `stbi_write_force_png_filter` and
`stbi_write_png_compression_level`. -/
def stbiWritePngToMem (forceFilter : Int) (level : Nat) (pixels : List UInt8)
    (strideBytes x y n : Nat) : List UInt8 :=
  let strideBytes := if strideBytes = 0 then x * n else strideBytes
  let zlib := stbiZlibCompress (filt forceFilter pixels strideBytes x y n) level
  [137, 80, 78, 71, 13, 10, 26, 10] ++
    (wp32 13 ++ taggedWithCrc [0x49, 0x48, 0x44, 0x52] (wp32 x.toUInt32 ++ wp32 y.toUInt32 ++
      [8, uchar (ctype.getD n 0), 0, 0, 0])) ++
    (wp32 zlib.length.toUInt32 ++ taggedWithCrc [0x49, 0x44, 0x41, 0x54] zlib) ++
    (wp32 0 ++ taggedWithCrc [0x49, 0x45, 0x4E, 0x44] [])

/-- `save_argb_png`: what is written to the file. -/
def saveArgbPng (px : List Nat) (w h : Nat) : Option (List UInt8) :=
  if w = 0 ∨ h = 0 then none
  else
    let rgb := (List.range (w * h)).flatMap fun i =>
      let p := px.getD i 0
      [(p >>> 16 &&& 0xFF).toUInt8, (p >>> 8 &&& 0xFF).toUInt8, (p &&& 0xFF).toUInt8]
    some (stbiWritePngToMem (-1) 8 rgb (w * 3) w h 3)

/-! ### The check value -/

theorem crcTable_eq : ∀ i < 256, (crcTable.getD i 0).toBitVec =
    Crc.steps 0xEDB88320#32 8 ((BitVec.ofNat 8 i).setWidth 32) := by
  decide +kernel

/-- **The table** gives the check value. -/
theorem crc32_eq (bytes : List UInt8) : (crc32 bytes).toNat = PngReader.crc32 bytes := by
  have hfold : ∀ crc : UInt32, (bytes.foldl
      (fun (crc : UInt32) b => crc >>> 8 ^^^ crcTable.getD (b ^^^ crc.toUInt8).toNat 0)
        crc).toBitVec =
        Crc.remainder 0xEDB88320#32 crc.toBitVec bytes := by
    induction bytes with
    | nil => exact fun crc => rfl
    | cons b bytes ih =>
        intro crc
        have hbyte : (BitVec.ofNat 8 (b ^^^ crc.toUInt8).toNat) =
            crc.toBitVec.setWidth 8 ^^^ b.toBitVec := by
          rw [BitVec.xor_comm]
          exact BitVec.ofNat_toNat _ _
        rw [List.foldl_cons, ih, Crc.remainder, Crc.remainder, List.foldl_cons, Crc.byte_table,
          ← hbyte, ← crcTable_eq _ (b ^^^ crc.toUInt8).toNat_lt]
        rfl
  rw [crc32, PngReader.crc32, ← UInt32.toNat_toBitVec, UInt32.toBitVec_not, hfold]
  rfl

theorem wp32_eq (v : UInt32) : wp32 v = BigEndian.bytes 4 v.toNat := (BigEndian.bytes_u32 v).symm

/-- A number that fits in four bytes. -/
theorem wp32_nat {v : Nat} (h : v < 2 ^ 32) : wp32 v.toUInt32 = BigEndian.bytes 4 v := by
  rw [wp32_eq, toNat_toUInt32]
  exact congrArg (BigEndian.bytes 4) (Nat.mod_eq_of_lt h)

/-- The length of a chunk, and the chunk. -/
theorem taggedWithCrc_eq (tag data : List UInt8) (h : data.length < 2 ^ 32) :
    wp32 data.length.toUInt32 ++ taggedWithCrc tag data = putChunk tag data := by
  rw [taggedWithCrc, putChunk, wp32_nat h, wp32_eq, crc32_eq, List.append_assoc tag]

/-! ### What a line is filtered to -/

variable {pixels : List UInt8} {strideBytes width y n i filterType : Nat}

/-- The bytes of a row of the picture. -/
def rowAt (pixels : List UInt8) (strideBytes width n y : Nat) : List UInt8 :=
  (pixels.drop (strideBytes * y)).take (width * n)

/-- The row above; there is none above the first one. -/
def rowAbove (pixels : List UInt8) (strideBytes width n : Nat) : Nat → List UInt8
  | 0 => []
  | y + 1 => rowAt pixels strideBytes width n y

theorem rowAt_getD (hi : i < width * n) : (rowAt pixels strideBytes width n y).getD i 0 =
    pixels.getD (strideBytes * y + i) 0 := by
  rw [rowAt, List.getD_eq_getElem?_getD, List.getElem?_take_of_lt hi, List.getElem?_drop,
    ← List.getD_eq_getElem?_getD]

theorem before_rowAt (hi : i < width * n) (hn : n ≤ i) :
    before n (rowAt pixels strideBytes width n y) i =
      pixels.getD (strideBytes * y + i - n) 0 := by
  rw [before, if_neg (by omega), rowAt_getD (by omega), Nat.add_sub_assoc hn]

theorem uchar_toNat (b : UInt8) : uchar b.toNat = b := by
  have hb := b.toNat_lt
  apply UInt8.toNat_inj.mp
  rw [uchar, Nat.toUInt8, UInt8.toNat_ofNat']
  omega

theorem paeth_eq (a b c : UInt8) : paeth a.toNat b.toNat c.toNat = PngReader.paeth a b c := by
  rw [paeth, PngReader.paeth, uchar_toNat, uchar_toNat, uchar_toNat]

theorem shiftRight_one (b : UInt8) : b >>> 1 = (b.toNat / 2).toUInt8 := by
  have hb := b.toNat_lt
  apply UInt8.toNat_inj.mp
  rw [UInt8.toNat_shiftRight, show (1 : UInt8).toNat % 8 = 1 by decide, Nat.shiftRight_eq_div_pow,
    Nat.toUInt8, UInt8.toNat_ofNat']
  omega

theorem predict_paeth (a b c : UInt8) : predict 4 a b c = paeth a.toNat b.toNat c.toNat :=
  (paeth_eq a b c).symm

/-- Half of a byte and of nothing. -/
theorem predict_left (b : UInt8) : predict 3 b 0 0 = b >>> 1 := (shiftRight_one b).symm

theorem predict_up (b : UInt8) : predict 3 0 b 0 = b >>> 1 := by
  rw [shiftRight_one, predict, show (0 : UInt8).toNat = 0 from rfl, Nat.zero_add]

/-- The first pixels, and the others. -/
theorem map_range_append {f g h : Nat → UInt8} {m : Nat} (hle : n ≤ m) (hf : ∀ i < n, f i = h i)
    (hg : ∀ i, n ≤ i → i < m → g i = h i) :
    (List.range n).map f ++ (List.range' n (m - n)).map g = (List.range m).map h := by
  have hrange : List.range n ++ List.range' n (m - n) = List.range m := by
    have happ := List.range'_append_1 (s := 0) (m := n) (n := m - n)
    rwa [Nat.zero_add, Nat.add_sub_cancel' hle, ← List.range_eq_range',
      ← List.range_eq_range'] at happ
  rw [← hrange, List.map_append]
  congr 1
  · refine List.map_congr_left fun i hi => hf i (List.mem_range.mp hi)
  · refine List.map_congr_left fun i hi => ?_
    obtain ⟨hlo, hhi⟩ := List.mem_range'_1.mp hi
    exact hg i hlo (by omega)

theorem length_rowAt (hlen : strideBytes * y + width * n ≤ pixels.length) :
    (rowAt pixels strideBytes width n y).length = width * n := by
  rw [rowAt, List.length_take, List.length_drop]
  omega

/-- The first line, above which there is nothing. -/
theorem encodePngLine_top (hw : 0 < width) (hfilter : filterType < 5)
    (hlen : strideBytes * 0 + width * n ≤ pixels.length) :
    encodePngLine pixels strideBytes width 0 n filterType =
      filterRow n filterType (rowAbove pixels strideBytes width n 0)
        (rowAt pixels strideBytes width n 0) := by
  have hle : n ≤ width * n := Nat.le_mul_of_pos_left n hw
  have hcases : filterType = 0 ∨ filterType = 1 ∨ filterType = 2 ∨ filterType = 3 ∨
      filterType = 4 := by omega
  rw [filterRow_eq_map, length_rowAt hlen, encodePngLine]
  dsimp only
  rw [if_neg (show ¬ (0 ≠ 0) from fun hne => hne rfl)]
  have htop {i : Nat} (hi : i < width * n) (type : Nat) :
      (rowAt pixels strideBytes width n 0).getD i 0 - predicted n type
        (rowAbove pixels strideBytes width n 0) (rowAt pixels strideBytes width n 0) i =
      pixels.getD (strideBytes * 0 + i) 0 -
        predict type (before n (rowAt pixels strideBytes width n 0) i) 0 0 := by
    rw [rowAt_getD hi, rowAbove, predicted_top]
  have hfirst {i : Nat} (hi : i < n) (row : List UInt8) : before n row i = 0 := if_pos hi
  rcases hcases with rfl | rfl | rfl | rfl | rfl
  · rw [if_pos (by decide)]
    refine List.map_congr_left fun i hi => ?_
    rw [htop (List.mem_range.mp hi)]
    exact (UInt8.sub_zero _).symm
  · rw [if_neg (by decide)]
    refine map_range_append hle (fun i hi => ?_) (fun i hi hi' => ?_)
    · rw [htop (by omega), hfirst hi]
      exact (UInt8.sub_zero _).symm
    · rw [htop hi', before_rowAt hi' hi]
      rfl
  · rw [if_pos (by decide)]
    refine List.map_congr_left fun i hi => ?_
    rw [htop (List.mem_range.mp hi)]
    exact (UInt8.sub_zero _).symm
  · rw [if_neg (by decide)]
    refine map_range_append hle (fun i hi => ?_) (fun i hi hi' => ?_)
    · rw [htop (by omega), hfirst hi]
      exact (UInt8.sub_zero _).symm
    · rw [htop hi', before_rowAt hi' hi, predict_left]
      rfl
  · rw [if_neg (by decide)]
    refine map_range_append hle (fun i hi => ?_) (fun i hi hi' => ?_)
    · rw [htop (by omega), hfirst hi]
      exact (UInt8.sub_zero _).symm
    · rw [htop hi', before_rowAt hi' hi, predict_paeth]
      rfl

/-- A line with a line above it. -/
theorem encodePngLine_below (hw : 0 < width) (hfilter : filterType < 5)
    (hlen : strideBytes * (y + 1) + width * n ≤ pixels.length) :
    encodePngLine pixels strideBytes width (y + 1) n filterType =
      filterRow n filterType (rowAbove pixels strideBytes width n (y + 1))
        (rowAt pixels strideBytes width n (y + 1)) := by
  have hle : n ≤ width * n := Nat.le_mul_of_pos_left n hw
  have hcases : filterType = 0 ∨ filterType = 1 ∨ filterType = 2 ∨ filterType = 3 ∨
      filterType = 4 := by omega
  rw [filterRow_eq_map, length_rowAt hlen, encodePngLine]
  dsimp only
  rw [if_pos (Nat.succ_ne_zero y)]
  have hup (i : Nat) : strideBytes * (y + 1) + i - strideBytes = strideBytes * y + i := by
    rw [Nat.mul_succ]
    omega
  -- The first pixel has nothing to its left, the others have both.
  have hleft {i : Nat} (hi : i < n) (type : Nat) :
      (rowAt pixels strideBytes width n (y + 1)).getD i 0 - predicted n type
        (rowAbove pixels strideBytes width n (y + 1))
        (rowAt pixels strideBytes width n (y + 1)) i =
      pixels.getD (strideBytes * (y + 1) + i) 0 -
        predict type 0 (pixels.getD (strideBytes * (y + 1) + i - strideBytes) 0) 0 := by
    rw [rowAt_getD (by omega), rowAbove, predicted_first hi, rowAt_getD (by omega), hup]
  have hother {i : Nat} (hi : n ≤ i) (hi' : i < width * n) (type : Nat) :
      (rowAt pixels strideBytes width n (y + 1)).getD i 0 - predicted n type
        (rowAbove pixels strideBytes width n (y + 1))
        (rowAt pixels strideBytes width n (y + 1)) i =
      pixels.getD (strideBytes * (y + 1) + i) 0 -
        predict type (pixels.getD (strideBytes * (y + 1) + i - n) 0)
          (pixels.getD (strideBytes * (y + 1) + i - strideBytes) 0)
          (pixels.getD (strideBytes * (y + 1) + i - strideBytes - n) 0) := by
    rw [rowAt_getD hi', rowAbove, predicted, before_rowAt hi' hi, before_rowAt hi' hi,
      rowAt_getD hi', hup]
  rcases hcases with rfl | rfl | rfl | rfl | rfl
  · rw [if_pos (by decide)]
    refine List.map_congr_left fun i hi => ?_
    rw [rowAt_getD (List.mem_range.mp hi)]
    exact (UInt8.sub_zero _).symm
  · rw [if_neg (by decide)]
    refine map_range_append hle (fun i hi => ?_) (fun i hi hi' => ?_)
    · rw [hleft hi]
      exact (UInt8.sub_zero _).symm
    · rw [hother hi hi']
      rfl
  · rw [if_neg (by decide)]
    refine map_range_append hle (fun i hi => ?_) (fun i hi hi' => ?_)
    · rw [hleft hi]
      rfl
    · rw [hother hi hi']
      rfl
  · rw [if_neg (by decide)]
    refine map_range_append hle (fun i hi => ?_) (fun i hi hi' => ?_)
    · rw [hleft hi, predict_up]
      rfl
    · rw [hother hi hi', predict, ← Nat.shiftRight_one]
      rfl
  · rw [if_neg (by decide)]
    refine map_range_append hle (fun i hi => ?_) (fun i hi hi' => ?_)
    · rw [hleft hi, predict_paeth]
      rfl
    · rw [hother hi hi', predict_paeth]
      rfl

/-- **A line**, as its differences to what is predicted. -/
theorem encodePngLine_eq (hw : 0 < width) (hfilter : filterType < 5)
    (hlen : strideBytes * y + width * n ≤ pixels.length) :
    encodePngLine pixels strideBytes width y n filterType =
      filterRow n filterType (rowAbove pixels strideBytes width n y)
        (rowAt pixels strideBytes width n y) := by
  cases y with
  | zero => exact encodePngLine_top hw hfilter hlen
  | succ y => exact encodePngLine_below hw hfilter hlen

/-! ### The lines -/

/-- One of the five filters is chosen. -/
theorem bestFilter_lt (line : Nat → List UInt8) : bestFilter line < 5 := by
  refine List.foldlRecOn (motive := fun s : Nat × Nat => s.1 < 5) (List.range 5) _ (by decide) ?_
  intro s hs filterType hmem
  dsimp only
  split
  · exact List.mem_range.mp hmem
  · exact hs

/-- The lines are read back, from the first of them that is not yet. -/
theorem unfilter_lines (hn : 0 < n) (hw : 0 < width) (filters : Nat → Nat)
    (hfilters : ∀ j, filters j < 5) (rows : Nat) : ∀ j,
    (∀ k < j + rows, strideBytes * k + width * n ≤ pixels.length) →
    unfilter n (width * n) rows (rowAbove pixels strideBytes width n j)
      ((List.range' j rows).flatMap fun j =>
        (filters j).toUInt8 :: encodePngLine pixels strideBytes width j n (filters j)) =
      some ((List.range' j rows).flatMap (rowAt pixels strideBytes width n)) := by
  induction rows with
  | zero => exact fun j _ => rfl
  | succ rows ih =>
      intro j hlen
      have hrow := hlen j (by omega)
      have hfilter := hfilters j
      have hbyte : (filters j).toUInt8.toNat = filters j := by
        rw [Nat.toUInt8, UInt8.toNat_ofNat']
        omega
      have hbelow := ih (j + 1) fun k hk => hlen k (by omega)
      rw [rowAbove, ← length_rowAt hrow] at hbelow
      have hcons := unfilter_cons hn (filters j).toUInt8 (by omega)
        (rowAbove pixels strideBytes width n j) hbelow
      rw [hbyte, ← encodePngLine_eq hw hfilter hrow, length_rowAt hrow] at hcons
      rw [List.range'_succ, List.flatMap_cons, List.flatMap_cons, List.cons_append]
      exact hcons

/-- **The lines** are those of the picture, whatever filters are chosen. -/
theorem unfilter_filt (hn : 0 < n) (hw : 0 < width) (forceFilter : Int) {rows : Nat}
    (hlen : ∀ j < rows, strideBytes * j + width * n ≤ pixels.length) :
    unfilter n (width * n) rows [] (filt forceFilter pixels strideBytes width rows n) =
      some ((List.range rows).flatMap (rowAt pixels strideBytes width n)) := by
  have hlines := unfilter_lines hn hw
    (fun j =>
      if (if forceFilter ≥ 5 then -1 else forceFilter) > -1 then
        (if forceFilter ≥ 5 then -1 else forceFilter).toNat
      else bestFilter (encodePngLine pixels strideBytes width j n))
    (fun j => by
      have hforce : (if forceFilter ≥ 5 then -1 else forceFilter) < 5 := by split <;> omega
      generalize (if forceFilter ≥ 5 then -1 else forceFilter) = force at hforce ⊢
      split
      · omega
      · exact bestFilter_lt _)
    rows 0 (fun k hk => hlen k (by omega))
  rw [← List.range_eq_range'] at hlines
  exact hlines

theorem length_encodePngLine (hw : 0 < width) (filterType : Nat) :
    (encodePngLine pixels strideBytes width y n filterType).length = width * n := by
  have hle : n ≤ width * n := Nat.le_mul_of_pos_left n hw
  rw [encodePngLine]
  dsimp only
  generalize (if y ≠ 0 then mapping else firstmap).getD filterType 0 = type
  split
  · rw [List.length_map, List.length_range]
  · rw [List.length_append, List.length_map, List.length_map, List.length_range,
      List.length_range']
    omega

theorem length_filt (hw : 0 < width) (forceFilter : Int) (rows : Nat) :
    (filt forceFilter pixels strideBytes width rows n).length = (width * n + 1) * rows := by
  induction rows with
  | zero => rfl
  | succ rows ih =>
      rw [filt] at ih
      dsimp only at ih
      rw [filt]
      dsimp only
      rw [List.range_succ, List.flatMap_append, List.length_append, ih, List.flatMap_singleton,
        List.length_cons, length_encodePngLine hw, Nat.mul_succ]

/-! ### The file -/

/-- **What is written is the picture.** -/
theorem read_written (forceFilter : Int) (level : Nat) {x y : Nat} (hx : 0 < x)
    (hy : 0 < y) (hn : 0 < n) (hn4 : n ≤ 4) (hfile : (x * n + 1) * y < 2 ^ 28)
    (hlen : (if strideBytes = 0 then x * n else strideBytes) * (y - 1) + x * n ≤ pixels.length) :
    PngReader.read (stbiWritePngToMem forceFilter level pixels strideBytes x y n) =
      some {
        width := x, height := y, channels := n
        bytes := (List.range y).flatMap
          (rowAt pixels (if strideBytes = 0 then x * n else strideBytes) x n) } := by
  rw [stbiWritePngToMem]
  generalize (if strideBytes = 0 then x * n else strideBytes) = stride at hlen ⊢
  have hrows : ∀ j < y, stride * j + x * n ≤ pixels.length := by
    intro j hj
    have hmul := Nat.mul_le_mul_left stride (show j ≤ y - 1 by omega)
    omega
  have hfilt : (filt forceFilter pixels stride x y n).length = (x * n + 1) * y :=
    length_filt hx forceFilter y
  have hzlib := length_stbiZlibCompress (filt forceFilter pixels stride x y n) level
  rw [hfilt] at hzlib
  have hx32 : x < 2 ^ 32 := by
    have hxn : x * 1 ≤ x * n := Nat.mul_le_mul_left x hn
    have hxy : (x * n + 1) * 1 ≤ (x * n + 1) * y := Nat.mul_le_mul_left _ hy
    omega
  have hy32 : y < 2 ^ 32 := by
    have hxy : 1 * y ≤ (x * n + 1) * y := Nat.mul_le_mul_right y (by omega)
    omega
  have hlines : Inflate.zlib (stbiZlibCompress (filt forceFilter pixels stride x y n) level) =
      some (filt forceFilter pixels stride x y n) := by
    refine (zlib_stbiZlibCompress _ level).mpr fun hnil => ?_
    rw [hnil, List.length_nil] at hfilt
    have hpos := Nat.mul_pos (show 0 < x * n + 1 by omega) hy
    omega
  have hchannels : channels (uchar (ctype.getD n 0)) = some n := by
    have hcases : n = 1 ∨ n = 2 ∨ n = 3 ∨ n = 4 := by omega
    rcases hcases with rfl | rfl | rfl | rfl <;> rfl
  have hheader : wp32 x.toUInt32 ++ wp32 y.toUInt32 ++ [8, uchar (ctype.getD n 0), 0, 0, 0] =
      header x y (uchar (ctype.getD n 0)) := by
    rw [wp32_nat hx32, wp32_nat hy32, List.append_assoc, header]
  have hfirst := taggedWithCrc_eq IHDR (header x y (uchar (ctype.getD n 0)))
    (by rw [length_header]; decide)
  rw [length_header] at hfirst
  have hlast := taggedWithCrc_eq IEND [] (by decide)
  have hread := read_write hx hx32 hy hy32 hchannels (by omega) hlines
    (unfilter_filt hn hx forceFilter hrows)
  rw [← hfirst, ← taggedWithCrc_eq IDAT _ (by omega), ← hlast] at hread
  rw [hheader]
  simp only [List.append_assoc] at hread ⊢
  exact hread

/-- A byte adds no more than 128 to an estimate. -/
theorem estimate_le (line : List UInt8) : estimate line ≤ 128 * line.length := by
  induction line with
  | nil => exact Nat.le_refl 0
  | cons b line ih =>
      have hb := b.toNat_lt
      unfold estimate at ih ⊢
      rw [List.map_cons, List.sum_cons, List.length_cons]
      split <;> omega

/-- **No `int` overflows**: not the place of a row, not the sum of an estimate, no length and no
size in the compression. -/
structure FitsInt (forceFilter : Int) (level : Nat) (pixels : List UInt8)
    (strideBytes x y n : Nat) : Prop where
  row : strideBytes * (y - 1) < 2 ^ 31
  estimates : ∀ j filterType,
    estimate (encodePngLine pixels strideBytes x j n filterType) < 2 ^ 31
  lines : (filt forceFilter pixels strideBytes x y n).length < 2 ^ 31
  zlib : ZlibFits (filt forceFilter pixels strideBytes x y n) level
  file : 57 + (stbiZlibCompress (filt forceFilter pixels strideBytes x y n) level).length < 2 ^ 31

/-- The pictures and levels for which that is shown. -/
def Sized (level strideBytes x y n : Nat) : Prop :=
  level < 2 ^ 25 ∧ strideBytes * (y - 1) < 2 ^ 31 ∧ x * n < 2 ^ 24 ∧ (x * n + 1) * y < 2 ^ 28

instance (level strideBytes x y n : Nat) : Decidable (Sized level strideBytes x y n) :=
  inferInstanceAs (Decidable (_ ∧ _ ∧ _ ∧ _))

theorem fitsInt_of_sized (forceFilter : Int) {level x y : Nat} (hx : 0 < x)
    (h : Sized level strideBytes x y n) :
    FitsInt forceFilter level pixels strideBytes x y n := by
  obtain ⟨hlevel, hrow, hline, hfile⟩ := h
  have hfilt : (filt forceFilter pixels strideBytes x y n).length = (x * n + 1) * y :=
    length_filt hx forceFilter y
  have hzlib := length_stbiZlibCompress (filt forceFilter pixels strideBytes x y n) level
  exact {
    row := hrow
    estimates := by
      intro j filterType
      have hsum := estimate_le (encodePngLine pixels strideBytes x j n filterType)
      rw [length_encodePngLine hx] at hsum
      omega
    lines := by omega
    zlib := zlibFits_of_lt (by omega) hlevel
    file := by omega }

/-- **What is written is the picture**, and no `int` overflows on the way. -/
theorem read_stbiWritePngToMem (forceFilter : Int) {level x y : Nat} (hx : 0 < x) (hy : 0 < y)
    (hn : 0 < n) (hn4 : n ≤ 4)
    (hsized : Sized level (if strideBytes = 0 then x * n else strideBytes) x y n)
    (hlen : (if strideBytes = 0 then x * n else strideBytes) * (y - 1) + x * n ≤ pixels.length) :
    FitsInt forceFilter level pixels (if strideBytes = 0 then x * n else strideBytes) x y n ∧
      PngReader.read (stbiWritePngToMem forceFilter level pixels strideBytes x y n) =
        some {
          width := x, height := y, channels := n
          bytes := (List.range y).flatMap
            (rowAt pixels (if strideBytes = 0 then x * n else strideBytes) x n) } :=
  ⟨fitsInt_of_sized forceFilter hx hsized,
    read_written forceFilter level hx hy hn hn4 hsized.2.2.2 hlen⟩

theorem read_stbiWritePngToMem_padded :
    PngReader.read (stbiWritePngToMem 4 8 [1, 2, 9, 3, 4] 3 2 2 1) =
      some { width := 2, height := 2, channels := 1, bytes := [1, 2, 3, 4] } :=
  (read_stbiWritePngToMem 4 (by decide) (by decide) (by decide) (by decide) (by decide)
    (by decide)).2

end Ilo2.Png
