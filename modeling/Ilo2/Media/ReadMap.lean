import Ilo2.Lib.Checked
import Ilo2.Lib.Buckets
import Ilo2.Media.Control
import Mathlib.Algebra.Group.Int.Defs
import Mathlib.Algebra.Group.Nat.Defs

/-!
# The map of the image

`MediaServer::mark_read`, and the content provider that calls it.  The map has 512 buckets; a
read stamps those that it touches with the time.  The arithmetic is that of `int64_t`: a
result that does not fit is a fault, and so is an index out of range.

* `markRead_ok` - a read inside the image stamps the buckets of its bytes.
* `buckets_stamped` - **what is stamped after any sequence of reads**.
-/

namespace Ilo2.Media

open Checked
open Buckets (bucket)

namespace MediaServer

inductive Fault where
  | overflow (x : Int)
  | divide
  | index (i : Nat)
deriving DecidableEq

def kMapBuckets : Nat := 512

/-- The server with what it counts. -/
structure Counted where
  server : MediaServer := {}
  bytes : UInt64 := 0
  map : Vector UInt32 kMapBuckets := Vector.replicate kMapBuckets 0
deriving DecidableEq

/-- The result of an operation on `int64_t`. -/
def int64 (x : Int) : Except Fault Int :=
  if -2 ^ 63 ≤ x ∧ x < 2 ^ 63 then .ok x else .error (.overflow x)

/-- A `size_t` taken as `int64_t`. -/
def toInt64 (n : Nat) : Int := (n : Int).bmod (2 ^ 64)

/-- `now_ms`, where the clock shows `t`. -/
def nowMs (t : Int) : UInt32 :=
  let v := UInt32.ofInt t
  if v ≠ 0 then v else 1

/-- `x * kMapBuckets / size_`. -/
def scaled (x size : Int) : Except Fault Int := do
  let y ← int64 (x * kMapBuckets)
  if size = 0 then .error .divide else int64 (y.tdiv size)

/-- The indexes of the loop `for (i = first; i <= last; ++i)`. -/
def indexes (first last : Int) : List Nat :=
  (List.range (last + 1 - first).toNat).map fun k : Nat => (first + k).toNat

namespace Counted

/-- `start`: the map is cleared if the image can be opened. -/
def start (w : World) (iso : List UInt8) (port : UInt16) (s : Counted) :
    Option (List UInt8) × Counted :=
  let (err, server) := s.server.start w iso port
  if server.size < 0 then (err, { s with server := server }) else (err, { server := server })

def markRead (s : Counted) (offset : Int) (n : Nat) (t : Int) : Except Fault Counted :=
  if s.server.size ≤ 0 ∨ n = 0 ∨ offset < 0 then .ok s
  else do
    let lastByte ← int64 ((← int64 (offset + toInt64 n)) - 1)
    let first ← scaled offset s.server.size
    let last ← scaled lastByte s.server.size
    let first := if first < 0 then 0 else first
    let last := if last > kMapBuckets - 1 then (kMapBuckets : Int) - 1 else last
    let map ← (indexes first last).foldlM (fun map i => wr .index map i (nowMs t)) s.map
    .ok { s with map := map }

/-- The content provider: `file` is what `fopen` opens.  The result is what goes to the sink,
or none if the provider gives up. -/
def provide (s : Counted) (file : Option (List UInt8)) (offset length : Nat) (t : Int) :
    Except Fault (Option (List UInt8) × Counted) :=
  match file with
  | none => .ok (none, s)
  | some data => do
      -- A negative position is refused by `fseek`.
      let rest := if toInt64 offset < 0 then data else data.drop offset
      let want := if length < 65536 then length else 65536
      let buf := rest.take want
      if buf.length = 0 then .ok (none, s)
      else
        let s := { s with bytes := s.bytes + buf.length.toUInt64 }
        .ok (some buf, ← s.markRead (toInt64 offset) buf.length t)

end Counted

/-- A read inside an image of `size` bytes, and what the clock shows. -/
structure Read (size : Int) where
  offset : Int
  n : Nat
  t : Int
  nonneg : 0 ≤ offset
  pos : 1 ≤ n
  inside : offset + n ≤ size

namespace Read

variable {size : Int}

/-- `b` is a byte of the read. -/
def Has (r : Read size) (b : Int) : Prop := r.offset ≤ b ∧ b < r.offset + r.n

/-- The buckets from that of the first byte to that of the last. -/
def Touches (r : Read size) (i : Nat) : Prop :=
  r.offset * kMapBuckets / size ≤ i ∧ i ≤ (r.offset + r.n - 1) * kMapBuckets / size

instance (r : Read size) (i : Nat) : Decidable (r.Touches i) := instDecidableAnd

end Read

/-- `mark_read` for one read after the other. -/
def Counted.marks {size : Int} (s : Counted) (reads : List (Read size)) : Except Fault Counted :=
  reads.foldlM (fun s r => s.markRead r.offset r.n r.t) s

/-! ### One read -/

theorem nowMs_ne_zero (t : Int) : nowMs t ≠ 0 := by
  rw [nowMs]
  split
  · assumption
  · decide

theorem int64_of_lt {x : Int} (h0 : 0 ≤ x) (h : x < 2 ^ 63) : int64 x = .ok x :=
  if_pos ⟨by omega, h⟩

theorem toInt64_of_lt {n : Nat} (h : n < 2 ^ 63) : toInt64 n = n :=
  Int.bmod_eq_of_le (by omega) (by omega)

theorem mem_indexes {first last : Int} (h : 0 ≤ first) {i : Nat} :
    i ∈ indexes first last ↔ first ≤ i ∧ i ≤ last := by
  rw [indexes, List.mem_map]
  constructor
  · rintro ⟨k, hk, rfl⟩
    have hk := List.mem_range.mp hk
    omega
  · rintro ⟨hfirst, hlast⟩
    exact ⟨(i - first).toNat, List.mem_range.mpr (by omega), by omega⟩

variable {size : Int} {reads : List (Read size)}

/-- The product fits: 54 bits and 9. -/
theorem scaled_ok {x : Int} (hx : 0 ≤ x) (hlt : x < size) (hsize : size < 2 ^ 54) :
    scaled x size = .ok (bucket kMapBuckets size x) := by
  have hpos : 0 < size := by omega
  have hk : (kMapBuckets : Int) = 512 := rfl
  have hbucket := Buckets.nonneg (k := kMapBuckets) (by omega) hpos hx
  have hbound := Buckets.lt_of_lt (k := kMapBuckets) (by omega) hpos hlt
  have hquotient : (x * kMapBuckets).tdiv size = bucket kMapBuckets size x :=
    Int.tdiv_eq_ediv_of_nonneg (by rw [hk]; omega)
  rw [scaled, int64_of_lt (by rw [hk]; omega) (by rw [hk]; omega), ok_bind, if_neg (by omega),
    hquotient]
  exact int64_of_lt hbucket (by omega)

/-- **A read stamps the buckets of its bytes**, and leaves the rest alone. -/
theorem Counted.markRead_ok {s : Counted} (r : Read size) (hs : s.server.size = size)
    (hsize : size < 2 ^ 54) : ∃ map, s.markRead r.offset r.n r.t = .ok { s with map := map } ∧
      ∀ i, look 0 map i = if r.Touches i then nowMs r.t else look 0 s.map i := by
  obtain ⟨hoffset, hn, hinside⟩ := And.intro r.nonneg (And.intro r.pos r.inside)
  have hpos : 0 < size := by omega
  have hk : (kMapBuckets : Int) = 512 := rfl
  have hfirst := Buckets.nonneg (k := kMapBuckets) (by omega) hpos hoffset
  have hlast := Buckets.lt_of_lt (k := kMapBuckets) (n := size) (i := r.offset + r.n - 1)
    (by omega) hpos (by omega)
  have hindex : ∀ i ∈ indexes (bucket kMapBuckets size r.offset)
      (bucket kMapBuckets size (r.offset + r.n - 1)), i < kMapBuckets := by
    intro i hi
    have := (mem_indexes hfirst).mp hi
    omega
  obtain ⟨map, hmap, hlook⟩ := foldlM_wr Fault.index (fun _ => nowMs r.t) 0 hindex s.map
  refine ⟨map, ?_, fun i => ?_⟩
  · rw [markRead, if_neg (by omega), toInt64_of_lt (by omega), int64_of_lt (by omega) (by omega),
      ok_bind, int64_of_lt (by omega) (by omega), ok_bind, hs,
      scaled_ok hoffset (by omega) hsize, ok_bind, scaled_ok (by omega) (by omega) hsize, ok_bind]
    dsimp only
    rw [if_neg (by omega), if_neg (by omega), hmap, ok_bind]
  · rw [hlook]
    congr 1
    exact propext (mem_indexes hfirst)

/-! ### All reads -/

/-- The last read that touches a bucket of the list. -/
def lastRead (reads : List (Read size)) (buckets : List Nat) : Option (Read size) :=
  (reads.filter fun r => buckets.any fun i => r.Touches i).getLast?

theorem lastRead_cons (r : Read size) (reads : List (Read size)) (buckets : List Nat) :
    lastRead (r :: reads) buckets =
      (lastRead reads buckets).or (if buckets.any fun i => r.Touches i then some r else none) := by
  rw [lastRead, List.filter_cons]
  split
  · rw [List.getLast?_cons, ← lastRead]
    cases lastRead reads buckets with
    | none => rfl
    | some r' => rfl
  · rw [← lastRead, Option.or_none]

theorem lastRead_mem {buckets : List Nat} {r : Read size} (h : lastRead reads buckets = some r) :
    r ∈ reads ∧ ∃ i ∈ buckets, r.Touches i := by
  have hmem := List.mem_filter.mp (List.mem_of_getLast? h)
  simpa using hmem

theorem lastRead_singleton {i : Nat} {r : Read size} (h : lastRead reads [i] = some r) :
    r ∈ reads ∧ r.Touches i := by
  obtain ⟨hmem, j, hj, htouch⟩ := lastRead_mem h
  exact ⟨hmem, List.mem_singleton.mp hj ▸ htouch⟩

theorem lastRead_eq_none {buckets : List Nat} :
    lastRead reads buckets = none ↔ ∀ r ∈ reads, ∀ i ∈ buckets, ¬ r.Touches i := by
  rw [lastRead, List.getLast?_eq_none_iff, List.filter_eq_nil_iff]
  simp

/-- **A bucket has the stamp of the last read that touched it.** -/
theorem Counted.marks_latest (hsize : size < 2 ^ 54) (reads : List (Read size)) :
    ∀ {s : Counted}, s.server.size = size → ∃ map, s.marks reads = .ok { s with map := map } ∧
      ∀ i, look 0 map i = ((lastRead reads [i]).map fun r => nowMs r.t).getD (look 0 s.map i) := by
  induction reads with
  | nil => intro s _; exact ⟨s.map, rfl, fun i => rfl⟩
  | cons r reads ih =>
      intro s hs
      obtain ⟨map₁, hmark, hlook₁⟩ := Counted.markRead_ok r hs hsize
      obtain ⟨map, hmarks, hlook⟩ := ih (s := { s with map := map₁ }) hs
      refine ⟨map, ?_, fun i => ?_⟩
      · rw [marks, List.foldlM_cons, hmark, ok_bind]
        exact hmarks
      · rw [hlook, hlook₁, lastRead_cons]
        cases lastRead reads [i] with
        | some r' => rfl
        | none =>
            by_cases hi : r.Touches i
            · simp [hi]
            · simp [hi]

/-- The stamp of a bucket that no read touched is the old one, `old`. -/
theorem stamp_ne_zero (reads : List (Read size)) (i : Nat) (old : UInt32) :
    ((lastRead reads [i]).map fun r => nowMs r.t).getD old ≠ 0 ↔
      (∃ r ∈ reads, r.Touches i) ∨ old ≠ 0 := by
  cases hlast : lastRead reads [i] with
  | some r => exact iff_of_true (nowMs_ne_zero r.t) (Or.inl ⟨r, lastRead_singleton hlast⟩)
  | none =>
      have hno : ¬ ∃ r ∈ reads, r.Touches i := by
        rintro ⟨r, hr, htouch⟩
        exact lastRead_eq_none.mp hlast r hr i (List.mem_singleton_self i) htouch
      exact ⟨Or.inr, fun h => h.resolve_left hno⟩

/-- The stamped buckets are those that a read touched. -/
theorem Counted.marks_ok (hsize : size < 2 ^ 54) (reads : List (Read size)) {s : Counted}
    (hs : s.server.size = size) : ∃ map, s.marks reads = .ok { s with map := map } ∧
      ∀ i, look 0 map i ≠ 0 ↔ (∃ r ∈ reads, r.Touches i) ∨ look 0 s.map i ≠ 0 := by
  obtain ⟨map, hmarks, hlook⟩ := marks_latest hsize reads hs
  refine ⟨map, hmarks, fun i => ?_⟩
  rw [hlook]
  exact stamp_ne_zero reads i _

theorem Counted.start_size (w : World) (iso : List UInt8) (port : UInt16) (s : Counted) :
    (s.start w iso port).2.server.size = w.fileSize := by
  have hserver : (s.server.start w iso port).2.size = w.fileSize := by
    simp only [MediaServer.start]
    split
    · rfl
    · split
      · rfl
      · rfl
  rw [← hserver, start]
  dsimp only
  split
  · rfl
  · rfl

theorem Counted.start_map {w : World} (h : 0 ≤ w.fileSize) (iso : List UInt8) (port : UInt16)
    (s : Counted) (i : Nat) : look 0 (s.start w iso port).2.map i = 0 := by
  have hmap : (s.start w iso port).2.map = Vector.replicate kMapBuckets 0 := by
    have hsize := start_size w iso port s
    rw [start] at hsize ⊢
    dsimp only at hsize ⊢
    split at hsize
    · rename_i hneg
      exact absurd hneg (by rw [show _ = w.fileSize from hsize]; omega)
    · rename_i hneg
      rw [if_neg hneg]
  rw [hmap, look]
  by_cases hi : i < kMapBuckets
  · simp [hi]
  · simp [Nat.le_of_not_lt hi]

/-- **The map after any sequence of reads** is made of the buckets that they touch.  A byte that
was read is in a stamped bucket, a stamped bucket lies between those of two bytes of one read,
and reads of the whole image stamp all buckets, unless there are fewer bytes than buckets. -/
theorem buckets_stamped {w : World} (hpos : 0 < w.fileSize) (hsize : w.fileSize < 2 ^ 54)
    (iso : List UInt8) (port : UInt16) (before : Counted) (reads : List (Read w.fileSize)) :
    ∃ s, (before.start w iso port).2.marks reads = .ok s ∧
      (∀ i : Nat, look 0 s.map i ≠ 0 ↔ ∃ r ∈ reads,
        r.offset * 512 / w.fileSize ≤ i ∧ i ≤ (r.offset + r.n - 1) * 512 / w.fileSize) ∧
      (∀ r ∈ reads, ∀ b, r.Has b → ∃ i : Nat, i < 512 ∧ b * 512 / w.fileSize = i ∧
        look 0 s.map i ≠ 0) ∧
      (∀ i : Nat, look 0 s.map i ≠ 0 → i < 512 ∧ ∃ r ∈ reads, ∃ b b', r.Has b ∧ r.Has b' ∧
        b * 512 / w.fileSize ≤ i ∧ i ≤ b' * 512 / w.fileSize) ∧
      (512 ≤ w.fileSize → (∀ b, 0 ≤ b → b < w.fileSize → ∃ r ∈ reads, r.Has b) →
        ∀ i : Nat, i < 512 → look 0 s.map i ≠ 0) := by
  obtain ⟨map, hmarks, hlook⟩ := Counted.marks_ok hsize reads
    (Counted.start_size w iso port before)
  have hstamped : ∀ i : Nat, look 0 map i ≠ 0 ↔ ∃ r ∈ reads,
      r.offset * 512 / w.fileSize ≤ i ∧ i ≤ (r.offset + r.n - 1) * 512 / w.fileSize := by
    intro i
    rw [hlook, Counted.start_map (Int.le_of_lt hpos)]
    simp only [ne_eq, not_true_eq_false, or_false]
    exact Iff.rfl
  have hbyte : ∀ r ∈ reads, ∀ b, r.Has b → ∃ i : Nat, i < 512 ∧ b * 512 / w.fileSize = i ∧
      look 0 map i ≠ 0 := by
    rintro r hr b ⟨hfirst, hlast⟩
    have h0 := Buckets.nonneg (k := 512) (by decide) hpos (Int.le_trans r.nonneg hfirst)
    have hlt := Buckets.lt_of_lt (k := 512) (i := b) (by decide) hpos
      (by have := r.inside; omega)
    have hcast : bucket 512 w.fileSize b = ((bucket 512 w.fileSize b).toNat : Int) :=
      (Int.toNat_of_nonneg h0).symm
    refine ⟨(bucket 512 w.fileSize b).toNat, by omega, hcast, (hstamped _).mpr ⟨r, hr, ?_⟩⟩
    rw [← hcast]
    exact ⟨Buckets.mono (by decide) hpos hfirst, Buckets.mono (by decide) hpos (by omega)⟩
  refine ⟨_, hmarks, hstamped, hbyte, fun i hi => ?_, fun hmany hall i hi => ?_⟩
  · obtain ⟨r, hr, hfirst, hlast⟩ := (hstamped i).mp hi
    have hlt := Buckets.lt_of_lt (k := 512) (i := r.offset + r.n - 1) (by decide) hpos
      (by have := r.inside; omega)
    rw [bucket] at hlt
    have hn := r.pos
    exact ⟨by omega, r, hr, r.offset, r.offset + r.n - 1, ⟨by omega, by omega⟩,
      ⟨by omega, by omega⟩, hfirst, hlast⟩
  · obtain ⟨b, h0, hlt, hbucket⟩ := Buckets.hit (k := 512) (c := i) (by decide) hmany
      (by omega) (by omega)
    obtain ⟨r, hr, hb⟩ := hall b h0 hlt
    obtain ⟨j, -, hj, hmark⟩ := hbyte r hr b hb
    rw [bucket, hj] at hbucket
    rwa [← Int.ofNat.inj hbucket]

/-- Ten bytes at the end of an image. -/
theorem buckets_stamped_tail :
    let w : World := ⟨fun _ => .error [], 300000, true, []⟩
    let reads : List (Read w.fileSize) := [⟨299990, 10, 0, by decide, by decide, by decide⟩]
    ∃ s, (Counted.start w [] 80 {}).2.marks reads = .ok s ∧ look 0 s.map 511 ≠ 0 ∧
      look 0 s.map 0 = 0 := by
  intro w reads
  obtain ⟨s, hmarks, hstamped, -⟩ := buckets_stamped (w := w) (by decide) (by decide) [] 80 {} reads
  refine ⟨s, hmarks, (hstamped 511).mpr ⟨_, List.mem_singleton_self _, by decide, by decide⟩, ?_⟩
  refine Decidable.byContradiction fun h => ?_
  obtain ⟨r, hr, hfirst, -⟩ := (hstamped 0).mp h
  rw [List.mem_singleton.mp hr] at hfirst
  exact absurd hfirst (by decide)

end MediaServer

end Ilo2.Media
