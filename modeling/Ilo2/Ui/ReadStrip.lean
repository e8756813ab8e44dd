import Ilo2.Lib.Serial
import Ilo2.Media.ReadMap

/-!
# The strip of the image

`ms_since_last_read` and `draw_read_map` of `sdl_main.cpp`, on the statistics that `MediaServer`
takes of its map.  The clock has 32 bits, and never shows 0.

* `newest_buckets` - the newest stamp of some buckets is that of the last read that touched one.
* `since_last_read` - **how long ago the last read was**, over a wrap of the clock or not.
* `strip_shows` - **what the strip shows**: every read lights a column, whose colour is that of the
  last read in its part of the image.
-/

namespace Ilo2.Ui

open Checked Media MediaServer

/-! ### The front end -/

/-- What `stats` tells of the map. -/
structure Stats where
  size : Int
  map : List UInt32
  now : UInt32

/-- `MediaServer::stats`, where the clock shows `t`. -/
def stats (s : Counted) (t : Int) : Stats := ⟨s.server.size, s.map.toList, nowMs t⟩

/-- `ms_since_last_read`. -/
def msSinceLastRead (s : Stats) : Int :=
  let newest := Serial.newest s.map
  if newest = 0 then -1 else (s.now - newest).toNat

/-- A product of two numbers that are not negative, as `int`. -/
def intMul (x y : Nat) : Except Fault Nat :=
  if x * y < 2 ^ 31 then .ok (x * y) else .error (.overflow (x * y : Nat))

/-- The buckets `b0` to `b1` of a column of the strip. -/
def columnBuckets (n cols x : Nat) : Except Fault (Nat × Nat) := do
  let b0 := (← intMul x n) / cols
  let b1 := (← intMul (x + 1) n) / cols
  let b1 := if b1 ≤ b0 then b0 + 1 else b1
  .ok (b0, if b1 > n then n else b1)

def fadeMs : Nat := 2500

/-- `k`, in parts of `fade_ms`: how far a colour has gone from bright to mid. -/
def faded (age : Nat) : Nat := if age ≥ fadeMs then fadeMs else age

/-- What a column of the strip shows, if it is lit. -/
def column (s : Stats) (cols x : Nat) : Except Fault (Option Nat) := do
  let (b0, b1) ← columnBuckets s.map.length cols x
  let newest := Serial.newest ((s.map.drop b0).take (b1 - b0))
  .ok (if newest = 0 then none else some (faded (s.now - newest).toNat))

/-- The buckets that count as touched. -/
def covered (s : Stats) : Nat := s.map.countP (· ≠ 0)

/-- `%.0f` of `a / n`: to the nearest, and to the even one of two. -/
def roundEven (a n : Nat) : Nat :=
  if 2 * (a % n) < n then a / n
  else if n < 2 * (a % n) then a / n + 1
  else a / n + a / n % 2

/-- What `draw_read_map` shows: the columns, and the percentage under them. -/
structure Strip where
  columns : List (Option Nat)
  percent : Nat
deriving DecidableEq

/-- `draw_read_map`, where `w` by `h` are left for the strip. -/
def drawReadMap (s : Stats) (w h : Int) : Except Fault (Option Strip) :=
  if s.map = [] ∨ s.size ≤ 0 then .ok none
  else if w < 16 ∨ h < 2 then .ok none
  else do
    let columns ← (List.range w.toNat).mapM (column s w.toNat)
    -- A double has the quotient exactly, since there are 512 buckets.
    .ok (some ⟨columns, roundEven (covered s * 100) s.map.length⟩)

/-! ### The clock -/

/-- The clock passes over the times at which it would show 0. -/
def tick (t : Int) : Int := if t % 2 ^ 32 = 0 then t + 1 else t

theorem nowMs_eq (t : Int) : nowMs t = Serial.stamp (tick t) := by
  have hzero : Serial.stamp t = 0 ↔ t % 2 ^ 32 = 0 := by
    rw [← UInt32.toNat_inj, ← Int.natCast_inj, Serial.toNat_stamp]
    rfl
  show (if Serial.stamp t ≠ 0 then Serial.stamp t else 1) = Serial.stamp (tick t)
  rw [tick]
  by_cases h : t % 2 ^ 32 = 0
  · rw [if_neg (not_not.mpr (hzero.mpr h)), if_pos h]
    rw [← UInt32.toNat_inj, ← Int.natCast_inj, Serial.toNat_stamp]
    show (1 : Int) = _
    omega
  · rw [if_pos (fun h0 => h (hzero.mp h0)), if_neg h]

theorem le_tick (t : Int) : t ≤ tick t ∧ tick t ≤ t + 1 := by
  rw [tick]
  split <;> omega

theorem tick_mono {t u : Int} (h : t ≤ u) : tick t ≤ tick u := by
  unfold tick
  split <;> split <;> omega

/-! ### The map after some reads -/

variable {size : Int} {reads : List (Read size)} {s : Counted}

/-- The last of a list is not before the others, in an order. -/
theorem le_getLast {reads : List (Read size)} (hsorted : reads.Pairwise fun r r' => r.t ≤ r'.t)
    {last : Read size} (hlast : reads.getLast? = some last) : ∀ r ∈ reads, r.t ≤ last.t := by
  obtain ⟨front, rfl⟩ := List.getLast?_eq_some_iff.mp hlast
  intro r hr
  rcases List.mem_append.mp hr with hr | hr
  · exact (List.pairwise_append.mp hsorted).2.2 r hr last (List.mem_singleton_self _)
  · exact Int.le_of_eq (congrArg Read.t (List.mem_singleton.mp hr))

/-- The reads are in the order of the clock, and not too long ago. -/
structure Recent (now : Int) (reads : List (Read size)) : Prop where
  sorted : reads.Pairwise fun r r' => r.t ≤ r'.t
  past : ∀ r ∈ reads, r.t ≤ now
  recent : ∀ r ∈ reads, now - r.t < 2 ^ 31 - 1

/-- No read that touches one of the buckets is later. -/
theorem le_lastRead {now : Int} (h : Recent now reads) {buckets : List Nat} {last : Read size}
    (hlast : lastRead reads buckets = some last) {r : Read size} (hr : r ∈ reads) {i : Nat}
    (hi : i ∈ buckets) (ht : r.Touches i) : r.t ≤ last.t := by
  refine le_getLast (h.sorted.filter _) hlast r (List.mem_filter.mpr ⟨hr, ?_⟩)
  simpa using ⟨i, hi, ht⟩

/-- One of the buckets was last touched when they all were. -/
theorem exists_lastRead {now : Int} (h : Recent now reads) {buckets : List Nat} {last : Read size}
    (hlast : lastRead reads buckets = some last) :
    ∃ i ∈ buckets, ∃ r, lastRead reads [i] = some r ∧ r.t = last.t := by
  obtain ⟨hmem, i, hi, htouch⟩ := lastRead_mem hlast
  refine ⟨i, hi, ?_⟩
  cases hr : lastRead reads [i] with
  | none => exact absurd htouch (lastRead_eq_none.mp hr last hmem i (List.mem_singleton_self i))
  | some r =>
      obtain ⟨hmem', htouch'⟩ := lastRead_singleton hr
      exact ⟨r, rfl, Int.le_antisymm (le_lastRead h hlast hmem' hi htouch')
        (le_lastRead h hr hmem (List.mem_singleton_self i) htouch)⟩

/-- When a bucket was touched last. -/
def lastTick (reads : List (Read size)) (i : Nat) : Option Int :=
  (lastRead reads [i]).map fun r => tick r.t

theorem of_lastTick {buckets : List Nat} {t : Int} (h : some t ∈ buckets.map (lastTick reads)) :
    ∃ r ∈ reads, ∃ i ∈ buckets, r.Touches i ∧ t = tick r.t := by
  obtain ⟨i, hi, htime⟩ := List.mem_map.mp h
  obtain ⟨r, hr, rfl⟩ := Option.map_eq_some_iff.mp htime
  obtain ⟨hmem, htouch⟩ := lastRead_singleton hr
  exact ⟨r, hmem, i, hi, htouch, rfl⟩

theorem near_lastTick {now : Int} (h : Recent now reads) (buckets : List Nat) :
    Serial.Near (now - 2 ^ 31 + 2) (buckets.map (lastTick reads)) := by
  refine ⟨fun t ht => ?_, fun t ht => ?_, fun t ht => ?_⟩
  · obtain ⟨r, -, i, -, -, rfl⟩ := of_lastTick ht
    rw [← nowMs_eq]
    exact nowMs_ne_zero r.t
  · obtain ⟨r, hr, i, -, -, rfl⟩ := of_lastTick ht
    have hrecent := h.recent r hr
    have htick := le_tick r.t
    omega
  · obtain ⟨r, hr, i, -, -, rfl⟩ := of_lastTick ht
    have hpast := h.past r hr
    have htick := le_tick r.t
    omega

/-- **The newest stamp of some buckets** is that of the last read that touched one of them. -/
theorem newest_buckets {now : Int} (h : Recent now reads) {map : Vector UInt32 kMapBuckets}
    (hlook : ∀ i, look 0 map i = ((lastRead reads [i]).map fun r => nowMs r.t).getD 0)
    (buckets : List Nat) : Serial.newest (buckets.map fun i => look 0 map i) =
      ((lastRead reads buckets).map fun r => nowMs r.t).getD 0 := by
  have hstamps : (buckets.map fun i => look 0 map i) =
      (buckets.map (lastTick reads)).map Serial.show? := by
    rw [List.map_map]
    refine List.map_congr_left fun i _ => ?_
    rw [hlook, Function.comp_apply, lastTick]
    cases lastRead reads [i] with
    | none => rfl
    | some r => exact nowMs_eq r.t
  rw [hstamps]
  cases hr : lastRead reads buckets with
  | none =>
      refine Serial.newest_eq_zero fun t ht => ?_
      obtain ⟨r, hmem, i, hi, htouch, -⟩ := of_lastTick ht
      exact lastRead_eq_none.mp hr r hmem i hi htouch
  | some last =>
      obtain ⟨i, hi, r, hri, ht⟩ := exists_lastRead h hr
      rw [Option.map_some, Option.getD_some, nowMs_eq]
      refine Serial.newest_eq (near_lastTick h buckets) (List.mem_map.mpr ⟨i, hi, ?_⟩)
        fun t hmemt => ?_
      · rw [lastTick, hri, Option.map_some, ht]
      · obtain ⟨r', hmem', j, hj, htouch', rfl⟩ := of_lastTick hmemt
        exact tick_mono (le_lastRead h hr hmem' hj htouch')

/-! ### The age of the last read -/

/-- Every read touches the bucket of its first byte. -/
theorem touches_first (r : Read size) : ∃ i < kMapBuckets, r.Touches i := by
  have hoffset := r.nonneg
  have hn := r.pos
  have hinside := r.inside
  have hpos : 0 < size := by omega
  have h0 := Buckets.nonneg (k := kMapBuckets) (by decide) hpos hoffset
  have hlt := Buckets.lt_of_lt (k := kMapBuckets) (i := r.offset) (by decide) hpos (by omega)
  have hmono := Buckets.mono (k := kMapBuckets) (j := r.offset + r.n - 1) (by decide) hpos
    (show r.offset ≤ r.offset + r.n - 1 by omega)
  unfold Buckets.bucket at h0 hlt hmono
  refine ⟨(r.offset * kMapBuckets / size).toNat, by omega, ?_, ?_⟩
  · omega
  · omega

/-- The map, as a list of buckets. -/
theorem toList_map (map : Vector UInt32 kMapBuckets) :
    map.toList = (List.range kMapBuckets).map fun i => look 0 map i := by
  apply List.ext_getElem
  · simp
  · intro i h _
    rw [Vector.length_toList] at h
    simp [look, h]

/-- The age of a read, on the clock of the map. -/
def ageOf (now : Int) (r : Read size) : Int := tick now - tick r.t

theorem age_eq {now : Int} (h : Recent now reads) {r : Read size} (hr : r ∈ reads) :
    ((nowMs now - nowMs r.t).toNat : Int) = ageOf now r := by
  have hpast := tick_mono (h.past r hr)
  have hrecent := h.recent r hr
  have htick := le_tick now
  have htick' := le_tick r.t
  rw [nowMs_eq, nowMs_eq]
  exact Serial.age hpast (by omega)

/-- The server after the reads. -/
theorem marks_start {w : World} (hopen : 0 ≤ w.fileSize) (hsize : w.fileSize < 2 ^ 54)
    (iso : List UInt8) (port : UInt16) (before : Counted) (reads : List (Read w.fileSize)) :
    ∃ s, (before.start w iso port).2.marks reads = .ok s ∧ s.server.size = w.fileSize ∧
      ∀ i, look 0 s.map i = ((lastRead reads [i]).map fun r => nowMs r.t).getD 0 := by
  have hstart := Counted.start_size w iso port before
  obtain ⟨map, hmarks, hlook⟩ := Counted.marks_latest hsize reads hstart
  refine ⟨_, hmarks, hstart, fun i => ?_⟩
  rw [hlook, Counted.start_map hopen]

/-- **How long ago the last read was.**  After `start` and any reads, in the order of the clock, the
answer is the time since the last of them on the clock of the map, which is right up to a
millisecond, whether the clock has wrapped since or not; and -1 if there was none. -/
theorem since_last_read {w : World} (hopen : 0 ≤ w.fileSize) (hsize : w.fileSize < 2 ^ 54)
    (iso : List UInt8) (port : UInt16) (before : Counted) (reads : List (Read w.fileSize))
    {now : Int} (h : Recent now reads) :
    ∃ s, (before.start w iso port).2.marks reads = .ok s ∧
      (reads = [] → msSinceLastRead (stats s now) = -1) ∧
      ∀ last, reads.getLast? = some last →
        msSinceLastRead (stats s now) = ageOf now last ∧
        now - last.t - 1 ≤ ageOf now last ∧ ageOf now last ≤ now - last.t + 1 := by
  obtain ⟨s, hmarks, -, hlook⟩ := marks_start hopen hsize iso port before reads
  have hnewest := newest_buckets h hlook (List.range kMapBuckets)
  rw [← toList_map] at hnewest
  -- Every read touches some bucket.
  have hall :
      reads.filter (fun r => (List.range kMapBuckets).any fun i => r.Touches i) = reads := by
    refine List.filter_eq_self.mpr fun r _ => ?_
    obtain ⟨i, hi, htouch⟩ := touches_first r
    simpa using ⟨i, hi, htouch⟩
  rw [lastRead, hall] at hnewest
  refine ⟨s, hmarks, ?_, fun last hlast => ?_⟩
  · rintro rfl
    exact if_pos hnewest
  · rw [hlast, Option.map_some, Option.getD_some] at hnewest
    have hmem := List.mem_of_getLast? hlast
    have hnow := le_tick now
    have htick := le_tick last.t
    refine ⟨?_, by unfold ageOf; omega, by unfold ageOf; omega⟩
    rw [← age_eq h hmem]
    show (if Serial.newest s.map.toList = 0 then (-1 : Int)
      else (nowMs now - Serial.newest s.map.toList).toNat) = _
    rw [hnewest, if_neg (nowMs_ne_zero last.t)]

/-- An image of 300000 bytes, of which two reads were made around the wrap of the clock. -/
def wrapReads : List (Read 300000) :=
  [⟨0, 2048, 2 ^ 32 - 5, by decide, by decide, by decide⟩,
    ⟨299000, 1000, 2 ^ 32, by decide, by decide, by decide⟩]

theorem wrapReads_recent : Recent (2 ^ 32 + 40) wrapReads :=
  ⟨by decide, by decide, by decide⟩

/-- The last read was just when the clock would have shown 0. -/
theorem since_last_read_wrap :
    let w : World := ⟨fun _ => .error [], 300000, true, []⟩
    ∃ s, (Counted.start w [] 80 {}).2.marks wrapReads = .ok s ∧
      msSinceLastRead (stats s (2 ^ 32 + 40)) = 39 := by
  intro w
  obtain ⟨s, hmarks, -, hlast⟩ := since_last_read (w := w) (by decide) (by decide) [] 80 {}
    wrapReads wrapReads_recent
  exact ⟨s, hmarks, (hlast _ rfl).1⟩

/-! ### The columns -/

variable {n cols x : Nat}

/-- The buckets of a column of the strip. -/
def columnRange (n cols x : Nat) : List Nat :=
  let b0 := x * n / cols
  (List.range (max (b0 + 1) ((x + 1) * n / cols) - b0)).map fun k => b0 + k

/-- Without a cap, since there is a bucket behind the first of every column. -/
theorem columnBuckets_eq (hn : 0 < n) (hx : x < cols) (hfits : cols * n < 2 ^ 31) :
    columnBuckets n cols x =
        .ok (x * n / cols, max (x * n / cols + 1) ((x + 1) * n / cols)) ∧
      x * n / cols < n ∧ (x + 1) * n / cols ≤ n := by
  have hcols : 0 < cols := by omega
  have hfirst : x * n / cols < n := by
    rw [Nat.div_lt_iff_lt_mul hcols, Nat.mul_comm n]
    exact Nat.mul_lt_mul_of_pos_right hx hn
  have hlast : (x + 1) * n / cols ≤ n := by
    apply Nat.div_le_of_le_mul
    exact Nat.mul_le_mul_right n hx
  have hx0 : x * n < 2 ^ 31 := by
    have := Nat.mul_le_mul_right n (Nat.le_of_lt hx)
    omega
  have hx1 : (x + 1) * n < 2 ^ 31 := by
    have := Nat.mul_le_mul_right n (show x + 1 ≤ cols from hx)
    omega
  refine ⟨?_, hfirst, hlast⟩
  rw [columnBuckets, intMul, if_pos hx0, intMul, if_pos hx1]
  simp only [ok_bind, Except.ok.injEq, Prod.mk.injEq, true_and]
  split <;> split <;> omega

/-- **Every bucket has a column.** -/
theorem mem_columnRange (hcols : 0 < cols) {i : Nat} (hi : i < n) :
    ∃ x < cols, i ∈ columnRange n cols x := by
  have hn : 0 < n := by omega
  -- The last column that does not start behind the bucket.
  have hmod := Nat.mod_add_div ((i + 1) * cols - 1) n
  have hrest := Nat.mod_lt ((i + 1) * cols - 1) hn
  generalize hx : ((i + 1) * cols - 1) / n = x at hmod
  have hmul : (x + 1) * n = n * x + n := by rw [Nat.add_mul, Nat.one_mul, Nat.mul_comm]
  have htop : (i + 1) * cols ≤ n * cols := Nat.mul_le_mul_right cols hi
  have hlow : 0 < (i + 1) * cols := Nat.mul_pos (Nat.succ_pos i) hcols
  have hlt : x < cols := by
    apply Nat.lt_of_mul_lt_mul_left (a := n)
    omega
  have hfirst : x * n / cols < i + 1 := by
    rw [Nat.div_lt_iff_lt_mul hcols, Nat.mul_comm x]
    omega
  have hlast : i + 1 ≤ (x + 1) * n / cols := by
    rw [Nat.le_div_iff_mul_le hcols]
    omega
  refine ⟨x, hlt, ?_⟩
  refine List.mem_map.mpr ⟨i - x * n / cols, List.mem_range.mpr ?_, ?_⟩
  · show i - x * n / cols < max (x * n / cols + 1) ((x + 1) * n / cols) - x * n / cols
    omega
  · show x * n / cols + (i - x * n / cols) = i
    omega

/-- A column looks at the stamps of its buckets. -/
theorem column_eq (s : Counted) (now : Int) (hx : x < cols) (hfits : cols < 2 ^ 22) :
    column (stats s now) cols x = .ok
      (let newest := Serial.newest ((columnRange kMapBuckets cols x).map fun i => look 0 s.map i)
      if newest = 0 then none else some (faded (nowMs now - newest).toNat)) := by
  have hlength : s.map.toList.length = kMapBuckets := Vector.length_toList
  obtain ⟨hbuckets, hfirst, hlast⟩ := columnBuckets_eq (n := kMapBuckets) (by decide) hx
    (by rw [kMapBuckets]; omega)
  have hrange : (s.map.toList.drop (x * kMapBuckets / cols)).take
      (max (x * kMapBuckets / cols + 1) ((x + 1) * kMapBuckets / cols) - x * kMapBuckets / cols) =
      (columnRange kMapBuckets cols x).map fun i => look 0 s.map i := by
    rw [columnRange]
    apply List.ext_getElem
    · simp only [List.length_take, List.length_drop, hlength, List.length_map, List.length_range]
      omega
    · intro k hk _
      have hk : x * kMapBuckets / cols + k < kMapBuckets := by
        simp only [List.length_take, List.length_drop, hlength] at hk
        omega
      simp [look, hk]
  rw [column, stats, hlength, hbuckets, ok_bind]
  simp only [hrange]

/-- **What the strip shows.**  After `start` and any reads, in the order of the clock: each column
that is drawn shows how far the last read in its part of the image has faded, and is dark if
there was none, and the percentage is that of the buckets that some read touched.  Every read is
in some column, however many there are; and there are none if the space is too small. -/
theorem strip_shows {w : World} (hpos : 0 < w.fileSize) (hsize : w.fileSize < 2 ^ 54)
    (iso : List UInt8) (port : UInt16) (before : Counted) (reads : List (Read w.fileSize))
    {now : Int} (h : Recent now reads) {width : Int} (hwidth : width < 2 ^ 22) (height : Int) :
    ∃ s, (before.start w iso port).2.marks reads = .ok s ∧
      drawReadMap (stats s now) width height = .ok
        (if width < 16 ∨ height < 2 then none
        else some
          { columns := (List.range width.toNat).map fun x =>
              (lastRead reads (columnRange kMapBuckets width.toNat x)).map fun r =>
                faded (ageOf now r).toNat
            percent := roundEven (100 * ((List.range kMapBuckets).filter fun i =>
              reads.any fun r => r.Touches i).length) kMapBuckets }) ∧
      (0 < width → ∀ r ∈ reads, ∃ x < width.toNat, ∃ i ∈ columnRange kMapBuckets width.toNat x,
        r.Touches i) := by
  obtain ⟨s, hmarks, hs, hlook⟩ := marks_start (Int.le_of_lt hpos) hsize iso port before reads
  refine ⟨s, hmarks, ?_, fun hwidth0 r _ => ?_⟩
  · have hlength : s.map.toList.length = kMapBuckets := Vector.length_toList
    have hcovered : covered (stats s now) =
        ((List.range kMapBuckets).filter fun i => reads.any fun r => r.Touches i).length := by
      show s.map.toList.countP (· ≠ 0) = _
      rw [toList_map, List.countP_map, List.countP_eq_length_filter]
      refine congrArg List.length (List.filter_congr fun i _ => ?_)
      rw [Function.comp_apply, Bool.eq_iff_iff, decide_eq_true_eq, hlook, stamp_ne_zero]
      simp
    have hcolumn : ∀ x ∈ List.range width.toNat, column (stats s now) width.toNat x = .ok
        ((lastRead reads (columnRange kMapBuckets width.toNat x)).map fun r =>
          faded (ageOf now r).toNat) := by
      intro x hx
      rw [column_eq s now (List.mem_range.mp hx) (by omega), newest_buckets h hlook]
      cases hr : lastRead reads (columnRange kMapBuckets width.toNat x) with
      | none => rfl
      | some r =>
          simp only [Option.map_some, Option.getD_some, if_neg (nowMs_ne_zero r.t)]
          rw [← age_eq h (lastRead_mem hr).1, Int.toNat_natCast]
    unfold drawReadMap
    rw [if_neg (not_or.mpr ⟨?_, ?_⟩), mapM_ok hcolumn, hcovered, Nat.mul_comm]
    · show (if width < 16 ∨ height < 2 then _ else _) = _
      rw [show (stats s now).map.length = kMapBuckets from hlength, ok_bind]
      split <;> rfl
    · exact List.ne_nil_of_length_pos (by rw [stats, hlength]; decide)
    · show ¬ s.server.size ≤ 0
      omega
  · obtain ⟨i, hi, htouch⟩ := touches_first r
    obtain ⟨x, hx, hmem⟩ : ∃ x < width.toNat, i ∈ columnRange kMapBuckets width.toNat x :=
      mem_columnRange (by omega) hi
    exact ⟨x, hx, i, hmem, htouch⟩

/-- On 16 columns, the first shows the read at the start and the last that at the end. -/
theorem strip_shows_wrap :
    let w : World := ⟨fun _ => .error [], 300000, true, []⟩
    ∃ s, (Counted.start w [] 80 {}).2.marks wrapReads = .ok s ∧
      drawReadMap (stats s (2 ^ 32 + 40)) 16 20 =
        .ok (some ⟨some 45 :: List.replicate 14 none ++ [some 39], 1⟩) := by
  intro w
  obtain ⟨s, hmarks, hshows, -⟩ := strip_shows (w := w) (by decide) (by decide) [] 80 {}
    wrapReads wrapReads_recent (show (16 : Int) < 2 ^ 22 by decide) 20
  refine ⟨s, hmarks, hshows.trans ?_⟩
  decide +kernel

end Ilo2.Ui
