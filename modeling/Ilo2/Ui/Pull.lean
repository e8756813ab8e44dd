import Ilo2.Dvc.Events
import Ilo2.Lib.Runs
import Ilo2.Ui.Framebuffer

/-!
# Pulling the framebuffer

`ConsoleCore::pull` copies the marked tiles into the buffer of the front end and reports
them as rectangles, one for each run of neighbours in a row of tiles.
-/

namespace Ilo2.Ui

open Dvc Checked

structure Rect where
  x : Nat := 0
  y : Nat := 0
  w : Nat := 0
  h : Nat := 0
deriving DecidableEq

/-- What the caller of `pull` keeps between two calls. -/
structure Front where
  dest : List Nat := []
  w : Nat := 0
  h : Nat := 0
  dirty : List Rect := []
deriving DecidableEq

/-- `memcpy` of `n` pixels from index `off` of `src` to index `off` of `dest`. -/
def copyRow (src : List Nat) (n : Nat) (dest : List Nat) (off : Nat) : List Nat :=
  dest.take off ++ (src.drop off).take n ++ dest.drop (off + n)

/-- The rectangle of a run of tiles, clipped to the screen. -/
def runRect (t : TrackingFramebuffer) (ty : Nat) (run : Nat × Nat) : Rect :=
  let x := run.1 * TILE
  let y := ty * TILE
  let rw := (run.2 - run.1) * TILE
  let rh := TILE
  ⟨x, y, if x + rw > t.fb.fbW then t.fb.fbW - x else rw,
    if y + rh > t.fb.fbH then t.fb.fbH - y else rh⟩

/-- The rows of a rectangle, copied from the framebuffer. -/
def copyRect (t : TrackingFramebuffer) (dest : List Nat) (r : Rect) : List Nat :=
  (List.range r.h).foldl
    (fun dest i => copyRow t.fb.pixels r.w dest ((r.y + i) * t.fb.fbW + r.x)) dest

/-- `emit_run` -/
def emitRun (t : TrackingFramebuffer) (ty : Nat) (out : List Nat × List Rect) (run : Nat × Nat) :
    List Nat × List Rect :=
  let r := runRect t ty run
  if r.w = 0 ∨ r.h = 0 then out else (copyRect t out.1 r, out.2 ++ [r])

/-- Tile `tx` of row `ty` is marked; the loop runs one tile past the row. -/
def marked (t : TrackingFramebuffer) (ty tx : Nat) : Bool :=
  tx < t.tilesX && t.tileDirty.getD (ty * t.tilesX + tx) false

/-- The inner loop of `pull`: each run of marked tiles of a row is emitted where it ends. -/
def pullRow (t : TrackingFramebuffer) (out : List Nat × List Rect) (ty : Nat) :
    List Nat × List Rect :=
  (Runs.scan (marked t ty) (t.tilesX + 1) 0 none).foldl (emitRun t ty) out

/-- `pull` -/
def pull (t : TrackingFramebuffer) (f : Front) : Bool × TrackingFramebuffer × Front :=
  if t.fb.pixels = [] then (false, t, f)
  else if f.dest.length ≠ t.fb.pixels.length then
    (true, t.clearDirty, ⟨t.fb.pixels, t.fb.fbW, t.fb.fbH, [⟨0, 0, t.fb.fbW, t.fb.fbH⟩]⟩)
  else
    let out := (List.range t.tilesY).foldl (pullRow t) (f.dest, [])
    (out.2 ≠ [], t.clearDirty, ⟨out.1, t.fb.fbW, t.fb.fbH, out.2⟩)

/-! ### Rectangles -/

/-- The pixel in column `x` and row `y` is in the rectangle. -/
def Rect.Has (r : Rect) (x y : Nat) : Prop := r.x ≤ x ∧ x < r.x + r.w ∧ r.y ≤ y ∧ y < r.y + r.h

/-- Not empty and inside a screen of `w` by `h`. -/
structure Rect.Inside (r : Rect) (w h : Nat) : Prop where
  width : 0 < r.w
  height : 0 < r.h
  right : r.x + r.w ≤ w
  bottom : r.y + r.h ≤ h

/-- No pixel is in both. -/
def Rect.Apart (r s : Rect) : Prop := ∀ x y, ¬ (r.Has x y ∧ s.Has x y)

theorem length_copyRow {src dest : List Nat} {n off : Nat} (hlen : dest.length = src.length)
    (h : off + n ≤ src.length) : (copyRow src n dest off).length = src.length := by
  simp only [copyRow, List.length_append, List.length_take, List.length_drop]
  omega

theorem getElem?_copyRow {src dest : List Nat} {n off j : Nat} (hlen : dest.length = src.length)
    (h : off + n ≤ src.length) :
    (copyRow src n dest off)[j]? = if off ≤ j ∧ j < off + n then src[j]? else dest[j]? := by
  unfold copyRow
  rw [List.append_assoc, List.getElem?_append]
  have htake : (dest.take off).length = off := by rw [List.length_take]; omega
  have hmid : ((src.drop off).take n).length = n := by
    rw [List.length_take, List.length_drop]
    omega
  rw [htake]
  split
  · rename_i hj
    rw [if_neg (by omega), List.getElem?_take, if_pos hj]
  · rename_i hj
    rw [List.getElem?_append, hmid]
    split
    · rename_i hj'
      rw [if_pos (by omega), List.getElem?_take, if_pos hj', List.getElem?_drop]
      congr 1
      omega
    · rename_i hj'
      rw [if_neg (by omega), List.getElem?_drop]
      congr 1
      omega

/-- The pixels of a row of a rectangle. -/
theorem row_iff {w x n i j : Nat} (h : x + n ≤ w) (hn : 0 < n) :
    i * w + x ≤ j ∧ j < i * w + x + n ↔ j / w = i ∧ x ≤ j % w ∧ j % w < x + n := by
  have hw : 0 < w := by omega
  have hdm := Nat.div_add_mod j w
  constructor
  · rintro ⟨h1, h2⟩
    have hdiv : j / w = i := by
      apply Nat.div_eq_of_lt_le
      · omega
      · rw [Nat.succ_mul]
        omega
    rw [hdiv, Nat.mul_comm] at hdm
    exact ⟨hdiv, by omega, by omega⟩
  · rintro ⟨rfl, h1, h2⟩
    rw [Nat.mul_comm] at hdm
    omega

/-- **A copied rectangle** holds the framebuffer's pixels; the others are as they were. -/
theorem copyRect_spec {t : TrackingFramebuffer} (hs : t.Sized) {r : Rect}
    (hr : r.Inside t.fb.fbW t.fb.fbH) {dest : List Nat}
    (hlen : dest.length = t.fb.pixels.length) :
    (copyRect t dest r).length = t.fb.pixels.length ∧
      ∀ j, (r.Has (j % t.fb.fbW) (j / t.fb.fbW) → (copyRect t dest r)[j]? = t.fb.pixels[j]?) ∧
        (¬ r.Has (j % t.fb.fbW) (j / t.fb.fbW) → (copyRect t dest r)[j]? = dest[j]?) := by
  have hoff : ∀ i < r.h, (r.y + i) * t.fb.fbW + r.x + r.w ≤ t.fb.pixels.length := by
    intro i hi
    rw [hs.pixels]
    have hright := hr.right
    have hbottom := hr.bottom
    calc (r.y + i) * t.fb.fbW + r.x + r.w ≤ (r.y + i) * t.fb.fbW + t.fb.fbW := by omega
      _ = (r.y + i + 1) * t.fb.fbW := (Nat.succ_mul _ _).symm
      _ ≤ t.fb.fbH * t.fb.fbW := Nat.mul_le_mul_right _ (by omega)
      _ = t.fb.fbW * t.fb.fbH := Nat.mul_comm _ _
  have aux : ∀ k ≤ r.h, ∀ d, d = (List.range k).foldl
      (fun dest i => copyRow t.fb.pixels r.w dest ((r.y + i) * t.fb.fbW + r.x)) dest →
      d.length = t.fb.pixels.length ∧ ∀ j, d[j]? =
        if r.x ≤ j % t.fb.fbW ∧ j % t.fb.fbW < r.x + r.w ∧ r.y ≤ j / t.fb.fbW ∧
          j / t.fb.fbW < r.y + k then t.fb.pixels[j]? else dest[j]? := by
    intro k
    induction k with
    | zero =>
        rintro - d rfl
        exact ⟨hlen, fun j => by rw [if_neg (by omega)]⟩
    | succ k ih =>
        rintro hk d rfl
        obtain ⟨ihlen, ihget⟩ := ih (by omega) _ rfl
        rw [List.range_succ, List.foldl_append, List.foldl_cons, List.foldl_nil]
        refine ⟨length_copyRow ihlen (hoff k (by omega)), fun j => ?_⟩
        rw [getElem?_copyRow ihlen (hoff k (by omega)), ihget j]
        simp only [row_iff hr.right hr.width]
        split_ifs <;> first | rfl | omega
  obtain ⟨h1, h2⟩ := aux r.h (Nat.le_refl _) _ rfl
  refine ⟨h1, fun j => ⟨fun hj => (h2 j).trans (if_pos hj), fun hj => (h2 j).trans (if_neg hj)⟩⟩

/-! ### The rectangles of a pull -/

/-- What a pull reports, if it does not report the whole screen. -/
def rects (t : TrackingFramebuffer) : List Rect :=
  (List.range t.tilesY).flatMap fun ty =>
    (Runs.scan (marked t ty) (t.tilesX + 1) 0 none).map (runRect t ty)

theorem marked_past (t : TrackingFramebuffer) (ty : Nat) : marked t ty (0 + t.tilesX) = false := by
  unfold marked
  rw [Nat.zero_add, decide_eq_false (Nat.lt_irrefl _), Bool.false_and]

/-- The rectangle of a run: its columns and rows, in tiles. -/
theorem runRect_inside {t : TrackingFramebuffer} (hs : t.Sized) {ty : Nat} (hty : ty < t.tilesY)
    {run : Nat × Nat} (hrun : run.1 < run.2) (hend : run.2 ≤ t.tilesX) :
    (runRect t ty run).Inside t.fb.fbW t.fb.fbH ∧
      (runRect t ty run).x = run.1 * TILE ∧ (runRect t ty run).y = ty * TILE ∧
      (runRect t ty run).x + (runRect t ty run).w ≤ run.2 * TILE ∧
      (runRect t ty run).y + (runRect t ty run).h ≤ (ty + 1) * TILE ∧
      ∀ x y, x < t.fb.fbW → y < t.fb.fbH → run.1 ≤ x / TILE → x / TILE < run.2 → y / TILE = ty →
        (runRect t ty run).Has x y := by
  have hx := hs.tilesX
  have hy := hs.tilesY
  unfold runRect Rect.Has
  unfold TILE at *
  dsimp only
  refine ⟨⟨?_, ?_, ?_, ?_⟩, rfl, rfl, ?_, ?_, fun x y hxw hyh h1 h2 h3 => ?_⟩
  all_goals try dsimp only
  all_goals split_ifs
  all_goals omega

theorem mem_rects {t : TrackingFramebuffer} {r : Rect} (h : r ∈ rects t) :
    ∃ ty run, ty < t.tilesY ∧ run.1 < run.2 ∧ run.2 ≤ t.tilesX ∧ r = runRect t ty run := by
  obtain ⟨ty, hty, hr⟩ := List.mem_flatMap.mp h
  obtain ⟨run, hrun, rfl⟩ := List.mem_map.mp hr
  obtain ⟨-, hlt, hend, -⟩ := Runs.scan_true (Runs.Open.none _) run hrun
  exact ⟨ty, run, List.mem_range.mp hty, hlt, by omega, rfl⟩

theorem rects_inside {t : TrackingFramebuffer} (hs : t.Sized) :
    ∀ r ∈ rects t, r.Inside t.fb.fbW t.fb.fbH := by
  intro r hr
  obtain ⟨ty, run, hty, hrun, hend, rfl⟩ := mem_rects hr
  exact (runRect_inside hs hty hrun hend).1

/-- **No two rectangles meet**: runs of one row come one after the other, and two rows
have no pixel row in common. -/
theorem rects_apart {t : TrackingFramebuffer} (hs : t.Sized) : (rects t).Pairwise Rect.Apart := by
  unfold rects
  rw [List.pairwise_flatMap]
  constructor
  · intro ty hty
    rw [List.pairwise_map]
    refine (Runs.scan_pairwise (Runs.Open.none _)).imp_of_mem ?_
    intro a b ha hb hab x y
    rintro ⟨h1, h2⟩
    obtain ⟨-, hlta, henda, -⟩ := Runs.scan_true (Runs.Open.none _) a ha
    obtain ⟨-, hltb, hendb, -⟩ := Runs.scan_true (Runs.Open.none _) b hb
    have hty := List.mem_range.mp hty
    obtain ⟨-, -, -, hra, -⟩ := runRect_inside hs hty hlta (by omega)
    obtain ⟨-, hlb, -⟩ := runRect_inside hs hty hltb (by omega)
    have := Nat.mul_le_mul_right TILE hab
    unfold Rect.Has at h1 h2
    omega
  · refine List.pairwise_lt_range.imp_of_mem ?_
    intro ty ty' hty hty' hlt r hr r' hr' x y
    rintro ⟨h1, h2⟩
    obtain ⟨a, ha, rfl⟩ := List.mem_map.mp hr
    obtain ⟨b, hb, rfl⟩ := List.mem_map.mp hr'
    obtain ⟨-, hlta, henda, -⟩ := Runs.scan_true (Runs.Open.none _) a ha
    obtain ⟨-, hltb, hendb, -⟩ := Runs.scan_true (Runs.Open.none _) b hb
    obtain ⟨-, -, -, -, hba, -⟩ :=
      runRect_inside hs (List.mem_range.mp hty) hlta (by omega)
    obtain ⟨-, -, htb, -⟩ := runRect_inside hs (List.mem_range.mp hty') hltb (by omega)
    have := Nat.mul_le_mul_right TILE (show ty + 1 ≤ ty' by omega)
    unfold Rect.Has at h1 h2
    omega

/-- **Every marked tile is in a rectangle.** -/
theorem rects_cover {t : TrackingFramebuffer} (hs : t.Sized) {x y : Nat} (hx : x < t.fb.fbW)
    (hy : y < t.fb.fbH) (hd : t.tileDirty[y / TILE * t.tilesX + x / TILE]? = some true) :
    ∃ r ∈ rects t, r.Has x y := by
  have htx : x / TILE < t.tilesX := by rw [hs.tilesX]; unfold TILE; omega
  have hty : y / TILE < t.tilesY := by rw [hs.tilesY]; unfold TILE; omega
  have hmark : marked t (y / TILE) (x / TILE) = true := by
    unfold marked
    rw [decide_eq_true htx, Bool.true_and, List.getD_eq_getElem?_getD, hd]
    rfl
  obtain ⟨run, hrun, h1, h2⟩ := Runs.scan_covers (Runs.Open.none 0)
    (marked_past t (y / TILE)) (x / TILE) (Nat.zero_le _) (by omega) hmark
  obtain ⟨-, hlt, hend, -⟩ := Runs.scan_true (Runs.Open.none _) run hrun
  obtain ⟨-, -, -, -, -, hhas⟩ := runRect_inside hs hty hlt (by omega)
  exact ⟨runRect t (y / TILE) run, List.mem_flatMap.mpr ⟨y / TILE, List.mem_range.mpr hty,
    List.mem_map_of_mem hrun⟩, hhas x y hx hy h1 h2 rfl⟩

/-! ### A pull -/

/-- The rectangles of a pull, copied one after the other. -/
theorem copyRects_spec {t : TrackingFramebuffer} (hs : t.Sized) :
    ∀ (rs : List Rect) (dest : List Nat), (∀ r ∈ rs, r.Inside t.fb.fbW t.fb.fbH) →
      dest.length = t.fb.pixels.length →
      (rs.foldl (copyRect t) dest).length = t.fb.pixels.length ∧
        ∀ j, ((∃ r ∈ rs, r.Has (j % t.fb.fbW) (j / t.fb.fbW)) ∨ dest[j]? = t.fb.pixels[j]? →
          (rs.foldl (copyRect t) dest)[j]? = t.fb.pixels[j]?) := by
  intro rs
  induction rs with
  | nil =>
      intro dest _ hlen
      refine ⟨hlen, fun j hj => ?_⟩
      rcases hj with ⟨r, hr, -⟩ | hj
      · cases hr
      · exact hj
  | cons r rs ih =>
      intro dest hin hlen
      obtain ⟨hlen', hget⟩ := copyRect_spec hs (hin r List.mem_cons_self) hlen
      obtain ⟨h1, h2⟩ := ih (copyRect t dest r) (fun s hs => hin s (List.mem_cons_of_mem _ hs)) hlen'
      refine ⟨h1, fun j hj => h2 j ?_⟩
      by_cases hhas : r.Has (j % t.fb.fbW) (j / t.fb.fbW)
      · exact Or.inr ((hget j).1 hhas)
      · rcases hj with ⟨s, hs, hsh⟩ | hj
        · rcases List.mem_cons.mp hs with rfl | hs
          · exact absurd hsh hhas
          · exact Or.inl ⟨s, hs, hsh⟩
        · exact Or.inr (((hget j).2 hhas).trans hj)

theorem emitRun_eq {t : TrackingFramebuffer} (hs : t.Sized) {ty : Nat} (hty : ty < t.tilesY)
    (runs : List (Nat × Nat)) (h : ∀ run ∈ runs, run.1 < run.2 ∧ run.2 ≤ t.tilesX)
    (out : List Nat × List Rect) : runs.foldl (emitRun t ty) out =
      ((runs.map (runRect t ty)).foldl (copyRect t) out.1, out.2 ++ runs.map (runRect t ty)) := by
  induction runs generalizing out with
  | nil => simp
  | cons run runs ih =>
      obtain ⟨hlt, hend⟩ := h run List.mem_cons_self
      have hin := (runRect_inside hs hty hlt hend).1
      have hw := hin.width
      have hh := hin.height
      rw [List.foldl_cons, ih fun r hr => h r (List.mem_cons_of_mem _ hr)]
      rw [emitRun, if_neg (by omega)]
      simp

/-- The two loops of `pull` copy and report `rects`. -/
theorem pullRows_eq {t : TrackingFramebuffer} (hs : t.Sized) (dest : List Nat) :
    (List.range t.tilesY).foldl (pullRow t) (dest, []) =
      ((rects t).foldl (copyRect t) dest, rects t) := by
  have aux : ∀ tys : List Nat, (∀ ty ∈ tys, ty < t.tilesY) → ∀ out : List Nat × List Rect,
      tys.foldl (pullRow t) out =
        ((tys.flatMap fun ty => (Runs.scan (marked t ty) (t.tilesX + 1) 0 none).map
            (runRect t ty)).foldl (copyRect t) out.1,
          out.2 ++ tys.flatMap fun ty => (Runs.scan (marked t ty) (t.tilesX + 1) 0 none).map
            (runRect t ty)) := by
    intro tys
    induction tys with
    | nil => intro _ out; simp
    | cons ty tys ih =>
        intro h out
        have hruns : ∀ run ∈ Runs.scan (marked t ty) (t.tilesX + 1) 0 none,
            run.1 < run.2 ∧ run.2 ≤ t.tilesX := by
          intro run hrun
          obtain ⟨-, hlt, hend, -⟩ := Runs.scan_true (Runs.Open.none _) run hrun
          exact ⟨hlt, by omega⟩
        rw [List.foldl_cons, ih fun i hi => h i (List.mem_cons_of_mem _ hi), pullRow,
          emitRun_eq hs (h ty List.mem_cons_self) _ hruns]
        simp [List.foldl_append]
  have := aux (List.range t.tilesY) (fun ty hty => List.mem_range.mp hty) (dest, [])
  rw [this]
  rfl

end Ilo2.Ui
