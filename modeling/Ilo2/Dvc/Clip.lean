import Ilo2.Dvc.Tile

/-!
# The last row of tiles

A screen whose height is not a multiple of 16 ends in a row of tiles of which only the first
`r` pixel rows are visible.  A tile that is completed there is filled from `y_clipped` on,
and `y_clipped` is 256 - 16 `r`: the fill covers the last `r` rows, not the rows behind the
first `r`.

* `clip_iff` - **when the visible rows are what was decoded**: for `r` up to 8, or where the
  rows that are lost have the colour of the fill.
* `clip_hides` - a tile of a screen of 1680x1050 loses visible rows.
-/

namespace Ilo2.Dvc

open Checked

/-- The height in tiles and the rows of the last, partial row of tiles, as the last mode
command has set them. -/
def nextMode (m : Option (Nat × Nat)) (t : Step) : Option (Nat × Nat) :=
  if t.state = 47 then some (t.read.sizeY, t.read.bits.code) else m

def mode (ts : List Step) : Option (Nat × Nat) := ts.foldl nextMode none

theorem mode_concat (ts : List Step) (t : Step) : mode (ts ++ [t]) = nextMode (mode ts) t := by
  rw [mode, List.foldl_append]
  rfl

namespace DvcDecoder

variable {d d' : DvcDecoder} {s : Nat} {ev : List Event}

/-- Only the mode command sets `y_clipped`. -/
theorem dispatch_yClipped (hp : d.pixelCount ≤ 256) (h : d.dispatch s = .ok (d', ev))
    (h47 : s ≠ 47) : d'.yClipped = d.yClipped := by
  by_cases hs : Places s
  · unfold Places at hs
    rcases hs with rfl | rfl | rfl | rfl | rfl | rfl | rfl | rfl | rfl | rfl | rfl
    all_goals first | contradiction | (cases h; rfl)
  · exact congrArg (fun l => l.2.2.1) (dispatch_layout hp h hs)

theorem getElem_fillClipped (block : Vector Nat 256) (y : Int) {i : Nat} (h : i < 256) :
    (fillClipped block y)[i] = if y ≤ i then dvcColorRemap 0 else block[i] := by
  rw [fillClipped, Vector.getElem_ofFn]
  rfl

/-- What the fill leaves as it was: what stands before `y`, or has the colour of the fill. -/
theorem fillClipped_take (block : Vector Nat 256) (y : Int) {n : Nat} :
    (fillClipped block y).toList.take n = block.toList.take n ↔
      ∀ (i : Nat) (h : i < 256), y ≤ i → i < n → block[i] = dvcColorRemap 0 := by
  have hget (v : Vector Nat 256) {i : Nat} (h : i < 256) (hn : i < n) :
      (v.toList.take n)[i]? = some v[i] := by
    rw [List.getElem?_take_of_lt hn, List.getElem?_eq_getElem (by simpa using h),
      Vector.getElem_toList]
  constructor
  · intro h i hi hy hn
    have heq := congrArg (fun l => l[i]?) h
    rw [hget _ hi hn, hget _ hi hn, getElem_fillClipped _ _ hi, if_pos hy] at heq
    exact (Option.some.inj heq).symm
  · intro h
    apply List.ext_getElem?
    intro i
    by_cases hin : i < 256 ∧ i < n
    · rw [hget _ hin.1 hin.2, hget _ hin.1 hin.2, getElem_fillClipped _ _ hin.1]
      split
      · rename_i hy
        rw [h i hin.1 hy hin.2]
      · rfl
    · rw [List.getElem?_eq_none (by simp; omega), List.getElem?_eq_none (by simp; omega)]

end DvcDecoder

/-! ### The clipping of a run -/

/-- `y_clipped` is what the last mode command made of its rows. -/
def Clips (m : Option (Nat × Nat)) (d : DvcDecoder) : Prop :=
  ∀ h r, m = some (h, r) → d.yClipped = (if r > 0 then 256 - 16 * (r : Int) else 0) ∧ r < 16

variable {ts : List Step} {cfg : Config}

theorem Clips.round {m : Option (Nat × Nat)} {t : Step} (hm : Clips m t.before)
    (hinv : LoopInv t.before) (hw : t.Went) : Clips (nextMode m t) t.after := by
  have hread := hw.read_inv hinv
  have hcomp : t.after.yClipped = t.switched.yClipped := by
    obtain ⟨-, -, c, hcomp, -⟩ | ⟨-, hcomp, -⟩ := DvcDecoder.complete_cases hw.complete
    all_goals
      show t.completed.yClipped = _
      rw [hcomp]
    rfl
  intro h r hr
  rw [hcomp]
  unfold nextMode at hr
  split at hr
  · rename_i h47
    obtain ⟨rfl, rfl⟩ := Prod.mk.inj (Option.some.inj hr)
    have hwidth : width 47 = 4 := by decide
    have hcode : t.read.bits.code < 2 ^ width t.state := hread.code (by rw [h47, hwidth]; decide)
    rw [h47, hwidth] at hcode
    have heq : t.switched = t.read.caseMode.1 := (hw.switched_eq h47 rfl).1
    refine ⟨?_, hcode⟩
    rw [heq]
    unfold DvcDecoder.caseMode
    dsimp only
    split <;> rfl
  · rename_i h47
    rw [DvcDecoder.dispatch_yClipped hread.data.pixels hw.switch h47, hw.read_eq.1]
    exact hm h r hr

theorem Recorded.clips (h : Recorded ts cfg) : Clips (mode ts) cfg.decoder := by
  refine Recorded.rule (fun ts d => Clips (mode ts) d) (fun h r hr => nomatch hr)
    (fun ts d b k hc _ => hc) (fun ts d b hc _ => hc) (fun ts t hc hinv hwent => ?_) h
  rw [mode_concat]
  exact hc.round hinv hwent

/-- The block that a completion on the last row paints. -/
theorem Clips.block {m : Option (Nat × Nat)} {t : Step} {h r : Nat} (hm : Clips m t.before)
    (hinv : LoopInv t.before) (hw : t.Went) (hc : t.Completes) (hmode : m = some (h, r))
    (hr : 1 ≤ r) (hlast : t.before.lasty = t.before.sizeY) :
    t.completed.block = DvcDecoder.fillClipped t.switched.block (256 - 16 * (r : Int)) := by
  obtain ⟨hclip, hr16⟩ := hm h r hmode
  rw [if_pos (show r > 0 from hr)] at hclip
  have hlayout := hw.layout_of_completes hinv hc
  have hclip' : t.switched.yClipped = 256 - 16 * (r : Int) :=
    (congrArg (fun l => l.2.2.1) hlayout).trans hclip
  have hlast' : t.switched.lasty = t.switched.sizeY := by
    have hy : t.switched.lasty = t.before.lasty := congrArg (fun l => l.1.2.1) hlayout
    have hsize : t.switched.sizeY = t.before.sizeY := congrArg (fun l => l.2.1.2) hlayout
    rw [hy, hsize, hlast]
  rw [hw.completed_block hc, if_pos ⟨by omega, hlast'⟩, hclip']

/-- **A completion on the last row.** -/
theorem Clips.rows_iff {g : History} {m : Option (Nat × Nat)} {t : Step} {h r : Nat}
    (hg : Pending g t.before) (hm : Clips m t.before) (hinv : LoopInv t.before) (hw : t.Went)
    (hc : t.Completes) (hmode : m = some (h, r)) (hr : 1 ≤ r)
    (hlast : t.before.lasty = t.before.sizeY) :
    (∀ b x y len, .paste b x y len ∈ t.completeHooks →
        b.toList.take (16 * r) = (g.pixels ++ t.appended).take (16 * r)) ↔
      t.before.videoDetected = false ∨ r ≤ 8 ∨ ∀ i, 256 - 16 * r ≤ i → i < 16 * r →
        (g.pixels ++ t.appended)[i]? = some (dvcColorRemap 0) := by
  have hvideo : t.switched.videoDetected = t.before.videoDetected :=
    congrArg (fun l => l.2.2.2) (hw.layout_of_completes hinv hc)
  have hrows := DvcDecoder.fillClipped_take t.switched.block (256 - 16 * (r : Int)) (n := 16 * r)
  rw [← hm.block hinv hw hc hmode hr hlast, hg.whole hinv hw hc] at hrows
  have hr16 := (hm h r hmode).2
  have hget (i : Nat) (hi : i < 256) :
      (g.pixels ++ t.appended)[i]? = some t.switched.block[i] := by
    rw [← hg.whole hinv hw hc, List.getElem?_eq_getElem (by simpa using hi),
      Vector.getElem_toList]
  rw [hw.completeHooks_eq, hvideo]
  cases t.before.videoDetected with
  | false => simp
  | true =>
      rw [if_pos ⟨hc, rfl⟩]
      constructor
      · intro hall
        refine Or.inr (Or.inr fun i hlow hhigh => ?_)
        have hi : i < 256 := by omega
        rw [hget i hi]
        have htake := hrows.mp (hall _ _ _ _ (List.mem_singleton_self _))
        exact congrArg some (htake i hi (by omega) hhigh)
      · intro hrest b x y len hb
        cases List.mem_singleton.mp hb
        refine hrows.mpr fun i hi hlow hhigh => ?_
        rcases hrest with hvid | h8 | hsame
        · cases hvid
        · omega
        · have heq := hsame i (by omega) hhigh
          rw [hget i hi] at heq
          exact Option.some.inj heq

/-- **When the visible rows are what was decoded.**  A tile is completed on the last row of a
screen with `r` rows more than its tiles have. -/
theorem clip_iff (h : Recorded ts cfg) {before after : List Step} {t : Step} {r : Nat}
    (hts : ts = before ++ t :: after) (hc : t.Completes)
    (hmode : mode before = some (t.before.sizeY, r)) (hr : 1 ≤ r)
    (hlast : t.before.lasty = t.before.sizeY) :
    (∀ b x y len, .paste b x y len ∈ t.completeHooks →
        b.toList.take (16 * r) = ((history before).pixels ++ t.appended).take (16 * r)) ↔
      t.before.videoDetected = false ∨ r ≤ 8 ∨ ∀ i, 256 - 16 * r ≤ i → i < 16 * r →
        ((history before).pixels ++ t.appended)[i]? = some (dvcColorRemap 0) := by
  subst hts
  obtain ⟨hbefore, hwent⟩ := h.split
  have hpend : Pending (history before) t.before := hbefore.pending
  have hclips : Clips (mode before) t.before := hbefore.clips
  exact hclips.rows_iff hpend hbefore.inv hwent hc hmode hr hlast

/-- A screen of 1680x1050, and a tile of one colour on its last row, of which 10 rows are
visible. -/
def lastRow : List Action :=
  Action.byteRounds 0xCD 8 ++ Action.byteRounds 0x32 2 ++ Action.byteRounds 0x58 3 ++
    Action.byteRounds 0x03 3 ++ Action.byteRounds 0x82 3 ++ Action.byteRounds 0xF0 6 ++
    Action.byteRounds 0xFF 4 ++ Action.byteRounds 0x1F 1

/-- The run that `lastRow` is. -/
theorem recorded_lastRow : ∃ before t cfg, Recorded (before ++ [t]) cfg ∧ t.Completes ∧
    mode before = some (t.before.sizeY, 10) ∧ t.before.lasty = t.before.sizeY ∧
    t.before.videoDetected = true ∧
    ((history before).pixels ++ t.appended)[96]? ≠ some (dvcColorRemap 0) := by
  have hexec : (recorder.exec (fun _ _ => True) recorder.start lastRow).map (fun r =>
      r.2.getLast?.map fun t => decide (t.Completes ∧
        mode r.2.dropLast = some (t.before.sizeY, 10) ∧ t.before.lasty = t.before.sizeY ∧
        t.before.videoDetected = true ∧
        ((history r.2.dropLast).pixels ++ t.appended)[96]? ≠ some (dvcColorRemap 0))) =
      some (some true) := by decide +kernel
  obtain ⟨⟨cfg, ts⟩, hts, hlast⟩ := Option.map_eq_some_iff.mp hexec
  obtain ⟨t, ht, hc⟩ := Option.map_eq_some_iff.mp hlast
  obtain ⟨before, rfl⟩ := List.getLast?_eq_some_iff.mp ht
  have hfacts := of_decide_eq_true hc
  rw [List.dropLast_concat] at hfacts
  exact ⟨before, t, cfg, Machine.run_of_exec hts, hfacts⟩

theorem clip_iff_lastRow : ∃ (before : List Step) (t : Step) (cfg : Config),
    Recorded (before ++ [t]) cfg ∧
    ((∀ b x y len, .paste b x y len ∈ t.completeHooks →
        b.toList.take (16 * 10) = ((history before).pixels ++ t.appended).take (16 * 10)) ↔
      t.before.videoDetected = false ∨ 10 ≤ 8 ∨ ∀ i, 256 - 16 * 10 ≤ i → i < 16 * 10 →
        ((history before).pixels ++ t.appended)[i]? = some (dvcColorRemap 0)) := by
  obtain ⟨before, t, cfg, hrec, hc, hmode, hlast, -, -⟩ := recorded_lastRow
  exact ⟨before, t, cfg, hrec, clip_iff hrec rfl hc hmode (by decide) hlast⟩

/-- **Visible rows are lost**: row 6 of the tile of `lastRow`. -/
theorem clip_hides : ¬ ∀ (ts : List Step) (cfg : Config), Recorded ts cfg →
    ∀ before t after r, ts = before ++ t :: after → t.Completes →
      mode before = some (t.before.sizeY, r) → 1 ≤ r → t.before.lasty = t.before.sizeY →
      ∀ b x y len, .paste b x y len ∈ t.completeHooks →
        b.toList.take (16 * r) = ((history before).pixels ++ t.appended).take (16 * r) := by
  intro hall
  obtain ⟨before, t, cfg, hrec, hc, hmode, hlast, hvideo, hcolor⟩ := recorded_lastRow
  obtain ⟨hbefore, hwent⟩ := hrec.split
  have hpend : Pending (history before) t.before := hbefore.pending
  have hclips : Clips (mode before) t.before := hbefore.clips
  have hrows := (hclips.rows_iff hpend hbefore.inv hwent hc hmode (by decide) hlast).mp
    (hall _ cfg hrec before t [] 10 rfl hc hmode (by decide) hlast)
  rcases hrows with hno | h8 | hsame
  · rw [hvideo] at hno
    cases hno
  · omega
  · exact hcolor (hsame 96 (by decide) (by decide))

end Ilo2.Dvc
