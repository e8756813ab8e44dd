import Ilo2.Dvc.Tile

/-!
# The positions of the tiles

`next_block` paints at `lastx` and moves on to the right; it stops at the end of the row and
leaves `lastx` there.  The position commands check what they set, and a mode command or a
reset sets 0, but nothing checks `lastx` when a tile is painted: the first tile behind the
end of the row is still at `16 * size_x`, the second is not.

* `on_grid_iff` - **when every tile is on the grid**: no tile is placed behind another one
  that was placed at the end of its row or behind it, unless the position was set in between.
* `off_grid` - a row of a screen of 1024x768, and two tiles behind it.
-/

namespace Ilo2.Dvc

open Checked

namespace DvcDecoder

variable {d d' : DvcDecoder} {s : Nat} {ev : List Event}

/-! ### The row of one call -/

/-- Where the row ends: at the end of the line, or right behind its first tile. -/
theorem pasteLoop_lastx (paint : Bool) (block : Vector Nat 256) (sizeX y : Nat) (count : Nat) :
    ∀ x lastx, (lastx < sizeX → (pasteLoop paint block sizeX y count x lastx).1 ≤ sizeX) ∧
      (sizeX ≤ lastx → (pasteLoop paint block sizeX y count x lastx).1 =
        if count = 0 then lastx else lastx + 1) := by
  induction count with
  | zero =>
      intro x lastx
      exact ⟨fun h => Nat.le_of_lt h, fun _ => rfl⟩
  | succ count ih =>
      intro x lastx
      unfold pasteLoop
      dsimp only
      split
      · exact ⟨fun h => h, fun _ => rfl⟩
      · rename_i hlt
        obtain ⟨hin, -⟩ := ih (x + 16) (lastx + 1)
        exact ⟨fun h => hin (by omega), fun h => by omega⟩

/-- A row that begins on the grid stays on it. -/
theorem pasteLoop_on_grid (paint : Bool) (block : Vector Nat 256) (sizeX y : Nat) (count : Nat) :
    ∀ lastx, lastx ≤ sizeX → ∀ e ∈ (pasteLoop paint block sizeX y count (lastx * 16) lastx).2,
      ∃ x', e = .paste block x' y 16 ∧ x' ≤ 16 * sizeX := by
  induction count with
  | zero => intro lastx _ e he; cases he
  | succ count ih =>
      intro lastx hx e he
      have hone : e ∈ (if paint then [Event.paste block (lastx * 16) y 16] else []) →
          ∃ x', e = .paste block x' y 16 ∧ x' ≤ 16 * sizeX := by
        intro he
        split at he
        · exact ⟨_, List.mem_singleton.mp he, by omega⟩
        · cases he
      unfold pasteLoop at he
      dsimp only at he
      split at he
      · exact hone he
      · rcases List.mem_append.mp he with he | he
        · exact hone he
        · rw [show lastx * 16 + 16 = (lastx + 1) * 16 by omega] at he
          exact ih (lastx + 1) (by omega) e he

/-- The first tile of a row. -/
theorem pasteLoop_first (block : Vector Nat 256) (sizeX y x lastx : Nat) {count : Nat}
    (h : count ≠ 0) :
    .paste block x y 16 ∈ (pasteLoop true block sizeX y count x lastx).2 := by
  obtain ⟨count, rfl⟩ := Nat.exists_eq_succ_of_ne_zero h
  unfold pasteLoop
  dsimp only
  split
  · exact List.mem_singleton_self _
  · exact List.mem_append_left _ (List.mem_singleton_self _)

/-- Without video there are no tiles. -/
theorem pasteLoop_blank (block : Vector Nat 256) (sizeX y : Nat) (count : Nat) :
    ∀ x lastx, (pasteLoop false block sizeX y count x lastx).2 = [] := by
  induction count with
  | zero => intro x lastx; rfl
  | succ count ih =>
      intro x lastx
      unfold pasteLoop
      dsimp only
      split
      · rfl
      · rw [ih]
        rfl

end DvcDecoder

/-- The hooks of a step paint on the grid of the decoder before it. -/
def OnGrid (d : DvcDecoder) (ev : List Event) : Prop :=
  ∀ b x y len, .paste b x y len ∈ ev → x ≤ 16 * d.sizeX ∧ y ≤ 16 * d.sizeY

namespace DvcDecoder

variable {d d' : DvcDecoder} {s count : Nat} {ev : List Event}

theorem nextBlock_lastx (d : DvcDecoder) (count : Nat) :
    (d.lastx < d.sizeX → (d.nextBlock count).1.lastx ≤ d.sizeX) ∧
      (d.sizeX ≤ d.lastx → (d.nextBlock count).1.lastx =
        if count = 0 then d.lastx else d.lastx + 1) :=
  pasteLoop_lastx _ _ _ _ _ _ _

theorem caseLastx_le (d : DvcDecoder) : d.caseLastx.lastx ≤ d.sizeX := by
  unfold caseLastx
  dsimp only
  split
  · exact Nat.zero_le _
  · rename_i hle
    exact Nat.le_of_not_lt hle

theorem caseNewy_le (d : DvcDecoder) : d.caseNewy.lasty ≤ d.sizeY := by
  unfold caseNewy
  dsimp only
  split
  · exact Nat.zero_le _
  · rename_i hle
    exact Nat.le_of_not_lt hle

/-- **A call of `next_block`** is on the grid, if its first tile is. -/
theorem nextBlock_on_grid (hy : d.lasty ≤ d.sizeY) : OnGrid d (d.nextBlock count).2 ↔
    ¬ (d.sizeX < d.lastx ∧ count ≠ 0 ∧ d.videoDetected = true) := by
  constructor
  · rintro hgrid ⟨hx, hcount, hvideo⟩
    have hfirst := pasteLoop_first (d.nextBlock count).1.block d.sizeX (d.lasty * 16)
      (d.lastx * 16) d.lastx hcount
    rw [← hvideo] at hfirst
    have hle := (hgrid _ _ _ _ hfirst).1
    omega
  · intro hnot b x y len he
    by_cases hx : d.lastx ≤ d.sizeX
    · obtain ⟨x', heq, hle⟩ := pasteLoop_on_grid _ _ _ _ _ _ hx _ he
      cases heq
      exact ⟨hle, by omega⟩
    · have hnone : (d.nextBlock count).2 = [] := by
        by_cases hcount : count = 0
        · rw [hcount]
          rfl
        · have hvideo : d.videoDetected = false := by
            rw [← Bool.not_eq_true]
            exact fun hv => hnot ⟨by omega, hcount, hv⟩
          unfold nextBlock
          dsimp only
          rw [hvideo]
          exact pasteLoop_blank _ _ _ _ _ _
      rw [hnone] at he
      cases he

/-! ### The other states -/

theorem casePrint_pastes (d : DvcDecoder) : pastes d.casePrint.2 = [] := by
  unfold casePrint
  split
  · rfl
  · dsimp only
    split <;> rfl

theorem caseFatal_pastes (d : DvcDecoder) : pastes d.caseFatal.2 = [] := by
  obtain ⟨n, ev, heq, hrefresh⟩ := d.caseFatal_counts
  rw [heq]
  refine List.filter_eq_nil_iff.mpr ?_
  intro e he
  rw [hrefresh e he]
  decide

theorem caseMode_pastes (d : DvcDecoder) : pastes d.caseMode.2 = [] := by
  unfold caseMode
  dsimp only
  split <;> rfl

theorem caseCommand_pastes (h : d.caseCommand = .ok (d', ev)) : pastes ev = [] := by
  obtain ⟨-, -, rfl⟩ | ⟨-, e, he, -⟩ := caseCommand_cases h
  · rfl
  · cases execCommand_cases he <;> rfl

/-- The `switch` paints in the repeat states alone. -/
theorem dispatch_pastes (h : d.dispatch s = .ok (d', ev)) (hs : isRepeat s = false) :
    pastes ev = [] := by
  unfold dispatch at h
  split at h
  case h_21 =>
    obtain ⟨e, -, h⟩ := bind_eq_ok.mp h
    cases h
    rfl
  case h_23 => exact caseCommand_pastes h
  case h_25 =>
    obtain ⟨-, rfl⟩ := ok_pair h
    exact casePrint_pastes d
  case h_27 =>
    obtain ⟨-, rfl⟩ := ok_pair h
    exact caseFatal_pastes d
  case h_32 =>
    obtain ⟨-, rfl⟩ := ok_pair h
    exact caseMode_pastes d
  case h_28 | h_29 | h_30 => cases hs
  case h_11 | h_12 | h_13 | h_16 | h_17 | h_18 | h_19 | h_20 | h_24 | h_26 | h_31 | h_33 |
      h_34 =>
    cases h
    rfl
  all_goals
    rw [(quiet_eq_ok h).2]
    rfl

/-- The states that only the tables lead to. -/
def Enters (n : Nat) : Prop := n = 0 ∨ n = 39 ∨ n = 43 ∨ n = 47

instance (n : Nat) : Decidable (Enters n) := by
  unfold Enters
  infer_instance

/-- The `switch` leads to one of them if the tables do. -/
def KeepsNext (d d' : DvcDecoder) : Prop :=
  Enters d'.bits.nextState → d'.bits.nextState = d.bits.nextState

theorem KeepsNext.leaves {n : Nat} (hn : ¬ Enters n) (h : d'.bits.nextState = n) :
    KeepsNext d d' := fun he => absurd (h ▸ he) hn

theorem KeepsNext.of_or (h : d'.bits.nextState = d.bits.nextState ∨ d'.bits.nextState = 38) :
    KeepsNext d d' := by
  intro he
  rcases h with h | h
  · exact h
  · exact absurd (h ▸ he) (by decide)

theorem putPixel_next (h : d.putPixel = .ok d') (hp : d.pixelCount ≤ 256) : KeepsNext d d' := by
  obtain ⟨b, p, n, hput, -, -, hn⟩ := putPixel_ok hp
  rw [h] at hput
  cases hput
  exact .of_or hn

theorem emitRun_next {n : Nat} (h : emitRun n d = .ok d') (hp : d.pixelCount ≤ 256) :
    KeepsNext d d' := by
  obtain ⟨b, p, nx, hput, -, -, hn⟩ := emitRun_ok n d hp
  rw [h] at hput
  cases hput
  exact .of_or hn

theorem putColor_next {i : Int} (h : d.putColor i = .ok d') (hp : d.pixelCount ≤ 256) :
    KeepsNext d d' := by
  obtain ⟨c, -, hc⟩ := bind_eq_ok.mp h
  have hput := putPixel_next hc hp
  exact hput

theorem casePalette_next (h : d.casePalette s = .ok d') (hp : d.pixelCount ≤ 256) :
    KeepsNext d d' := by
  obtain ⟨code, -, h⟩ := bind_eq_ok.mp h
  obtain ⟨⟨col, cache⟩, -, h⟩ := bind_eq_ok.mp h
  dsimp only at h
  split at h
  · cases h
    exact .leaves (n := 38) (by decide) rfl
  · have hput := putColor_next h hp
    exact hput

theorem caseRun_next (h : d.caseRun = .ok d') (hp : d.pixelCount ≤ 256) : KeepsNext d d' := by
  unfold caseRun at h
  split at h
  · cases h
    exact .leaves (n := 14) (by decide) rfl
  · split at h
    · cases h
      exact .leaves (n := 13) (by decide) rfl
    · have hrun := emitRun_next h hp
      exact hrun

theorem caseColor_next (h : d.caseColor = .ok d') (hp : d.pixelCount ≤ 256) : KeepsNext d d' := by
  obtain ⟨⟨hit, cache⟩, -, h⟩ := bind_eq_ok.mp h
  dsimp only at h
  split at h
  · cases h
    exact .leaves (n := 38) (by decide) rfl
  · have hput := putColor_next h hp
    exact hput

theorem alignBits_next (h : d.alignBits = .ok d') : d'.bits.nextState = d.bits.nextState := by
  obtain ⟨acc, code, cnt, hal, -⟩ := d.alignBits_ok
  rw [h] at hal
  cases hal
  rfl

theorem caseTimeout_next (h : d.caseTimeout = .ok d') : KeepsNext d d' := by
  obtain ⟨e, he, h⟩ := bind_eq_ok.mp h
  cases h
  have hal := alignBits_next he
  refine .of_or ?_
  show e.bits.nextState = d.bits.nextState ∨ e.bits.nextState = 38
  split at hal
  · exact Or.inr hal
  · exact Or.inl hal

theorem caseCommand_next (h : d.caseCommand = .ok (d', ev)) : KeepsNext d d' := by
  obtain ⟨-, rfl, -⟩ | ⟨-, e, he, rfl⟩ := caseCommand_cases h
  · exact fun _ => rfl
  cases execCommand_cases he with
  | exits => exact .leaves (n := 37) (by decide) rfl
  | prints => exact .leaves (n := 44) (by decide) rfl
  | rekey _ hal =>
      have hnext : e.bits.nextState = d.bits.nextState := alignBits_next hal
      exact fun _ => hnext
  | _ => exact fun _ => rfl

theorem dispatch_next (h : ReadInv d s) (hd : d.dispatch s = .ok (d', ev)) : KeepsNext d d' := by
  have hp := h.data.pixels
  unfold dispatch at hd
  split at hd
  case h_1 | h_2 | h_3 | h_4 | h_5 | h_6 => exact casePalette_next (quiet_eq_ok hd).1 hp
  case h_7 => exact caseRun_next (quiet_eq_ok hd).1 hp
  case h_8 =>
    have hrun := emitRun_next (quiet_eq_ok hd).1 hp
    exact hrun
  case h_9 => exact emitRun_next (quiet_eq_ok hd).1 hp
  case h_10 => exact putPixel_next (quiet_eq_ok hd).1 hp
  case h_11 =>
    obtain ⟨L, hP, -⟩ := h.data.palette
    obtain ⟨a, ha⟩ := hP.pixcode
    cases hd
    refine fun he => absurd he ?_
    show ¬ Enters d.cache.pixcode
    rw [ha]
    rcases pixfan_cases a with hf | hf | hf | hf | hf | hf <;> rw [hf] <;> decide
  case h_14 =>
    have hcolor := caseColor_next (quiet_eq_ok hd).1 hp
    exact hcolor
  case h_15 => exact caseColor_next (quiet_eq_ok hd).1 hp
  case h_21 =>
    obtain ⟨e, he, hd⟩ := bind_eq_ok.mp hd
    cases hd
    exact caseTimeout_next he
  case h_23 => exact caseCommand_next hd
  case h_25 =>
    obtain ⟨rfl, -⟩ : d.casePrint.1 = d' ∧ d.casePrint.2 = ev := ok_pair hd
    unfold casePrint
    split
    · exact fun _ => rfl
    · exact .leaves (n := 1) (by decide) rfl
  case h_27 =>
    obtain ⟨rfl, -⟩ : d.caseFatal.1 = d' ∧ d.caseFatal.2 = ev := ok_pair hd
    obtain ⟨n, ev', heq, -⟩ := d.caseFatal_counts
    rw [heq]
    exact fun _ => rfl
  case h_28 | h_29 | h_30 => cases hd; exact .leaves (n := 1) (by decide) rfl
  case h_32 =>
    obtain ⟨rfl, -⟩ : d.caseMode.1 = d' ∧ d.caseMode.2 = ev := ok_pair hd
    unfold caseMode
    dsimp only
    split <;> exact fun _ => rfl
  case h_33 =>
    cases hd
    unfold caseHunt
    split <;> exact fun _ => rfl
  case h_22 =>
    obtain ⟨buff, rfl⟩ := caseParam_cases (quiet_eq_ok hd).1
    exact fun _ => rfl
  all_goals cases hd; exact fun _ => rfl

end DvcDecoder

/-! ### Where a step leads -/

/-- Which states lead to those that only the tables lead to. -/
def Leads (s n : Nat) : Prop :=
  (n = 39 → s = 17) ∧ (n = 47 → s = 40) ∧ (n = 43 ∨ n = 0 → s = 43)

instance (s n : Nat) : Decidable (Leads s n) := by
  unfold Leads
  infer_instance

theorem leads_tables : ∀ s < 48, Leads s (look 0 next0 s) ∧
    (s ≠ 31 → Leads s (look 0 next1Init s)) := by decide +kernel

theorem Leads.of_not_enters {s n : Nat} (h : ¬ DvcDecoder.Enters n) : Leads s n := by
  unfold DvcDecoder.Enters at h
  unfold Leads
  omega

theorem places_of_repeat {s : Nat} (h : isRepeat s = true) : DvcDecoder.Places s := by
  simp only [isRepeat, decide_eq_true_eq] at h
  rcases h with h | h | h <;> rw [h] <;> decide

namespace Step

variable {t : Step}

namespace Went

theorem leads_read (h : t.Went) (hinv : LoopInv t.before) :
    Leads t.state t.read.bits.nextState := by
  have htab := leads_tables t.state hinv.lt
  rw [DvcDecoder.fetch_next_eq hinv.data hinv.lt h.fetch]
  split
  · exact htab.1
  · split
    · obtain ⟨L, hP, -⟩ := hinv.data.palette
      refine .of_not_enters ?_
      rcases hP.next131 with h31 | ⟨a, h31⟩
      · rw [h31]
        decide
      · rw [h31]
        rcases pixfan_cases a with hf | hf | hf | hf | hf | hf <;> rw [hf] <;> decide
    · rename_i h31
      exact htab.2 h31

theorem leads (h : t.Went) (hinv : LoopInv t.before) : Leads t.state t.after.bits.decoderState := by
  show Leads t.state t.completed.bits.nextState
  obtain ⟨-, -, c, hcomp, -⟩ | ⟨-, hcomp, -⟩ := DvcDecoder.complete_cases h.complete
  · rw [hcomp]
    exact .of_not_enters (show ¬ DvcDecoder.Enters 1 by decide)
  · rw [hcomp]
    by_cases he : DvcDecoder.Enters t.switched.bits.nextState
    · rw [DvcDecoder.dispatch_next (h.read_inv hinv) h.switch he]
      exact h.leads_read hinv
    · exact .of_not_enters he

/-- State 43 leads to itself or to state 0, and state 40 to state 47. -/
theorem hunt_leads (h : t.Went) (hinv : LoopInv t.before) (hs : t.state = 43) : ¬ t.Completes ∧
    (t.after.bits.decoderState = 43 ∨ t.after.bits.decoderState = 0) := by
  obtain ⟨hnext, hcomp⟩ := DvcDecoder.Went.hunt_next h hinv hs
  refine ⟨fun hc => ?_, ?_⟩
  · have h2 := hc.1
    omega
  · show t.completed.bits.nextState = 43 ∨ t.completed.bits.nextState = 0
    rwa [hcomp]

/-- The decoder after a step that moves. -/
theorem after_of_places (h : t.Went) (hinv : LoopInv t.before) (hp : DvcDecoder.Places t.state) :
    t.after = { t.switched with bits.decoderState := t.switched.bits.nextState } := by
  obtain ⟨h2, h256, -⟩ | ⟨-, hcomp, -⟩ := DvcDecoder.complete_cases h.complete
  · exact absurd ⟨h2, h256⟩ (h.not_completes hinv hp)
  · rw [after, hcomp]

theorem size_leads (h : t.Went) (hinv : LoopInv t.before) (hs : t.state = 40) :
    t.after.bits.decoderState = 47 := by
  have hstate : t.before.bits.decoderState = 40 := hs
  have hnext := DvcDecoder.fetch_next hinv.data hinv.lt (by omega) h.fetch
  rw [h.after_of_places hinv (by rw [hs]; decide), (h.switched_eq hs rfl).1]
  show t.read.bits.nextState = 47
  rw [hnext, hstate]
  split <;> decide

end Went

/-! ### The grid -/

/-- The step has `next_block` place a tile. -/
def Tiles (t : Step) : Prop :=
  t.state = 34 ∨ t.state = 29 ∨ (t.state = 30 ∧ t.read.bits.code ≠ 0) ∨ t.Completes

instance (t : Step) : Decidable t.Tiles := by
  unfold Tiles
  infer_instance

theorem tiles_iff (t : Step) (hc : ¬ t.Completes) : t.Tiles ↔
    t.state = 34 ∨ t.state = 29 ∨ (t.state = 30 ∧ t.read.bits.code ≠ 0) := by
  rw [Tiles, or_iff_left hc]

/-- The step sets the position: states 39, 20 and 21, a mode command or a reset. -/
def Positions (t : Step) : Prop :=
  t.state = 39 ∨ t.state = 20 ∨ t.state = 21 ∨ t.state = 47 ∨ t.state = 0

instance (t : Step) : Decidable t.Positions := by
  unfold Positions
  infer_instance

end Step

/-- Has a tile been placed at the end of its row, or behind it, since the position was set? -/
def nextPast (p : Bool) (t : Step) : Bool :=
  if t.Positions then false
  else if t.Tiles ∧ t.before.sizeX ≤ t.before.lastx then true
  else p

def past (ts : List Step) : Bool := ts.foldl nextPast false

theorem past_concat (ts : List Step) (t : Step) : past (ts ++ [t]) = nextPast (past ts) t := by
  rw [past, List.foldl_append]
  rfl

/-- The position fits the sizes, except behind a change of the sizes or a marker, where it is
set before the next tile. -/
structure GridInv (p : Bool) (d : DvcDecoder) : Prop where
  newx : d.newx < 128
  sizeX : d.sizeX < 128
  checked : d.bits.decoderState = 39 → d.newx ≤ d.sizeX
  lasty : ¬ (d.bits.decoderState = 47 ∨ d.bits.decoderState = 43 ∨ d.bits.decoderState = 0) →
    d.lasty ≤ d.sizeY
  lastx : ¬ (d.bits.decoderState = 47 ∨ d.bits.decoderState = 43 ∨ d.bits.decoderState = 0) →
    (p = true ↔ d.sizeX < d.lastx)

variable {ts : List Step} {cfg : Config} {p : Bool} {t : Step}

/-- What a step does to the position. -/
structure GridStep (p : Bool) (t : Step) : Prop where
  inv : GridInv (nextPast p t) t.after
  lastx : t.after.lastx < 128 ∨ t.after.lastx = t.before.lastx ∨
    (t.Tiles ∧ t.after.lastx = t.before.lastx + 1)

theorem not_positions (hp : ¬ DvcDecoder.Places t.state) : ¬ t.Positions := by
  unfold DvcDecoder.Places at hp
  unfold Step.Positions
  omega

theorem nextPast_of_not_tiles (hp : ¬ t.Positions) (ht : ¬ t.Tiles) : nextPast p t = p := by
  rw [nextPast, if_neg hp, if_neg fun h => ht h.1]

/-- A tile that is placed: the line is left when it stood at the end. -/
theorem nextPast_tiles (hp : ¬ t.Positions) (ht : t.Tiles)
    (hline : p = true ↔ t.before.sizeX < t.before.lastx) {l : Nat}
    (hin : t.before.lastx < t.before.sizeX → l ≤ t.before.sizeX)
    (hout : t.before.sizeX ≤ t.before.lastx → l = t.before.lastx + 1) :
    nextPast p t = true ↔ t.before.sizeX < l := by
  rw [nextPast, if_neg hp]
  by_cases hle : t.before.sizeX ≤ t.before.lastx
  · rw [if_pos ⟨ht, hle⟩, hout hle]
    simp only [true_iff]
    omega
  · rw [if_neg fun h => hle h.2, hline]
    have := hin (by omega)
    omega

/-- A step that leaves the position and the sizes alone. -/
theorem GridInv.keep (hg : GridInv p t.before) (hpos : ¬ t.Positions) (ht : ¬ t.Tiles)
    (hset : ¬ (t.after.bits.decoderState = 47 ∨ t.after.bits.decoderState = 43 ∨
      t.after.bits.decoderState = 0) → ¬ (t.before.bits.decoderState = 47 ∨
      t.before.bits.decoderState = 43 ∨ t.before.bits.decoderState = 0))
    (hnewx : t.after.newx < 128) (hchecked : t.after.bits.decoderState = 39 →
      t.after.newx ≤ t.after.sizeX)
    (hlastx : t.after.lastx = t.before.lastx) (hlasty : t.after.lasty = t.before.lasty)
    (hsizeX : t.after.sizeX = t.before.sizeX) (hsizeY : t.after.sizeY = t.before.sizeY) :
    GridStep p t := by
  refine ⟨?_, Or.inr (Or.inl hlastx)⟩
  rw [nextPast_of_not_tiles hpos ht]
  refine ⟨hnewx, hsizeX ▸ hg.sizeX, hchecked, fun hs => ?_, fun hs => ?_⟩
  · rw [hlasty, hsizeY]
    exact hg.lasty (hset hs)
  · rw [hlastx, hsizeX]
    exact hg.lastx (hset hs)

/-- A step that does not move. -/
theorem GridInv.still (hg : GridInv p t.before) (hinv : LoopInv t.before) (h : t.Went)
    (hp : ¬ DvcDecoder.Places t.state) (hc : ¬ t.Completes) : GridStep p t := by
  have htiles : ¬ t.Tiles := by
    unfold DvcDecoder.Places at hp
    rintro (h34 | h29 | ⟨h30, -⟩ | hcomp)
    · omega
    · omega
    · omega
    · exact hc hcomp
  have hlayout : t.after.layout = t.before.layout := by
    obtain ⟨h2, h256, -⟩ | ⟨-, hcomp, -⟩ := DvcDecoder.complete_cases h.complete
    · exact absurd ⟨h2, h256⟩ hc
    · show t.completed.layout = _
      rw [hcomp]
      exact h.layout_switched hinv hp
  simp only [DvcDecoder.layout, Prod.mk.injEq] at hlayout
  obtain ⟨⟨hlastx, hlasty, hnewx⟩, ⟨hsizeX, hsizeY⟩, -, -⟩ := hlayout
  obtain ⟨h17, h40, h43⟩ := h.leads hinv
  -- A step that stays out of the free states comes from outside of them.
  have hfree : ¬ (t.after.bits.decoderState = 47 ∨ t.after.bits.decoderState = 43 ∨
      t.after.bits.decoderState = 0) → ¬ (t.before.bits.decoderState = 47 ∨
      t.before.bits.decoderState = 43 ∨ t.before.bits.decoderState = 0) := by
    rintro hafter (hb | hb | hb)
    · exact hp (by rw [show t.state = 47 from hb]; decide)
    · have := (h.hunt_leads hinv hb).2
      omega
    · exact hp (by rw [show t.state = 0 from hb]; decide)
  refine hg.keep (not_positions hp) htiles hfree (hnewx ▸ hg.newx) (fun h39 => ?_) hlastx hlasty
    hsizeX hsizeY
  exact absurd (show DvcDecoder.Places t.state by rw [h17 h39]; decide) hp

/-- A completion. -/
theorem GridInv.completion (hg : GridInv p t.before) (hinv : LoopInv t.before) (h : t.Went)
    (hc : t.Completes) : GridStep p t := by
  have hp : ¬ DvcDecoder.Places t.state := fun hp => h.not_completes hinv hp hc
  have hlayout := h.layout_of_completes hinv hc
  simp only [DvcDecoder.layout, Prod.mk.injEq] at hlayout
  obtain ⟨⟨hlastx, hlasty, hnewx⟩, ⟨hsizeX, hsizeY⟩, -, -⟩ := hlayout
  have hset : ¬ (t.before.bits.decoderState = 47 ∨ t.before.bits.decoderState = 43 ∨
      t.before.bits.decoderState = 0) := by
    rintro (hb | hb | hb)
    · exact hp (by rw [show t.state = 47 from hb]; decide)
    · exact (h.hunt_leads hinv hb).1 hc
    · exact hp (by rw [show t.state = 0 from hb]; decide)
  obtain ⟨h2, h256, c, hcomp, -⟩ | ⟨hnot, -, -⟩ := DvcDecoder.complete_cases h.complete
  swap
  · exact absurd hc hnot
  rw [DvcDecoder.nextBlock_one] at hcomp
  have hafter : t.after.lastx = t.before.lastx + 1 := by
    show t.completed.lastx = _
    rw [hcomp, ← hlastx]
    rfl
  have hline := nextPast_tiles (not_positions hp) (Or.inr (Or.inr (Or.inr hc))) (hg.lastx hset)
    (fun hlt => hlt) (fun _ => rfl)
  have hstate : t.after.bits.decoderState = 1 := by
    show t.completed.bits.nextState = 1
    rw [hcomp]
    rfl
  have hkeep : t.after.newx = t.switched.newx ∧ t.after.sizeX = t.switched.sizeX ∧
      t.after.sizeY = t.switched.sizeY ∧ t.after.lasty = t.switched.lasty := by
    unfold Step.after
    rw [hcomp]
    exact ⟨rfl, rfl, rfl, rfl⟩
  obtain ⟨hnewx', hsizeX', hsizeY', hlasty'⟩ := hkeep
  have htiles : t.Tiles := Or.inr (Or.inr (Or.inr hc))
  refine ⟨⟨?_, ?_, fun h39 => by omega, fun _ => ?_, fun _ => ?_⟩, Or.inr (Or.inr ⟨htiles, hafter⟩)⟩
  · rw [hnewx', hnewx]
    exact hg.newx
  · rw [hsizeX', hsizeX]
    exact hg.sizeX
  · rw [hlasty', hlasty, hsizeY', hsizeY]
    exact hg.lasty hset
  · rw [hsizeX', hsizeX, hafter]
    exact hline

/-- A call of `next_block` from a command. -/
theorem GridStep.row (d : DvcDecoder) (count : Nat) (hg : GridInv p t.before)
    (hpos : ¬ t.Positions) (hset : ¬ (t.before.bits.decoderState = 47 ∨
      t.before.bits.decoderState = 43 ∨ t.before.bits.decoderState = 0))
    (hd : d.layout = t.before.layout) (htiles : t.Tiles ↔ count ≠ 0)
    (hafter : t.after.layout = (d.nextBlock count).1.layout)
    (hstate : t.after.bits.decoderState = 1) : GridStep p t := by
  simp only [DvcDecoder.layout, Prod.mk.injEq] at hd hafter
  obtain ⟨⟨hlastx, hlasty, hnewx⟩, ⟨hsizeX, hsizeY⟩, -, -⟩ := hd
  obtain ⟨⟨hlastx', hlasty', hnewx'⟩, ⟨hsizeX', hsizeY'⟩, -, -⟩ := hafter
  obtain ⟨hin, hout⟩ := DvcDecoder.nextBlock_lastx d count
  have hsizeX' : t.after.sizeX = t.before.sizeX := hsizeX'.trans hsizeX
  have hsizeY' : t.after.sizeY = t.before.sizeY := hsizeY'.trans hsizeY
  have hlasty' : t.after.lasty = t.before.lasty := hlasty'.trans hlasty
  have hnewx' : t.after.newx = t.before.newx := hnewx'.trans hnewx
  rw [hlastx, hsizeX] at hin hout
  refine ⟨⟨?_, ?_, fun h39 => by omega, fun _ => ?_, fun _ => ?_⟩, ?_⟩
  · rw [hnewx']
    exact hg.newx
  · rw [hsizeX']
    exact hg.sizeX
  · rw [hlasty', hsizeY']
    exact hg.lasty hset
  · rw [hlastx', hsizeX']
    by_cases hcount : count = 0
    · rw [nextPast_of_not_tiles hpos fun ht => htiles.mp ht hcount, hg.lastx hset, hcount]
      show t.before.sizeX < t.before.lastx ↔ t.before.sizeX < d.lastx
      rw [hlastx]
    · rw [if_neg hcount] at hout
      exact nextPast_tiles hpos (htiles.mpr hcount) (hg.lastx hset) hin hout
  · have hsize := hg.sizeX
    rw [← hlastx'] at hin hout
    by_cases hlt : t.before.lastx < t.before.sizeX
    · exact Or.inl (lt_of_le_of_lt (hin hlt) hsize)
    · have hout := hout (Nat.le_of_not_lt hlt)
      split at hout
      · exact Or.inr (Or.inl hout)
      · rename_i hcount
        exact Or.inr (Or.inr ⟨htiles.mpr hcount, hout⟩)

/-- A step that sets the position. -/
theorem GridInv.set (hg : GridInv p t.before) (hpos : t.Positions)
    (hnewx : t.after.newx = t.before.newx) (hsizeX : t.after.sizeX = t.before.sizeX)
    (hstate : t.after.bits.decoderState ≠ 39) (hlasty : t.after.lasty ≤ t.after.sizeY)
    (hlastx : t.after.lastx ≤ t.after.sizeX) : GridStep p t := by
  have hsize : t.after.sizeX < 128 := hsizeX ▸ hg.sizeX
  refine ⟨⟨hnewx ▸ hg.newx, hsize, fun h39 => absurd h39 hstate, fun _ => hlasty, fun _ => ?_⟩,
    Or.inl (lt_of_le_of_lt hlastx hsize)⟩
  rw [nextPast, if_pos hpos]
  simp only [Bool.false_eq_true, false_iff]
  omega

/-- A step that aims at a column. -/
theorem GridInv.aim (hg : GridInv p t.before) (hinv : LoopInv t.before) (h : t.Went)
    (hs : t.state = 17 ∨ t.state = 26) (hlayout : t.read.layout = t.before.layout)
    (hafter : t.after = { t.read.caseNewx t.state with
      bits.decoderState := t.after.bits.decoderState }) : GridStep p t := by
  simp only [DvcDecoder.layout, Prod.mk.injEq] at hlayout
  obtain ⟨⟨hlastx, hlasty, -⟩, ⟨hsizeX, hsizeY⟩, -, -⟩ := hlayout
  have hplaces : DvcDecoder.Places t.state := by rcases hs with hs | hs <;> rw [hs] <;> decide
  have hstate : t.before.bits.decoderState = t.state := rfl
  have hcode : t.read.bits.code < 2 ^ 7 := by
    have hcode := (h.read_inv hinv).code
    rcases hs with hs | hs
    · rw [hs, show width 17 = 7 by decide] at hcode
      exact hcode (by decide)
    · rw [hs, show width 26 = 7 by decide] at hcode
      exact hcode (by decide)
  have hnewx : t.after.newx =
      if t.state = 17 ∧ t.read.bits.code > t.read.sizeX then 0 else t.read.bits.code := by
    rw [hafter]
    rfl
  have htiles : ¬ t.Tiles := by
    rintro (h34 | h29 | ⟨h30, -⟩ | hcomp)
    · omega
    · omega
    · omega
    · exact h.not_completes hinv hplaces hcomp
  refine hg.keep (by unfold Step.Positions; omega) htiles (fun _ => by omega) ?_ (fun h39 => ?_)
    (by rw [hafter]; exact hlastx) (by rw [hafter]; exact hlasty) (by rw [hafter]; exact hsizeX)
    (by rw [hafter]; exact hsizeY)
  · rw [hnewx]
    split <;> omega
  · have h17 := (h.leads hinv).1 h39
    rw [hnewx, show t.after.sizeX = t.read.sizeX by rw [hafter]; rfl]
    split <;> omega

/-- A repeat command. -/
theorem GridInv.again (hg : GridInv p t.before) (hinv : LoopInv t.before) (h : t.Went)
    (hr : isRepeat t.state = true) : GridStep p t := by
  obtain ⟨code, count, hsw, -, hcount⟩ := h.repeats hr
  have hp := places_of_repeat hr
  have hnot := h.not_completes hinv hp
  have hafter := h.after_of_places hinv hp
  have hstate : t.before.bits.decoderState = t.state := rfl
  simp only [isRepeat, decide_eq_true_eq] at hr
  rw [hsw] at hafter
  refine .row (t.read.setCode code) count hg (by unfold Step.Positions; omega) (by omega)
    h.layout_read ((t.tiles_iff hnot).trans hcount.symm) ?_ ?_
  · rw [hafter]
    rfl
  · rw [hafter]
    rfl

/-- Lines 20 and 21 keep the row. -/
theorem GridInv.line (hg : GridInv p t.before) (hinv : LoopInv t.before) (h : t.Went)
    (hs : t.state = 20 ∨ t.state = 21) {code : Nat}
    (hsw : t.switched = (t.read.setCode code).caseLastx) : GridStep p t := by
  have hstate : t.before.bits.decoderState = t.state := rfl
  have hafter := h.after_of_places hinv (by rcases hs with hs | hs <;> rw [hs] <;> decide)
  have hlayout := h.layout_read
  simp only [DvcDecoder.layout, Prod.mk.injEq] at hlayout
  obtain ⟨⟨-, hlasty, hnewx⟩, ⟨hsizeX, hsizeY⟩, -, -⟩ := hlayout
  have h17 := (h.leads hinv).1
  rw [hsw] at hafter
  refine hg.set (Or.inr (by tauto)) ?_ ?_ (by omega) ?_ ?_ <;> rw [hafter]
  · exact hnewx
  · exact hsizeX
  · exact hlasty.symm ▸ hsizeY.symm ▸ hg.lasty (by omega)
  · exact DvcDecoder.caseLastx_le _

/-- State 47 keeps the sizes. -/
theorem GridInv.mode (hg : GridInv p t.before) (hinv : LoopInv t.before) (h : t.Went)
    (hs : t.state = 47) : GridStep p t := by
  have hafter := h.after_of_places hinv (by rw [hs]; decide)
  have hlayout := h.layout_read
  simp only [DvcDecoder.layout, Prod.mk.injEq] at hlayout
  obtain ⟨⟨-, -, hnewx⟩, ⟨hsizeX, -⟩, -, -⟩ := hlayout
  have h17 := (h.leads hinv).1
  have hmode : t.read.caseMode.1.lastx = 0 ∧ t.read.caseMode.1.lasty = 0 ∧
      t.read.caseMode.1.newx = t.read.newx ∧ t.read.caseMode.1.sizeX = t.read.sizeX := by
    unfold DvcDecoder.caseMode
    dsimp only
    split <;> exact ⟨rfl, rfl, rfl, rfl⟩
  obtain ⟨hx, hy, hnewx', hsizeX'⟩ := hmode
  have hsw : t.switched = t.read.caseMode.1 := (h.switched_eq hs rfl).1
  rw [hsw] at hafter
  refine hg.set (Or.inr (Or.inr (Or.inr (Or.inl hs)))) ?_ ?_ (by omega) ?_ ?_ <;> rw [hafter]
  · exact hnewx'.trans hnewx
  · exact hsizeX'.trans hsizeX
  · exact hy ▸ Nat.zero_le _
  · exact hx ▸ Nat.zero_le _

/-- A step that moves, or changes the sizes. -/
theorem GridInv.placed (hg : GridInv p t.before) (hinv : LoopInv t.before) (h : t.Went)
    (hp : DvcDecoder.Places t.state) : GridStep p t := by
  have hlayout := h.layout_read
  simp only [DvcDecoder.layout, Prod.mk.injEq] at hlayout
  obtain ⟨⟨hlastx, -, hnewx⟩, ⟨hsizeX, -⟩, -, -⟩ := hlayout
  have hafter := h.after_of_places hinv hp
  have h17 := (h.leads hinv).1
  unfold DvcDecoder.Places at hp
  rcases hp with hs | hs | hs | hs | hs | hs | hs | hs | hs | hs | hs
  · -- A reset.
    have hsw : t.switched = t.read.caseReset := (h.switched_eq hs rfl).1
    rw [hsw] at hafter
    refine hg.set (Or.inr (Or.inr (Or.inr (Or.inr hs)))) ?_ ?_ (by omega) ?_ ?_ <;> rw [hafter]
    · exact hnewx
    · exact hsizeX
    · exact Nat.zero_le _
    · exact Nat.zero_le _
  · have hsw : t.switched = t.read.caseNewx 17 := (h.switched_eq hs rfl).1
    refine hg.aim hinv h (Or.inl hs) h.layout_read ?_
    rw [hs, hafter, hsw]
  · exact hg.line hinv h (Or.inl hs) (h.switched_eq hs rfl).1
  · have hsw : t.switched = (t.read.setCode t.read.bits.code).caseLastx :=
      (h.switched_eq hs rfl).1
    exact hg.line hinv h (Or.inr hs) hsw
  · have hsw : t.switched = t.read.caseNewx 26 := (h.switched_eq hs rfl).1
    refine hg.aim hinv h (Or.inr hs) h.layout_read ?_
    rw [hs, hafter, hsw]
  · exact hg.again hinv h (by rw [hs]; decide)
  · exact hg.again hinv h (by rw [hs]; decide)
  · exact hg.again hinv h (by rw [hs]; decide)
  · -- The column was checked in state 17.
    have hsw : t.switched = t.read.caseNewy := (h.switched_eq hs rfl).1
    rw [hsw] at hafter
    refine hg.set (Or.inl hs) ?_ ?_ (by omega) ?_ ?_ <;> rw [hafter]
    · exact hnewx
    · exact hsizeX
    · exact DvcDecoder.caseNewy_le _
    · show t.read.newx ≤ t.read.sizeX
      rw [hnewx, hsizeX]
      exact hg.checked hs
  · -- The sizes change, and state 47 follows.
    have hsw : t.switched = { t.read with sizeX := t.read.newx, sizeY := t.read.bits.code } :=
      (h.switched_eq hs rfl).1
    have hnext := h.size_leads hinv hs
    have hnew := hg.newx
    rw [hsw] at hafter
    refine ⟨⟨?_, ?_, by omega, by omega, by omega⟩, Or.inr (Or.inl ?_)⟩ <;> rw [hafter]
    · exact lt_of_eq_of_lt hnewx hnew
    · exact lt_of_eq_of_lt hnewx hnew
    · exact hlastx
  · exact hg.mode hinv h hs

theorem GridInv.round (hg : GridInv p t.before) (hinv : LoopInv t.before) (h : t.Went) :
    GridStep p t := by
  by_cases hp : DvcDecoder.Places t.state
  · exact hg.placed hinv h hp
  · by_cases hc : t.Completes
    · exact hg.completion hinv h hc
    · exact hg.still hinv h hp hc

/-! ### The tiles of a step -/

theorem mem_pastes {b : Vector Nat 256} {x y len : Nat} {ev : List Event} :
    .paste b x y len ∈ pastes ev ↔ .paste b x y len ∈ ev := by
  unfold pastes
  rw [List.mem_filter]
  simp

namespace Step.Went

/-- **What a step paints** is what one call of `next_block` paints. -/
theorem row (h : t.Went) (hinv : LoopInv t.before) : ∃ d count,
    d.layout = t.before.layout ∧ (t.Tiles ↔ count ≠ 0) ∧
      pastes t.hooks = pastes (DvcDecoder.nextBlock d count).2 := by
  by_cases hr : isRepeat t.state = true
  · have hnot := h.not_completes hinv (places_of_repeat hr)
    obtain ⟨code, count, -, hev, hcount⟩ := h.repeats hr
    refine ⟨t.read.setCode code, count, h.layout_read, (t.tiles_iff hnot).trans hcount.symm, ?_⟩
    rw [hooks, h.completeHooks_eq, if_neg fun hc => hnot hc.1, List.append_nil, hev]
  · rw [Bool.not_eq_true] at hr
    have hnone := DvcDecoder.dispatch_pastes h.switch hr
    have hhooks : pastes t.hooks = pastes t.completeHooks := by
      rw [hooks, pastes, List.filter_append]
      rw [pastes] at hnone
      rw [hnone]
      rfl
    rw [hhooks]
    have hstates : t.state ≠ 34 ∧ t.state ≠ 29 ∧ t.state ≠ 30 := by
      simpa [isRepeat] using hr
    obtain ⟨h2, h256, c, -, hev⟩ | ⟨hnot, -, hev⟩ := DvcDecoder.complete_cases h.complete
    · have hc : t.Completes := ⟨h2, h256⟩
      exact ⟨t.switched, 1, h.layout_of_completes hinv hc,
        ⟨fun _ => Nat.one_ne_zero, fun _ => Or.inr (Or.inr (Or.inr hc))⟩, congrArg pastes hev⟩
    · refine ⟨t.read, 0, h.layout_read, ⟨?_, fun h0 => absurd rfl h0⟩, congrArg pastes hev⟩
      rintro (h34 | h29 | ⟨h30, -⟩ | hcomp)
      · exact absurd h34 hstates.1
      · exact absurd h29 hstates.2.1
      · exact absurd h30 hstates.2.2
      · exact absurd hcomp hnot

/-- A tile is placed in a state in which the position is known. -/
theorem set_of_tiles (h : t.Went) (hinv : LoopInv t.before) (ht : t.Tiles) :
    ¬ (t.before.bits.decoderState = 47 ∨ t.before.bits.decoderState = 43 ∨
      t.before.bits.decoderState = 0) := by
  have hstate : t.before.bits.decoderState = t.state := rfl
  rcases ht with h34 | h29 | ⟨h30, -⟩ | hc
  · omega
  · omega
  · omega
  · rintro (hb | hb | hb)
    · exact h.not_completes hinv (by rw [show t.state = 47 from hb]; decide) hc
    · exact (h.hunt_leads hinv hb).1 hc
    · exact h.not_completes hinv (by rw [show t.state = 0 from hb]; decide) hc

end Step.Went

/-- **The tiles of a step** are on the grid, unless one is placed behind the line. -/
theorem GridInv.grid_hooks (hg : GridInv p t.before) (hinv : LoopInv t.before) (h : t.Went) :
    OnGrid t.before t.hooks ↔
      ¬ (p = true ∧ t.Tiles ∧ t.before.videoDetected = true) := by
  obtain ⟨d, count, hlayout, htiles, hpastes⟩ := h.row hinv
  simp only [DvcDecoder.layout, Prod.mk.injEq] at hlayout
  obtain ⟨⟨hlastx, hlasty, -⟩, ⟨hsizeX, hsizeY⟩, -, hvideo⟩ := hlayout
  have hsame : OnGrid t.before t.hooks ↔ OnGrid d (d.nextBlock count).2 := by
    unfold OnGrid
    rw [hsizeX, hsizeY]
    constructor <;> intro hall b x y len he
    · exact hall b x y len (mem_pastes.mp (hpastes ▸ mem_pastes.mpr he))
    · exact hall b x y len (mem_pastes.mp (hpastes ▸ mem_pastes.mpr he))
  rw [hsame]
  by_cases ht : t.Tiles
  · have hset := h.set_of_tiles hinv ht
    have hy : d.lasty ≤ d.sizeY := by
      rw [hlasty, hsizeY]
      exact hg.lasty hset
    rw [d.nextBlock_on_grid hy, hg.lastx hset, hsizeX, hlastx, htiles, hvideo]
  · have hcount : count = 0 := by
      by_contra hcount
      exact ht (htiles.mpr hcount)
    rw [hcount]
    refine iff_of_true ?_ fun hall => ht hall.2.1
    intro b x y len he
    cases he

/-- No tile is placed behind the line. -/
def Kept (ts : List Step) : Prop :=
  ∀ before t after, ts = before ++ t :: after → ¬ (past before = true ∧ t.Tiles)

theorem Kept.of_concat (h : Kept (ts ++ [t])) : Kept ts ∧ ¬ (past ts = true ∧ t.Tiles) := by
  refine ⟨fun before u after heq => ?_, h ts t [] rfl⟩
  refine h before u (after ++ [t]) ?_
  rw [heq, List.append_assoc, List.cons_append]

/-- As long as that is so, the column is small. -/
theorem GridStep.lastx_le (hg : GridInv p t.before) (hinv : LoopInv t.before) (h : t.Went)
    (hs : GridStep p t) (hkept : ¬ (p = true ∧ t.Tiles)) (hle : t.before.lastx ≤ 128) :
    t.after.lastx ≤ 128 := by
  rcases hs.lastx with hsmall | hsame | ⟨ht, hnext⟩
  · omega
  · omega
  · have hline : ¬ t.before.sizeX < t.before.lastx := fun hlt =>
      hkept ⟨(hg.lastx (h.set_of_tiles hinv ht)).mpr hlt, ht⟩
    have hsize := hg.sizeX
    omega

theorem Recorded.grid (h : Recorded ts cfg) :
    GridInv (past ts) cfg.decoder ∧ (Kept ts → cfg.decoder.lastx ≤ 128) := by
  refine Recorded.rule (fun ts d => GridInv (past ts) d ∧ (Kept ts → d.lastx ≤ 128)) ?_ ?_ ?_ ?_ h
  · refine ⟨⟨by decide, by decide, fun h39 => absurd h39 (by decide), fun h0 => ?_, fun h0 => ?_⟩,
      fun _ => Nat.zero_le _⟩
    · exact absurd (Or.inr (Or.inr rfl)) h0
    · exact absurd (Or.inr (Or.inr rfl)) h0
  · rintro ts d b k ⟨hg, hle⟩ hst
    have hhunt : HUNT = 43 := rfl
    refine ⟨⟨hg.newx, hg.sizeX, fun h39 => hg.checked ?_, fun hset => hg.lasty ?_,
      fun hset => hg.lastx ?_⟩, hle⟩ <;> dsimp only at * <;> omega
  · rintro ts d b ⟨hg, hle⟩ h37
    exact ⟨⟨hg.newx, hg.sizeX, fun h39 => absurd (show 38 = 39 from h39) (by decide),
      fun _ => hg.lasty (by omega), fun _ => hg.lastx (by omega)⟩, hle⟩
  · rintro ts t ⟨hg, hle⟩ hinv hwent
    have hround := hg.round hinv hwent
    rw [past_concat]
    refine ⟨hround.inv, fun hkept => ?_⟩
    obtain ⟨hbefore, hlast⟩ := hkept.of_concat
    exact hround.lastx_le hg hinv hwent hlast (hle hbefore)

/-- **When every tile is on the grid**: no tile is painted behind one that was placed at the
end of its row or behind it, unless the position was set in between.  If no tile is placed
so, painted or not, `lastx * 16` is small. -/
theorem on_grid_iff (h : Recorded ts cfg) :
    ((∀ t ∈ ts, OnGrid t.before t.hooks) ↔ ∀ before t after, ts = before ++ t :: after →
      ¬ (past before = true ∧ t.Tiles ∧ t.before.videoDetected = true)) ∧
    (Kept ts → cfg.decoder.lastx ≤ 128) := by
  refine ⟨?_, h.grid.2⟩
  have hstep {before after : List Step} {t : Step} (heq : ts = before ++ t :: after) :
      OnGrid t.before t.hooks ↔
        ¬ (past before = true ∧ t.Tiles ∧ t.before.videoDetected = true) := by
    subst heq
    obtain ⟨hbefore, hwent⟩ := h.split
    have hg : GridInv (past before) t.before := hbefore.grid.1
    exact hg.grid_hooks hbefore.inv hwent
  constructor
  · intro hall before t after heq
    refine (hstep heq).mp (hall t ?_)
    rw [heq]
    exact List.mem_append_right _ (List.mem_cons_self ..)
  · intro hall t ht
    obtain ⟨before, after, heq⟩ := List.append_of_mem ht
    exact (hstep heq).mpr (hall before t after heq)

/-- A mode of 1024x768, a row of 64 tiles, and one tile behind it. -/
def wholeRow : List Action :=
  Action.byteRounds 0x4D 8 ++ Action.byteRounds 0xC0 2 ++ Action.byteRounds 0x00 3 ++
    Action.byteRounds 0x75 7 ++ Action.byteRounds 0xA0 5 ++ Action.byteRounds 0x14 3

theorem on_grid_iff_row : ∃ ts cfg, Recorded ts cfg ∧
    (pastes (ts.flatMap Step.hooks)).length = 65 ∧
    (∀ t ∈ ts, OnGrid t.before t.hooks) ∧ cfg.decoder.lastx ≤ 128 := by
  have hexec : (recorder.exec (fun _ _ => True) recorder.start wholeRow).map (fun r =>
      decide ((pastes (r.2.flatMap Step.hooks)).length = 65) &&
        (List.range r.2.length).all fun i => r.2[i]?.all fun t =>
          decide (¬ (past (r.2.take i) = true ∧ t.Tiles))) = some true := by decide +kernel
  obtain ⟨⟨cfg, ts⟩, hts, hfacts⟩ := Option.map_eq_some_iff.mp hexec
  rw [Bool.and_eq_true, List.all_eq_true] at hfacts
  have hkept : Kept ts := by
    intro before t after heq
    have hi := hfacts.2 before.length (by simp [heq])
    simp only [heq, List.take_left', List.getElem?_append_right, Nat.le_refl, Nat.sub_self,
      List.getElem?_cons_zero, Option.all_some, decide_eq_true_eq] at hi
    exact hi
  have hrec : Recorded ts cfg := Machine.run_of_exec hts
  obtain ⟨hiff, hle⟩ := on_grid_iff hrec
  refine ⟨ts, cfg, hrec, of_decide_eq_true hfacts.1, hiff.mpr ?_, hle hkept⟩
  exact fun before t after heq h => hkept before t after heq ⟨h.1, h.2.1⟩

/-- The hook paints a tile behind a row of `sizeX`. -/
def Event.behind (sizeX : Nat) : Event → Bool
  | .paste _ x _ _ => decide (16 * sizeX < x)
  | _ => false

/-- **A tile off the grid**: the second behind the row, at 1040 of 1024. -/
theorem off_grid : ¬ ∀ (ts : List Step) (cfg : Config), Recorded ts cfg →
    ∀ t ∈ ts, OnGrid t.before t.hooks := by
  intro hall
  have hexec : (recorder.exec (fun _ _ => True) recorder.start
      (wholeRow ++ List.replicate 6 .round)).map (fun r => r.2.getLast?.map fun t =>
        t.hooks.any (Event.behind t.before.sizeX)) = some (some true) := by decide +kernel
  obtain ⟨⟨cfg, ts⟩, hts, hlast⟩ := Option.map_eq_some_iff.mp hexec
  obtain ⟨t, ht, hany⟩ := Option.map_eq_some_iff.mp hlast
  obtain ⟨e, he, hx⟩ := List.any_eq_true.mp hany
  have hgrid := hall ts cfg (Machine.run_of_exec hts) t (List.mem_of_getLast? ht)
  cases e with
  | paste b x y len =>
      have hle := (hgrid _ _ _ _ he).1
      have hgt := of_decide_eq_true hx
      omega
  | _ => cases hx

end Ilo2.Dvc
