import Ilo2.Dvc.Record

/-!
# Whole tiles

A tile is decoded into `block` pixel by pixel, painted when it is full, and painted again by
the repeat commands.  `history` says of the steps of a run which pixels have been appended
since the last completion or reset, and what that completion painted.

* `Step.fills` - what the `switch` of a step has appended.
* `tile_integrity` - **a completion paints the 256 pixels that were appended**, clipped in the
  last row, **and a repeat command paints them again**, on every stream that stores no
  parameter past the end of `cmd_p_buff`.
-/

namespace Ilo2.Dvc

open Checked Splice

namespace DvcDecoder

variable {d d' : DvcDecoder} {ev : List Event}

theorem pasteLoop_block (paint : Bool) (block : Vector Nat 256) (sizeX y : Nat) (count : Nat) :
    ∀ x lastx, ∀ e ∈ (pasteLoop paint block sizeX y count x lastx).2,
      ∃ x', e = .paste block x' y 16 := by
  induction count with
  | zero => intro x lastx e he; cases he
  | succ count ih =>
      intro x lastx e he
      have hone : e ∈ (if paint then [Event.paste block x y 16] else []) →
          ∃ x', e = .paste block x' y 16 := by
        intro he
        split at he
        · exact ⟨x, List.mem_singleton.mp he⟩
        · cases he
      unfold pasteLoop at he
      dsimp only at he
      split at he
      · exact hone he
      · rcases List.mem_append.mp he with he | he
        · exact hone he
        · exact ih _ _ e he

/-- `next_block` paints the block it leaves behind. -/
theorem nextBlock_hooks (d : DvcDecoder) (count : Nat) : ∀ e ∈ (d.nextBlock count).2,
    ∃ x, e = .paste (d.nextBlock count).1.block x (d.lasty * 16) 16 :=
  pasteLoop_block _ _ _ _ _ _ _

/-- A single tile. -/
theorem nextBlock_one (d : DvcDecoder) : d.nextBlock 1 =
      ({ d with
        block := (d.nextBlock 1).1.block, pixelCount := 0, bits.nextState := 1
        lastx := d.lastx + 1 },
      if d.videoDetected then [.paste (d.nextBlock 1).1.block (d.lastx * 16) (d.lasty * 16) 16]
      else []) := by
  unfold nextBlock
  simp only [pasteLoop]
  split <;> simp

/-- With no pixel pending the block stays. -/
theorem nextBlock_block (h : d.pixelCount = 0) (count : Nat) :
    (d.nextBlock count).1.block = d.block := by
  unfold nextBlock
  simp [h]

theorem execCommand_fills (h : d.execCommand = .ok (d', ev)) : Fills d [] d' := by
  cases execCommand_cases h with
  | rekey _ hal => exact (alignBits_appends hal).toFills
  | _ => exact .none rfl rfl

theorem caseCommand_fills (h : d.caseCommand = .ok (d', ev)) : Fills d [] d' := by
  obtain ⟨-, rfl, -⟩ | ⟨-, e, he, rfl⟩ := caseCommand_cases h
  · exact .none rfl rfl
  · have hf := execCommand_fills he
    exact ⟨hf.count, hf.block⟩

/-- The commands append nothing: no pixel is pending, so none is dropped. -/
theorem dispatch_fills_none {s : Nat} (h : ReadInv d s) (h0 : s ≠ 0) (hs : Directs s)
    (hd : d.dispatch s = .ok (d', ev)) : Fills d [] d' := by
  by_cases h34 : s = 34
  · subst h34
    have hblock := nextBlock_block (h.empty (by decide)) 1
    cases hd
    exact .none (h.empty (by decide)).symm hblock
  by_cases h29 : s = 29
  · subst h29
    have hblock := nextBlock_block (d := d.setCode (d.bits.code + 2)) (h.empty (by decide))
      (d.bits.code + 2)
    cases hd
    exact .none (h.empty (by decide)).symm hblock
  by_cases h30 : s = 30
  · subst h30
    have hblock := nextBlock_block (h.empty (by decide)) d.bits.code
    cases hd
    exact .none (h.empty (by decide)).symm hblock
  by_cases h46 : s = 46
  · subst h46
    exact caseCommand_fills hd
  by_cases h47 : s = 47
  · subst h47
    obtain ⟨rfl, -⟩ : d.caseMode.1 = d' ∧ d.caseMode.2 = ev := ok_pair hd
    have hempty := h.empty (by decide)
    unfold caseMode
    dsimp only
    split <;> exact .none hempty.symm rfl
  unfold Directs at hs
  rcases hs with rfl | rfl | rfl | rfl | rfl | rfl | rfl | rfl | rfl | rfl | rfl | rfl | rfl
  case inr.inr.inr.inr.inl =>
    obtain ⟨buff, rfl⟩ := caseParam_cases (quiet_eq_ok hd).1
    exact .none rfl rfl
  all_goals first | contradiction | (cases hd; exact .none rfl rfl)

/-- **Every `switch` but that of a reset** appends to the block. -/
theorem dispatch_fills {s : Nat} (h : ReadInv d s) (h0 : s ≠ 0)
    (hd : d.dispatch s = .ok (d', ev)) : ∃ l, Fills d l d' := by
  by_cases hs : Directs s
  · exact ⟨[], dispatch_fills_none h h0 hs hd⟩
  · obtain ⟨l, hl⟩ := dispatch_appends h.data.pixels hd hs
    exact ⟨l, hl.toFills⟩

/-- What the completion branch does. -/
theorem complete_cases (h : d.complete = .ok (d', ev)) :
    (d.bits.nextState = 2 ∧ d.pixelCount = 256 ∧ ∃ c, d' = (d.nextBlock 1).1.setCache c ∧
      ev = (d.nextBlock 1).2) ∨
    (¬ (d.bits.nextState = 2 ∧ d.pixelCount = 256) ∧ d' = d ∧ ev = []) := by
  rw [complete_eq] at h
  split at h
  · rename_i hc
    obtain ⟨c, -, h⟩ := bind_eq_ok.mp h
    cases h
    exact .inl ⟨hc.1, hc.2, c, rfl, rfl⟩
  · rename_i hc
    cases h
    exact .inr ⟨hc, rfl, rfl⟩

end DvcDecoder

/-! ### The steps -/

/-- States 34, 29 and 30 paint the block again. -/
def isRepeat (s : Nat) : Bool := s = 34 ∨ s = 29 ∨ s = 30

namespace Step

variable {t : Step}

/-- The condition of the completion branch. -/
def Completes (t : Step) : Prop := t.switched.bits.nextState = 2 ∧ t.switched.pixelCount = 256

instance (t : Step) : Decidable t.Completes := by
  unfold Completes
  infer_instance

/-- The pixels that the `switch` appended to the block. -/
def appended (t : Step) : List Nat :=
  (t.switched.block.toList.take t.switched.pixelCount).drop t.read.pixelCount

namespace Went

theorem read_eq (h : t.Went) : t.read = { t.before with bits := t.read.bits } ∧
    t.read.bits.decoderState = t.state := DvcDecoder.fetch_eq h.fetch

theorem read_inv (h : t.Went) (hinv : LoopInv t.before) : ReadInv t.read t.state := by
  obtain ⟨d, hfetch, hf⟩ := fetch_ok hinv h.bits
  rw [h.fetch] at hfetch
  cases hfetch
  exact hf.read fun h37 => h.state (h.read_eq.2.trans h37)

theorem switch (h : t.Went) : t.read.dispatch t.state = .ok (t.switched, t.switchHooks) :=
  DvcDecoder.Went.dispatched h

/-- The `switch` of a known state. -/
theorem switched_eq (h : t.Went) {s : Nat} {e : DvcDecoder} {ev : List Event} (hs : t.state = s)
    (he : t.read.dispatch s = .ok (e, ev)) : t.switched = e ∧ t.switchHooks = ev := by
  have hswitch := h.switch
  rw [hs, he] at hswitch
  obtain ⟨rfl, rfl⟩ := ok_pair hswitch
  exact ⟨rfl, rfl⟩

/-- A repeat command is a call of `next_block`. -/
theorem repeats (h : t.Went) (hr : isRepeat t.state = true) : ∃ code count,
    t.switched = ((t.read.setCode code).nextBlock count).1 ∧
      t.switchHooks = ((t.read.setCode code).nextBlock count).2 ∧
      (count ≠ 0 ↔ t.state = 34 ∨ t.state = 29 ∨ (t.state = 30 ∧ t.read.bits.code ≠ 0)) := by
  simp only [isRepeat, decide_eq_true_eq] at hr
  rcases hr with hr | hr | hr
  · obtain ⟨hsw, hev⟩ := h.switched_eq hr rfl
    exact ⟨t.read.bits.code, 1, hsw, hev, by omega⟩
  · obtain ⟨hsw, hev⟩ := h.switched_eq hr rfl
    exact ⟨t.read.bits.code + 2, t.read.bits.code + 2, hsw, hev, by omega⟩
  · obtain ⟨hsw, hev⟩ := h.switched_eq hr rfl
    exact ⟨t.read.bits.code, t.read.bits.code, hsw, hev, by omega⟩

theorem block_read (h : t.Went) : t.read.block = t.before.block := by rw [h.read_eq.1]

theorem pixelCount_read (h : t.Went) : t.read.pixelCount = t.before.pixelCount := by
  rw [h.read_eq.1]

/-- **What a step appends.** -/
theorem fills (h : t.Went) (hinv : LoopInv t.before) (h0 : t.state ≠ 0) :
    DvcDecoder.Fills t.read t.appended t.switched := by
  have hread := h.read_inv hinv
  obtain ⟨l, hl⟩ := DvcDecoder.dispatch_fills hread h0 h.switch
  rw [appended, hl.appended hread.data.pixels]
  exact hl

/-- A reset drops what is pending, and completes nothing. -/
theorem reset (h : t.Went) (hinv : LoopInv t.before) (h0 : t.state = 0) :
    ¬ t.Completes ∧ t.switched.bits.nextState = 1 ∧ t.switched.pixelCount = 0 := by
  have hstate : t.before.bits.decoderState = 0 := h0
  have hnext := DvcDecoder.fetch_next hinv.data hinv.lt (by omega) h.fetch
  have heq : t.switched = t.read.caseReset := (h.switched_eq h0 rfl).1
  have hone : t.switched.bits.nextState = 1 := by
    rw [heq]
    show t.read.bits.nextState = 1
    rw [hnext, hstate]
    split <;> rfl
  refine ⟨fun hc => ?_, hone, by rw [heq]; rfl⟩
  exact absurd (hone.symm.trans hc.1) (by decide)

theorem layout_read (h : t.Went) : t.read.layout = t.before.layout := by
  rw [h.read_eq.1]
  rfl

/-- The states that move have no pixel pending. -/
theorem not_completes (h : t.Went) (hinv : LoopInv t.before)
    (hp : DvcDecoder.Places t.state) : ¬ t.Completes := by
  have hempty : t.switched.pixelCount = 0 := ((h.read_inv hinv).switched h.switch).empty (by
    unfold DvcDecoder.Places at hp
    rcases hp with hp | hp | hp | hp | hp | hp | hp | hp | hp | hp | hp <;> rw [hp] <;> decide)
  intro hc
  exact absurd (hempty.symm.trans hc.2) (by decide)

theorem layout_switched (h : t.Went) (hinv : LoopInv t.before)
    (hp : ¬ DvcDecoder.Places t.state) : t.switched.layout = t.before.layout := by
  rw [← h.layout_read]
  exact DvcDecoder.dispatch_layout (h.read_inv hinv).data.pixels h.switch hp

/-- A completion leaves the layout as it was. -/
theorem layout_of_completes (h : t.Went) (hinv : LoopInv t.before) (hc : t.Completes) :
    t.switched.layout = t.before.layout :=
  h.layout_switched hinv fun hp => h.not_completes hinv hp hc

end Went

end Step

/-! ### The history -/

/-- The pixels appended since the last completion or reset, and the block that the last
completion painted, unless a reset came after it.  A mode command drops no pixel, as none is
pending in a command state. -/
structure History where
  pixels : List Nat := []
  painted : Option (Vector Nat 256) := none

def History.next (g : History) (t : Step) : History :=
  if t.Completes then { painted := some t.completed.block }
  else if t.state = 0 then {}
  else { g with pixels := g.pixels ++ t.appended }

def history (ts : List Step) : History := ts.foldl History.next {}

theorem history_concat (ts : List Step) (t : Step) :
    history (ts ++ [t]) = (history ts).next t := by
  rw [history, List.foldl_append]
  rfl

/-- The block begins with the pixels of the history; before the first of them, it is what
was painted. -/
structure Pending (g : History) (d : DvcDecoder) : Prop where
  pixels : d.block.toList.take d.pixelCount = g.pixels
  painted : ∀ b, g.painted = some b → g.pixels = [] → d.block = b

variable {ts : List Step} {cfg : Config}

theorem Pending.switched {g : History} {t : Step} (hg : Pending g t.before)
    (hinv : LoopInv t.before) (h : t.Went) (h0 : t.state ≠ 0) :
    t.switched.block.toList.take t.switched.pixelCount = g.pixels ++ t.appended ∧
      t.switched.pixelCount = (g.pixels ++ t.appended).length := by
  have hfills := h.fills hinv h0
  have hp := hinv.data.pixels
  have hlen := congrArg List.length hg.pixels
  rw [List.length_take, Vector.length_toList, Nat.min_eq_left hp] at hlen
  rw [hfills.take (h.pixelCount_read ▸ hp), hfills.count, h.block_read, h.pixelCount_read,
    hg.pixels, List.length_append, hlen]
  exact ⟨rfl, rfl⟩

theorem Pending.round {g : History} {t : Step} (hg : Pending g t.before)
    (hinv : LoopInv t.before) (h : t.Went) : Pending (g.next t) t.after := by
  unfold History.next
  obtain ⟨h2, h256, c, hcomp, -⟩ | ⟨hnot, hcomp, -⟩ := DvcDecoder.complete_cases h.complete
  · rw [if_pos ⟨h2, h256⟩]
    refine ⟨?_, fun b hb _ => Option.some.inj hb⟩
    show t.completed.block.toList.take t.completed.pixelCount = []
    rw [hcomp]
    rfl
  have hnot : ¬ t.Completes := hnot
  rw [if_neg hnot]
  by_cases h0 : t.state = 0
  · rw [if_pos h0]
    obtain ⟨-, -, hzero⟩ := h.reset hinv h0
    refine ⟨?_, fun b hb => nomatch hb⟩
    show t.completed.block.toList.take t.completed.pixelCount = []
    rw [hcomp, hzero]
    rfl
  · rw [if_neg h0]
    have hfills := h.fills hinv h0
    constructor
    · show t.completed.block.toList.take t.completed.pixelCount = g.pixels ++ t.appended
      rw [hcomp, (hg.switched hinv h h0).1]
    · intro b hb hnil
      obtain ⟨hpix, happ⟩ := List.append_eq_nil_iff.mp hnil
      show t.completed.block = b
      rw [happ] at hfills
      rw [hcomp, hfills.block_eq, h.block_read]
      exact hg.painted b hb hpix

theorem Recorded.pending (h : Recorded ts cfg) : Pending (history ts) cfg.decoder := by
  refine Recorded.rule (fun ts d => Pending (history ts) d) ⟨rfl, fun b hb => nomatch hb⟩
    (fun ts d b k hp _ => ⟨hp.pixels, hp.painted⟩) (fun ts d b hp _ => ⟨hp.pixels, hp.painted⟩)
    (fun ts t hp hinv hwent => ?_) h
  rw [history_concat]
  exact hp.round hinv hwent

/-- The completion branch is taken when 256 pixels are there. -/
theorem Pending.completes_iff {g : History} {t : Step} (hg : Pending g t.before)
    (hinv : LoopInv t.before) (h : t.Went) : t.Completes ↔
      t.switched.bits.nextState = 2 ∧ (g.pixels ++ t.appended).length = 256 := by
  by_cases h0 : t.state = 0
  · obtain ⟨hnot, hone, -⟩ := h.reset hinv h0
    exact ⟨fun hc => absurd hc hnot, fun hc => absurd (hone.symm.trans hc.1) (by decide)⟩
  · rw [← (hg.switched hinv h h0).2]
    exact Iff.rfl

/-- The tile that is completed is what was appended. -/
theorem Pending.whole {g : History} {t : Step} (hg : Pending g t.before)
    (hinv : LoopInv t.before) (h : t.Went) (hc : t.Completes) :
    t.switched.block.toList = g.pixels ++ t.appended := by
  have h0 : t.state ≠ 0 := fun h0 => (h.reset hinv h0).1 hc
  rw [← (hg.switched hinv h h0).1, hc.2, List.take_of_length_le (by simp)]

/-- The hooks of the completion branch: one tile, if there is video. -/
theorem Step.Went.completeHooks_eq {t : Step} (h : t.Went) : t.completeHooks =
    if t.Completes ∧ t.switched.videoDetected then
      [.paste t.completed.block (t.switched.lastx * 16) (t.switched.lasty * 16) 16]
    else [] := by
  obtain ⟨h2, h256, c, hcomp, hev⟩ | ⟨hnot, -, hev⟩ := DvcDecoder.complete_cases h.complete
  · have hc : t.Completes := ⟨h2, h256⟩
    have hblock : t.completed.block = (t.switched.nextBlock 1).1.block := by rw [hcomp]; rfl
    rw [hev, DvcDecoder.nextBlock_one, hblock]
    simp only [hc, true_and]
  · have hnot : ¬ t.Completes := hnot
    rw [hev, if_neg fun hc => hnot hc.1]

/-- The hooks of a repeat command: the block, again and again. -/
theorem Step.Went.repeat_hooks {t : Step} (h : t.Went) (hinv : LoopInv t.before)
    (hr : isRepeat t.state = true) : t.before.pixelCount = 0 ∧
      ∀ e ∈ t.switchHooks, ∃ x y, e = .paste t.before.block x y 16 := by
  have hcmd : isCommand t.state = true := by
    simp only [isRepeat, decide_eq_true_eq] at hr
    rcases hr with hr | hr | hr <;> rw [hr] <;> decide
  have hempty : t.read.pixelCount = 0 := (h.read_inv hinv).empty hcmd
  refine ⟨h.pixelCount_read ▸ hempty, ?_⟩
  obtain ⟨code, count, -, hev, -⟩ := h.repeats hr
  intro e he
  rw [hev] at he
  obtain ⟨x, hx⟩ := DvcDecoder.nextBlock_hooks (t.read.setCode code) count e he
  rw [DvcDecoder.nextBlock_block (d := t.read.setCode code) hempty] at hx
  exact ⟨x, _, hx.trans (congrArg (fun b => Event.paste b _ _ 16) h.block_read)⟩

/-- The tile that is painted: the decoded one, filled from `y_clipped` on in the last row. -/
theorem Step.Went.completed_block {t : Step} (h : t.Went) (hc : t.Completes) :
    t.completed.block =
      if t.switched.yClipped > 0 ∧ t.switched.lasty = t.switched.sizeY then
        DvcDecoder.fillClipped t.switched.block t.switched.yClipped
      else t.switched.block := by
  obtain ⟨-, h256, c, hcomp, -⟩ | ⟨hnot, -, -⟩ := DvcDecoder.complete_cases h.complete
  · have hpixels : t.switched.pixelCount ≠ 0 := by omega
    rw [hcomp]
    show (if t.switched.pixelCount ≠ 0 ∧ t.switched.yClipped > 0 ∧
      t.switched.lasty = t.switched.sizeY then _ else _) = _
    rw [if_congr (and_iff_right hpixels) rfl rfl]
  · exact absurd hc hnot

/-- What is asked of a step, taken behind the steps `before`. -/
structure Step.Integral (before : List Step) (t : Step) : Prop where
  /-- In a command state no pixel is pending. -/
  empty : isCommand t.state = true → t.before.pixelCount = 0
  /-- The completion branch is taken when 256 pixels have been appended since the last
  completion or reset. -/
  completes : t.Completes ↔ t.switched.bits.nextState = 2 ∧
    ((history before).pixels ++ t.appended).length = 256
  /-- Those are the tile. -/
  decoded : t.Completes → t.switched.block.toList = (history before).pixels ++ t.appended
  /-- The tile is painted, with the rows from `y_clipped` on filled in the last row. -/
  clipped : t.Completes → t.completed.block =
    if t.switched.yClipped > 0 ∧ t.switched.lasty = t.switched.sizeY then
      DvcDecoder.fillClipped t.switched.block t.switched.yClipped
    else t.switched.block
  painted : t.completeHooks = if t.Completes ∧ t.switched.videoDetected then
    [.paste t.completed.block (t.switched.lastx * 16) (t.switched.lasty * 16) 16] else []
  /-- A repeat command paints what the last completion painted, if no reset came after it. -/
  repeats : ∀ b, isRepeat t.state = true → (history before).painted = some b →
    ∀ e ∈ t.switchHooks, ∃ x y, e = .paste b x y 16

/-- What is asked of a run: no pixel is pending in a command state, and every step is
`Step.Integral`. -/
structure Integral (ts : List Step) (cfg : Config) : Prop where
  empty : isCommand cfg.decoder.bits.decoderState = true → cfg.decoder.pixelCount = 0
  steps : ∀ before t after, ts = before ++ t :: after → t.Integral before

theorem Recorded.integral (h : Recorded ts cfg) : Integral ts cfg := by
  constructor
  case empty =>
    have hinv := h.inv
    cases cfg with
    | idle d => exact ByteInv.empty hinv
    | busy d => exact LoopInv.empty hinv
  rintro before t after rfl
  obtain ⟨hbefore, hwent⟩ := h.split
  have hinv : LoopInv t.before := hbefore.inv
  have hpend : Pending (history before) t.before := hbefore.pending
  refine ⟨hinv.empty, hpend.completes_iff hinv hwent, hpend.whole hinv hwent,
    hwent.completed_block, hwent.completeHooks_eq, ?_⟩
  intro b hr hb e he
  obtain ⟨hempty, hhooks⟩ := hwent.repeat_hooks hinv hr
  have hnone : (history before).pixels = [] := by rw [← hpend.pixels, hempty]; rfl
  rw [← hpend.painted b hb hnone]
  exact hhooks e he

/-- The decoder takes the whole stream, pastes what its steps paste, and keeps its tiles
whole. -/
def TakesWhole (bs : List UInt8) : Prop :=
  ∃ d ev ts, DvcDecoder.feed {} bs = .ok (d, ev) ∧ Recorded ts (.idle d) ∧
    pastes ev = pastes (ts.flatMap Step.hooks) ∧ Integral ts (.idle d)

/-- **Tile integrity.**  A stream is taken with its tiles whole if and only if no parameter
is stored past the end of `cmd_p_buff`; up to such a store they are whole in every run. -/
theorem tile_integrity (bs : List UInt8) : (TakesWhole bs ↔ DvcDecoder.StreamFits {} bs) ∧
    ∀ ts cfg, Recorded ts cfg → Integral ts cfg := by
  refine ⟨?_, fun ts cfg h => h.integral⟩
  rw [← feed_ok_iff .fresh]
  constructor
  · rintro ⟨d, ev, -, hfeed, -⟩
    exact ⟨d, ev, hfeed⟩
  · rintro ⟨d, ev, hfeed⟩
    obtain ⟨ts, hrec, hev⟩ := recorded_of_feed .start hfeed
    exact ⟨d, ev, ts, hfeed, hrec, hev, hrec.integral⟩

/-- A mode of one tile, and a tile of one colour: a pixel and a run of 255. -/
def greyTile : List Action :=
  Action.byteRounds 0x0D 8 ++ Action.byteRounds 0x10 2 ++ Action.byteRounds 0x08 3 ++
    Action.byteRounds 0xF0 6 ++ Action.byteRounds 0xFF 4 ++ Action.byteRounds 0xBF 1

theorem tile_integrity_grey : ∃ before t cfg, Recorded (before ++ [t]) cfg ∧ t.Completes ∧
    t.switched.block.toList = (history before).pixels ++ t.appended := by
  have hexec : (recorder.exec (fun _ _ => True) recorder.start greyTile).map
      (fun r => r.2.getLast?.map fun t => decide t.Completes) = some (some true) := by
    decide +kernel
  obtain ⟨⟨cfg, ts⟩, hts, hlast⟩ := Option.map_eq_some_iff.mp hexec
  obtain ⟨t, ht, hc⟩ := Option.map_eq_some_iff.mp hlast
  obtain ⟨before, rfl⟩ := List.getLast?_eq_some_iff.mp ht
  have hrec : Recorded (before ++ [t]) cfg := Machine.run_of_exec hts
  have hcomp : t.Completes := of_decide_eq_true hc
  have hstep := ((tile_integrity [0x0D, 0x10, 0x08, 0xF0, 0xFF, 0xBF]).2 _ cfg hrec).steps
    before t [] rfl
  exact ⟨before, t, cfg, hrec, hcomp, hstep.decoded hcomp⟩

/-- **Not every stream is taken**: a command of 258 parameters. -/
theorem tile_integrity_overrun : ¬ ∀ bs, TakesWhole bs := by
  intro hall
  obtain ⟨d, ev, -, hfeed, -⟩ := hall (paramOverrun ++ [0xFF])
  rw [feed_paramOverrun] at hfeed
  cases hfeed

end Ilo2.Dvc
