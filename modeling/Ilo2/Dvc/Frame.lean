import Ilo2.Dvc.Run
import Ilo2.Lib.Splice

/-!
# What a round leaves alone

Most states of the decoder read pixels, print characters or just bits.  `rest` is the part
of the decoder that they all leave alone: the position, the sizes and the command being
read.  The pixel states append to the block, the others append nothing (`Appends`).

* `dispatch_appends` - what a `switch` that neither moves nor reads a command has done.
* `caseCommand_cases`, `execCommand_cases` - what state 46 can do, a command at a time.
* `dispatch_layout` - a `switch` that does not move leaves the layout alone.
* `iterate_next` - a round that goes on, taken apart.
-/

namespace Ilo2.Dvc

open Checked Splice

namespace DvcDecoder

variable {d d' e : DvcDecoder} {s : Nat} {ev : List Event} {l m : List Nat}

/-- The decoder without its bits, its pixels, its palette and what it prints. -/
def rest (d : DvcDecoder) : DvcDecoder :=
  { d with
    bits := {}, cache := {}, block := Vector.replicate 256 0, pixelCount := 0, lastColor := 0
    color := 0, red := 0, green := 0, blue := 0, printchan := 0, printstring := ""
    fatalCount := 0, countBytes := 0, timeoutCount := 0, next1 := next1Init }

/-- The block of `d'` is that of `d` with the pixels `l` appended. -/
structure Fills (d : DvcDecoder) (l : List Nat) (d' : DvcDecoder) : Prop where
  count : d'.pixelCount = d.pixelCount + l.length
  block : d'.block.toList = splice d.block.toList d.pixelCount l

/-- `d'` is `d` with the pixels `l` appended to the block. -/
structure Appends (d : DvcDecoder) (l : List Nat) (d' : DvcDecoder) : Prop extends
    Fills d l d' where
  rest : d'.rest = d.rest

theorem Fills.none (hp : d'.pixelCount = d.pixelCount) (hb : d'.block = d.block) :
    Fills d [] d' where
  count := hp
  block := by rw [hb, splice_nil]

theorem Fills.block_eq (h : Fills d [] d') : d'.block = d.block :=
  Vector.toList_inj.mp (h.block.trans (splice_nil _ _))

/-- What was appended stands in the block. -/
theorem Fills.appended (h : Fills d l d') (hp : d.pixelCount ≤ 256) :
    (d'.block.toList.take d'.pixelCount).drop d.pixelCount = l := by
  rw [h.block, h.count]
  exact drop_take_splice (by simpa using hp)

theorem Fills.take (h : Fills d l d') (hp : d.pixelCount ≤ 256) :
    d'.block.toList.take d'.pixelCount = d.block.toList.take d.pixelCount ++ l := by
  rw [h.block, h.count]
  exact take_splice (by simpa using hp)

theorem Appends.none (hp : d'.pixelCount = d.pixelCount) (hb : d'.block = d.block)
    (hr : d'.rest = d.rest) : Appends d [] d' where
  toFills := .none hp hb
  rest := hr

theorem Appends.refl (d : DvcDecoder) : Appends d [] d := .none rfl rfl rfl

theorem Appends.trans (h : Appends d l e) (g : Appends e m d') (hp : d.pixelCount ≤ 256) :
    Appends d (l ++ m) d' where
  count := by rw [g.count, h.count, List.length_append, Nat.add_assoc]
  block := by rw [g.block, h.block, h.count, splice_splice (by simpa using hp)]
  rest := g.rest.trans h.rest

/-- The same block and count under other bits and colours. -/
theorem Appends.of_eq (h : Appends e l d') (hp : e.pixelCount = d.pixelCount)
    (hb : e.block = d.block) (hr : e.rest = d.rest) : Appends d l d' where
  count := hp ▸ h.count
  block := hp ▸ hb ▸ h.block
  rest := h.rest.trans hr

/-! ### The pixel states -/

theorem putPixel_appends (h : d.putPixel = .ok d') : ∃ l, Appends d l d' := by
  unfold putPixel at h
  split at h
  · cases h
    exact ⟨[], .none rfl rfl rfl⟩
  · rename_i hlt
    rw [wr_of_lt (Nat.lt_of_not_le hlt)] at h
    cases h
    refine ⟨[d.lastColor], ⟨rfl, ?_⟩, rfl⟩
    rw [Vector.toList_set]
    exact set_eq_splice _ (by simpa using hlt)

theorem emitRun_appends {n : Nat} : ∀ {d d' : DvcDecoder}, d.pixelCount ≤ 256 →
    emitRun n d = .ok d' → ∃ l, Appends d l d' := by
  induction n with
  | zero => intro d d' _ h; cases h; exact ⟨[], .refl d⟩
  | succ n ih =>
      intro d d' hp h
      unfold emitRun at h
      split at h
      · cases h
        exact ⟨[], .none rfl rfl rfl⟩
      · rename_i hlt
        have hone : d.putPixel = .ok { d with
            block := d.block.set d.pixelCount d.lastColor (Nat.lt_of_not_le hlt)
            pixelCount := d.pixelCount + 1 } := by
          unfold putPixel
          rw [if_neg hlt, wr_of_lt (Nat.lt_of_not_le hlt)]
          rfl
        rw [wr_of_lt (Nat.lt_of_not_le hlt)] at h
        obtain ⟨l, hl⟩ := putPixel_appends hone
        obtain ⟨m, hm⟩ := ih (show d.pixelCount + 1 ≤ 256 by omega) h
        exact ⟨l ++ m, hl.trans hm hp⟩

theorem putColor_appends {i : Int} (h : d.putColor i = .ok d') : ∃ l, Appends d l d' := by
  obtain ⟨c, -, hc⟩ := bind_eq_ok.mp h
  obtain ⟨l, hl⟩ := putPixel_appends hc
  exact ⟨l, hl.of_eq rfl rfl rfl⟩

theorem casePalette_appends (h : d.casePalette s = .ok d') : ∃ l, Appends d l d' := by
  obtain ⟨code, -, h⟩ := bind_eq_ok.mp h
  obtain ⟨⟨col, cache⟩, -, h⟩ := bind_eq_ok.mp h
  dsimp only at h
  split at h
  · cases h
    exact ⟨[], .none rfl rfl rfl⟩
  · obtain ⟨l, hl⟩ := putColor_appends h
    exact ⟨l, hl.of_eq rfl rfl rfl⟩

theorem caseRun_appends (hp : d.pixelCount ≤ 256) (h : d.caseRun = .ok d') :
    ∃ l, Appends d l d' := by
  unfold caseRun at h
  split at h
  · cases h
    exact ⟨[], .none rfl rfl rfl⟩
  · split at h
    · cases h
      exact ⟨[], .none rfl rfl rfl⟩
    · obtain ⟨l, hl⟩ := emitRun_appends (d := d.setCode (d.bits.code + 2)) hp h
      exact ⟨l, hl.of_eq rfl rfl rfl⟩

theorem caseColor_appends (h : d.caseColor = .ok d') : ∃ l, Appends d l d' := by
  obtain ⟨⟨hit, cache⟩, -, h⟩ := bind_eq_ok.mp h
  dsimp only at h
  split at h
  · cases h
    exact ⟨[], .none rfl rfl rfl⟩
  · obtain ⟨l, hl⟩ := putColor_appends h
    exact ⟨l, hl.of_eq rfl rfl rfl⟩

/-! ### The other states -/

theorem alignBits_appends (h : d.alignBits = .ok d') : Appends d [] d' := by
  unfold alignBits at h
  split at h
  · obtain ⟨b, -, hb⟩ := bind_eq_ok.mp h
    cases hb
    exact .none rfl rfl rfl
  · cases h
    exact .refl d

/-- What a command does: it sends the decoder to another state, aligns the bits for a new key,
or leaves the bits alone. -/
inductive Executed (d : DvcDecoder) : DvcDecoder → List Event → Prop
  | exits : Executed d (d.setNext 37) []
  | prints : Executed d (d.setNext 44) []
  | framerate (n : Nat) : Executed d { d with framerate := n } []
  | suspends : Executed d { d with screenX := 640, screenY := 100 }
      [.showText "Video suspended", .setStatus 2 "Video_suspended"]
  | firmware (n : Nat) : Executed d d [.firmware n]
  | rekey {e : DvcDecoder} (hcmd : d.cmdLast = 9) (hal : d.alignBits = .ok e) :
      Executed d e [.changeKey]
  | seizes : Executed d { d with seized := true }
      [.seize, .showText "Session Acquired by another user."]
  | skips : Executed d d []

theorem execCommand_cases (h : d.execCommand = .ok (d', ev)) : Executed d d' ev := by
  unfold execCommand at h
  split at h
  case h_7 hcmd =>
    obtain ⟨e, hal, h⟩ := bind_eq_ok.mp h
    cases h
    exact .rekey hcmd hal
  all_goals
    cases h
    constructor

/-- State 46 goes back for another parameter, or ends the command. -/
theorem caseCommand_cases (h : d.caseCommand = .ok (d', ev)) :
    (d.bits.code ≠ 0 ∧ d' = d ∧ ev = []) ∨
      d.bits.code = 0 ∧ ∃ e, d.execCommand = .ok (e, ev) ∧ d' = { e with cmdPCount := 0 } := by
  unfold caseCommand at h
  split at h
  · rename_i hcode
    cases h
    exact Or.inl ⟨hcode, rfl, rfl⟩
  · rename_i hcode
    obtain ⟨⟨e, ev'⟩, he, h⟩ := bind_eq_ok.mp h
    cases h
    exact Or.inr ⟨not_not.mp hcode, e, he, rfl⟩

theorem caseTimeout_appends (h : d.caseTimeout = .ok d') : Appends d [] d' := by
  obtain ⟨e, he, h⟩ := bind_eq_ok.mp h
  cases h
  have hal := alignBits_appends he
  split at hal <;> exact ⟨⟨hal.count, hal.block⟩, hal.rest⟩

theorem casePrint_appends (d : DvcDecoder) : Appends d [] d.casePrint.1 := by
  unfold casePrint
  split <;> exact .none rfl rfl rfl

theorem caseFatal_appends (d : DvcDecoder) : Appends d [] d.caseFatal.1 := by
  obtain ⟨n, ev, heq, -⟩ := d.caseFatal_counts
  rw [heq]
  exact .none rfl rfl rfl

theorem caseHunt_appends (d : DvcDecoder) (s : Nat) : Appends d [] (d.caseHunt s) := by
  unfold caseHunt
  split <;> exact .none rfl rfl rfl

theorem quiet_eq_ok {x : Except Fault DvcDecoder} (h : quiet x = .ok (d', ev)) :
    x = .ok d' ∧ ev = [] := by
  obtain ⟨e, he, h⟩ := bind_eq_ok.mp h
  cases h
  exact ⟨he, rfl⟩

/-- State 24 counts a parameter and stores the one before. -/
theorem caseParam_cases (h : d.caseParam = .ok d') : ∃ buff, d' =
    { d with cmdPBuff := buff, cmdPCount := d.cmdPCount + 1, cmdLast := d.bits.code } := by
  unfold caseParam at h
  split at h
  · obtain ⟨buff, -, h⟩ := bind_eq_ok.mp h
    cases h
    exact ⟨buff, rfl⟩
  · cases h
    exact ⟨d.cmdPBuff, rfl⟩

/-- The states that move, read a command or change the sizes. -/
def Directs (s : Nat) : Prop :=
  s = 0 ∨ s = 17 ∨ s = 20 ∨ s = 21 ∨ s = 24 ∨ s = 26 ∨ s = 29 ∨ s = 30 ∨ s = 34 ∨ s = 39 ∨
    s = 40 ∨ s = 46 ∨ s = 47

/-- **The `switch` in any other state** appends to the block, and leaves the rest alone. -/
theorem dispatch_appends (hp : d.pixelCount ≤ 256) (h : d.dispatch s = .ok (d', ev))
    (hs : ¬ Directs s) : ∃ l, Appends d l d' := by
  unfold Directs at hs
  unfold dispatch at h
  split at h
  case h_1 | h_2 | h_3 | h_4 | h_5 | h_6 => exact casePalette_appends (quiet_eq_ok h).1
  case h_7 => exact caseRun_appends hp (quiet_eq_ok h).1
  case h_8 =>
    obtain ⟨l, hl⟩ := emitRun_appends (d := d.setCode (d.bits.code + 8)) hp (quiet_eq_ok h).1
    exact ⟨l, hl.of_eq rfl rfl rfl⟩
  case h_9 => exact emitRun_appends hp (quiet_eq_ok h).1
  case h_10 => exact putPixel_appends (quiet_eq_ok h).1
  case h_14 =>
    obtain ⟨l, hl⟩ := caseColor_appends (quiet_eq_ok h).1
    exact ⟨l, hl.of_eq rfl rfl rfl⟩
  case h_15 => exact caseColor_appends (quiet_eq_ok h).1
  case h_21 =>
    obtain ⟨e, he, h⟩ := bind_eq_ok.mp h
    cases h
    exact ⟨[], caseTimeout_appends he⟩
  case h_25 =>
    obtain ⟨rfl, -⟩ := ok_pair h
    exact ⟨[], casePrint_appends d⟩
  case h_27 =>
    obtain ⟨rfl, -⟩ := ok_pair h
    exact ⟨[], caseFatal_appends d⟩
  case h_33 => cases h; exact ⟨[], caseHunt_appends d 43⟩
  case h_11 | h_12 | h_13 | h_24 | h_34 => cases h; exact ⟨[], .none rfl rfl rfl⟩
  all_goals exact absurd hs (by decide)

/-! ### The layout -/

/-- Where the next tile goes: the position, the sizes, the clipping and whether there is
video. -/
def layout (d : DvcDecoder) : (Nat × Nat × Nat) × (Nat × Nat) × Int × Bool :=
  ((d.lastx, d.lasty, d.newx), (d.sizeX, d.sizeY), d.yClipped, d.videoDetected)

/-- The states that move or change the sizes. -/
def Places (s : Nat) : Prop :=
  s = 0 ∨ s = 17 ∨ s = 20 ∨ s = 21 ∨ s = 26 ∨ s = 29 ∨ s = 30 ∨ s = 34 ∨ s = 39 ∨ s = 40 ∨ s = 47

instance (s : Nat) : Decidable (Places s) := by
  unfold Places
  infer_instance

theorem Executed.layout (h : Executed d d' ev) : d'.layout = d.layout := by
  cases h with
  | rekey _ hal =>
      have hrest : d'.rest.layout = d.rest.layout := congrArg DvcDecoder.layout
        (alignBits_appends hal).rest
      exact hrest
  | _ => rfl

theorem caseCommand_layout (h : d.caseCommand = .ok (d', ev)) : d'.layout = d.layout := by
  obtain ⟨-, rfl, -⟩ | ⟨-, e, he, rfl⟩ := caseCommand_cases h
  · rfl
  · exact (execCommand_cases he).layout

theorem dispatch_layout (hp : d.pixelCount ≤ 256) (h : d.dispatch s = .ok (d', ev))
    (hs : ¬ Places s) : d'.layout = d.layout := by
  by_cases h24 : s = 24
  · subst h24
    obtain ⟨buff, rfl⟩ := caseParam_cases (quiet_eq_ok h).1
    rfl
  by_cases h46 : s = 46
  · subst h46
    exact caseCommand_layout h
  have hd : ¬ Directs s := by
    unfold Places at hs
    unfold Directs
    omega
  obtain ⟨l, hl⟩ := dispatch_appends hp h hd
  have hrest : d'.rest.layout = d.rest.layout := congrArg layout hl.rest
  exact hrest

/-! ### What a round went through -/

/-- The three parts of a round that goes on. -/
structure Went (d d₁ d₂ d₃ : DvcDecoder) (ev ev' : List Event) : Prop where
  bits : width d.bits.decoderState ≤ d.bits.ibBcnt
  fetch : d.fetch (width d.bits.decoderState) = .ok d₁
  state : d₁.bits.decoderState ≠ 37
  dispatch : d₁.dispatch d₁.bits.decoderState = .ok (d₂, ev)
  complete : d₂.complete = .ok (d₃, ev')

theorem iterate_next (hlt : d.bits.decoderState < 48) (h : d.iterate = .ok (.next d' ev)) :
    ∃ d₁ d₂ d₃ ev₁ ev₂, Went d d₁ d₂ d₃ ev₁ ev₂ ∧ ev = ev₁ ++ ev₂ ∧
      d' = { d₃ with bits.decoderState := d₃.bits.nextState } := by
  rw [iterate_eq hlt] at h
  split at h
  · cases h
  rename_i hbits
  obtain ⟨d₁, hfetch, h⟩ := bind_eq_ok.mp h
  unfold act at h
  split at h
  · cases h
  rename_i h37
  obtain ⟨⟨d₂, ev₁⟩, hdisp, h⟩ := bind_eq_ok.mp h
  obtain ⟨⟨d₃, ev₂⟩, hcomp, h⟩ := bind_eq_ok.mp h
  unfold advance at h
  dsimp only at h
  split at h
  · cases h
  · cases h
    exact ⟨d₁, d₂, d₃, ev₁, ev₂, ⟨Nat.le_of_not_lt hbits, hfetch, h37, hdisp, hcomp⟩, rfl, rfl⟩

end DvcDecoder

end Ilo2.Dvc
