import Ilo2.Dvc.Frame

/-!
# The command parameter buffer

State 24 stores the previous parameter at `cmd_p_buff[cmd_p_count - 1]` and counts the
new one.  A 1 bit in state 46 sends it back to state 24 and nothing bounds that loop:
only a 0 bit in state 46, or a reset, clears `cmd_p_count`.

* `paramOverrun` - the stream after which the next parameter is stored at index 256,
  one past the end.
* `command_index_le` - **as long as the loop is left in time, every store is inside the
  buffer**: `InTime` asks for a 0 bit once 257 parameters have been read.
-/

namespace Ilo2.Dvc

open Checked

namespace DvcDecoder

variable {d d' : DvcDecoder} {s : Nat} {ev : List Event}

/-! ### What a round does to the command -/

/-- The command being read: its parameter count, its last parameter and the others. -/
def command (d : DvcDecoder) : Nat × Nat × Vector Nat 256 := (d.cmdPCount, d.cmdLast, d.cmdPBuff)

/-- Only states 24, 46 and 0 touch the command. -/
theorem dispatch_command (hp : d.pixelCount ≤ 256) (h : d.dispatch s = .ok (d', ev))
    (h24 : s ≠ 24) (h46 : s ≠ 46) (h0 : s ≠ 0) : d'.command = d.command := by
  by_cases h47 : s = 47
  · subst h47
    obtain ⟨rfl, -⟩ : d.caseMode.1 = d' ∧ d.caseMode.2 = ev := ok_pair h
    unfold caseMode
    dsimp only
    split <;> rfl
  by_cases hs : Directs s
  · unfold Directs at hs
    rcases hs with rfl | rfl | rfl | rfl | rfl | rfl | rfl | rfl | rfl | rfl | rfl | rfl | rfl
    all_goals first | contradiction | (cases h; rfl)
  · obtain ⟨l, hl⟩ := dispatch_appends hp h hs
    have hrest : d'.rest.command = d.rest.command := congrArg command hl.rest
    exact hrest

theorem complete_command (h : d.complete = .ok (d', ev)) : d'.command = d.command := by
  unfold complete at h
  split at h
  · obtain ⟨c, -, h⟩ := bind_eq_ok.mp h
    cases h; rfl
  · cases h; rfl

/-- A fetch changes the bits and the successor only. -/
theorem fetch_eq {d d' : DvcDecoder} {need : Nat} (h : d.fetch need = .ok d') :
    d' = { d with bits := d'.bits } ∧ d'.bits.decoderState = d.bits.decoderState := by
  obtain ⟨b, hb, h⟩ := bind_eq_ok.mp h
  obtain ⟨n, -, h⟩ := bind_eq_ok.mp h
  cases h
  refine ⟨rfl, ?_⟩
  unfold DvcBits.getBits at hb
  split_ifs at hb <;> cases hb <;> rfl

/-- The loop is left in state 37, before the `switch` has done anything. -/
theorem iterate_exit {d d' : DvcDecoder} {n : Nat} {ev : List Event} (hinv : LoopInv d)
    (h : d.iterate = .ok (.exit n d' ev)) :
    d.bits.decoderState = 37 ∧ d.fetch (width 37) = .ok d' ∧ ev = [] := by
  have h37 := (iterate_keeps hinv h).2.1
  rw [iterate_eq hinv.lt, h37] at h
  split at h
  · cases h
  obtain ⟨d₁, hfetch, h⟩ := bind_eq_ok.mp h
  have hst := (fetch_eq hfetch).2
  unfold act at h
  rw [if_pos (hst.trans h37)] at h
  cases h
  exact ⟨h37, hfetch, rfl⟩

end DvcDecoder

/-! ### The invariant of the count -/

/-- What is asked of a round: with 257 parameters read, state 46 reads a 0 bit. -/
def InTime (d : DvcDecoder) : Prop :=
  d.bits.decoderState = 46 → 257 ≤ d.cmdPCount → d.bits.ibAcc &&& 1 = 0

instance (d : DvcDecoder) : Decidable (InTime d) := by
  unfold InTime
  infer_instance

/-- The count is 0 outside a command, and small enough when a parameter arrives.  A reset
marker may come at any time, so states 43 and 0 are free. -/
structure CountInv (d : DvcDecoder) : Prop where
  param : d.bits.decoderState = 24 → d.cmdPCount ≤ 256
  outside : d.bits.decoderState ≠ 24 → d.bits.decoderState ≠ 46 → d.bits.decoderState ≠ 43 →
    d.bits.decoderState ≠ 0 → d.cmdPCount = 0

theorem CountInv.of_free {d : DvcDecoder}
    (h : d.bits.decoderState = 46 ∨ d.bits.decoderState = 43 ∨ d.bits.decoderState = 0) :
    CountInv d where
  param hs := by omega
  outside h24 h46 h43 h0 := by omega

theorem CountInv.of_le {d : DvcDecoder} (hs : d.bits.decoderState = 24) (h : d.cmdPCount ≤ 256) :
    CountInv d where
  param _ := h
  outside h24 := absurd hs h24

theorem CountInv.of_zero {d : DvcDecoder} (h : d.cmdPCount = 0) : CountInv d where
  param _ := by omega
  outside _ _ _ _ := h

namespace DvcDecoder

variable {d d' : DvcDecoder} {ev : List Event}

/-- The successor that a round looks up. -/
theorem fetch_look {need : Nat} (hlt : d.bits.decoderState < 48) (h : d.fetch need = .ok d') :
    d'.bits.nextState = look 0 (if d'.bits.code = 0 then next0 else d.next1) d.bits.decoderState := by
  have hst := (fetch_eq h).2
  obtain ⟨b, hb, h⟩ := bind_eq_ok.mp h
  obtain ⟨n, hn, h⟩ := bind_eq_ok.mp h
  cases h
  have hst : b.decoderState = d.bits.decoderState := hst
  rw [hst, rd_eq_look 0 hlt] at hn
  exact (Except.ok.inj hn).symm

/-- It comes from the tables; the patched entry is that of the palette. -/
theorem fetch_next_eq {need : Nat} (hd : DataInv d) (hlt : d.bits.decoderState < 48)
    (h : d.fetch need = .ok d') : d'.bits.nextState =
      if d'.bits.code = 0 then look 0 next0 d.bits.decoderState
      else if d.bits.decoderState = 31 then d.cache.next131
      else look 0 next1Init d.bits.decoderState := by
  rw [fetch_look hlt h]
  split
  · rfl
  · rw [hd.next1, look_set (by decide)]

theorem fetch_next {need : Nat} (hd : DataInv d) (hlt : d.bits.decoderState < 48)
    (h31 : d.bits.decoderState ≠ 31) (h : d.fetch need = .ok d') :
    d'.bits.nextState =
      look 0 (if d'.bits.code = 0 then next0 else next1Init) d.bits.decoderState := by
  rw [fetch_next_eq hd hlt h, if_neg h31]
  split <;> rfl

/-- The bit that a state of width 1 reads. -/
theorem fetch_bit (h : d.fetch 1 = .ok d') : d'.bits.code = d.bits.ibAcc &&& 1 := by
  obtain ⟨b, hb, h⟩ := bind_eq_ok.mp h
  obtain ⟨n, -, h⟩ := bind_eq_ok.mp h
  cases h
  unfold DvcBits.getBits at hb
  split at hb
  · cases hb
  · cases hb; rfl

theorem complete_of_ne (h : d.bits.nextState ≠ 2) : d.complete = .ok (d, []) :=
  if_neg fun hc => h hc.1

/-! ### The states of a command -/

namespace Went

variable {d₁ d₂ d₃ : DvcDecoder} {ev₁ ev₂ : List Event}

/-- Only a round that leads to state 2 completes a tile. -/
theorem completed (hw : Went d d₁ d₂ d₃ ev₁ ev₂) (h : d₂.bits.nextState ≠ 2) : d₃ = d₂ := by
  have hcomp := hw.complete
  rw [complete_of_ne h] at hcomp
  cases hcomp
  rfl

theorem dispatched (hw : Went d d₁ d₂ d₃ ev₁ ev₂) :
    d₁.dispatch d.bits.decoderState = .ok (d₂, ev₁) := by
  rw [← (fetch_eq hw.fetch).2]
  exact hw.dispatch

/-- State 24 counts the parameter and leads to state 46. -/
theorem param_next (hw : Went d d₁ d₂ d₃ ev₁ ev₂) (hinv : LoopInv d)
    (h24 : d.bits.decoderState = 24) : d₃.bits.nextState = 46 := by
  have hnext := fetch_next hinv.data hinv.lt (by omega) hw.fetch
  have hn46 : d₁.bits.nextState = 46 := by
    rw [hnext, h24]
    split <;> decide
  have hdisp := hw.dispatched
  rw [h24] at hdisp
  obtain ⟨buff, rfl⟩ := caseParam_cases (quiet_eq_ok hdisp).1
  have hn : ({ d₁ with
      cmdPBuff := buff, cmdPCount := d₁.cmdPCount + 1
      cmdLast := d₁.bits.code } : DvcDecoder).bits.nextState = 46 := hn46
  rw [hw.completed (by rw [hn]; decide)]
  exact hn

/-- State 46 goes back for one more parameter, of which there are at most 256, or it ends the
command and clears the count. -/
theorem command_next (hw : Went d d₁ d₂ d₃ ev₁ ev₂) (hinv : LoopInv d) (hin : InTime d)
    (h46 : d.bits.decoderState = 46) :
    (d₃.bits.nextState = 24 ∧ d₃.cmdPCount ≤ 256) ∨ d₃.cmdPCount = 0 := by
  have hcount : d₁.cmdPCount = d.cmdPCount := by rw [(fetch_eq hw.fetch).1]
  have hw1 : width d.bits.decoderState = 1 := by rw [h46]; decide
  have hbit : d₁.bits.code = d.bits.ibAcc &&& 1 := fetch_bit (hw1 ▸ hw.fetch)
  have hdisp := hw.dispatched
  rw [h46] at hdisp
  have hdisp : d₁.caseCommand = .ok (d₂, ev₁) := hdisp
  obtain ⟨hcode, rfl, -⟩ | ⟨-, e, -, rfl⟩ := caseCommand_cases hdisp
  · have hnext := fetch_next hinv.data hinv.lt (by omega) hw.fetch
    have hn24 : d₂.bits.nextState = 24 := by
      rw [hnext, h46, if_neg hcode]
      decide
    rw [hw.completed (by rw [hn24]; decide)]
    refine Or.inl ⟨hn24, ?_⟩
    by_contra hlarge
    exact hcode (hbit.trans (hin h46 (by omega)))
  · exact Or.inr (congrArg Prod.fst (complete_command hw.complete))

/-- State 43 hunts on, or state 0 follows. -/
theorem hunt_next (hw : Went d d₁ d₂ d₃ ev₁ ev₂) (hinv : LoopInv d)
    (h43 : d.bits.decoderState = 43) :
    (d₂.bits.nextState = 43 ∨ d₂.bits.nextState = 0) ∧ d₃ = d₂ := by
  have hnext := fetch_next hinv.data hinv.lt (by omega) hw.fetch
  have hn : d₁.bits.nextState = 43 ∨ d₁.bits.nextState = 0 := by
    rw [hnext, h43]
    split
    · exact Or.inl (by decide)
    · exact Or.inr (by decide)
  have hdisp := hw.dispatched
  rw [h43] at hdisp
  cases hdisp
  have hkeep : (d₁.caseHunt 43).bits.nextState = d₁.bits.nextState := by
    unfold caseHunt
    split <;> rfl
  rw [← hkeep] at hn
  exact ⟨hn, hw.completed (by omega)⟩

/-- The other states leave the count alone, but for a reset, which clears it. -/
theorem count_keeps (hw : Went d d₁ d₂ d₃ ev₁ ev₂) (hinv : LoopInv d)
    (h24 : d.bits.decoderState ≠ 24) (h46 : d.bits.decoderState ≠ 46)
    (h0 : d.bits.decoderState ≠ 0) : d₃.cmdPCount = d.cmdPCount := by
  have hd₁ := (fetch_eq hw.fetch).1
  have hpix : d₁.pixelCount ≤ 256 := by rw [hd₁]; exact hinv.data.pixels
  have hcount : d₁.cmdPCount = d.cmdPCount := by rw [hd₁]
  have hkeep := dispatch_command hpix hw.dispatched h24 h46 h0
  exact (congrArg Prod.fst ((complete_command hw.complete).trans hkeep)).trans hcount

end Went

/-- **A round keeps the count in hand**, if the loop of states 24 and 46 is left in time. -/
theorem iterate_count (hinv : LoopInv d) (hin : InTime d) (hc : CountInv d)
    (h : d.iterate = .ok (.next d' ev)) : CountInv d' := by
  obtain ⟨d₁, d₂, d₃, ev₁, ev₂, hw, -, rfl⟩ := iterate_next hinv.lt h
  by_cases h24 : d.bits.decoderState = 24
  · exact .of_free (Or.inl (hw.param_next hinv h24))
  by_cases h46 : d.bits.decoderState = 46
  · rcases hw.command_next hinv hin h46 with ⟨hn24, hle⟩ | hzero
    · exact .of_le hn24 hle
    · exact .of_zero hzero
  by_cases h0 : d.bits.decoderState = 0
  · have hdisp := hw.dispatched
    rw [h0] at hdisp
    cases hdisp
    exact .of_zero (congrArg Prod.fst (complete_command hw.complete))
  by_cases h43 : d.bits.decoderState = 43
  · obtain ⟨hn, rfl⟩ := hw.hunt_next hinv h43
    exact .of_free (Or.inr hn)
  · exact .of_zero ((hw.count_keeps hinv h24 h46 h0).trans (hc.outside h24 h46 h43 h0))

end DvcDecoder

/-- The count between two rounds of a run. -/
def Config.CountInv : Config → Prop
  | .idle d => Dvc.CountInv d
  | .busy d => Dvc.CountInv d

theorem Run.countInv {bs : List UInt8} {cfg : Config} (h : Run InTime bs cfg) : cfg.CountInv := by
  induction h with
  | start => exact CountInv.of_free (Or.inr (Or.inr rfl))
  | @byte bs d d' c hrun henter ih =>
      obtain ⟨e, he, -, heq, hst⟩ := enter_ok (d := d) hrun.inv c
      rw [henter] at he
      cases he
      have hcount : d'.cmdPCount = d.cmdPCount := by rw [heq]
      rcases hst with hst | hst
      · exact CountInv.of_free (Or.inr (Or.inl hst))
      · have ih : Dvc.CountInv d := ih
        exact ⟨fun h => hcount ▸ ih.param (hst ▸ h),
          fun h24 h46 h43 h0 => hcount ▸ ih.outside (hst ▸ h24) (hst ▸ h46) (hst ▸ h43) (hst ▸ h0)⟩
  | @round bs d d' ev hrun hin hit ih => exact DvcDecoder.iterate_count hrun.inv hin ih hit
  | wait _ _ ih => exact ih
  | @exit bs d d' n ev hrun _ hit ih =>
      obtain ⟨h37, hfetch, -⟩ := DvcDecoder.iterate_exit (d := d) hrun.inv hit
      have ih : Dvc.CountInv d := ih
      have hcount : d'.cmdPCount = d.cmdPCount := by rw [(DvcDecoder.fetch_eq hfetch).1]
      exact CountInv.of_zero (hcount.trans (ih.outside (by omega) (by omega) (by omega) (by omega)))

/-- **Every store is inside the buffer**, in every run in which the loop of states 24 and
46 is left in time. -/
theorem command_index_le (bs : List UInt8) (d : DvcDecoder) (h : Run InTime bs (.busy d))
    (hs : d.bits.decoderState = 24) : d.cmdPCount ≤ 256 ∧ d.cmdPCount - 1 < 256 := by
  have hc : CountInv d := h.countInv
  have := hc.param hs
  exact ⟨this, by omega⟩

/-- Bytes, and rounds that are in time: `none` is a round. -/
def drive : List (Option UInt8) → Config → Option Config
  | [], cfg => some cfg
  | some c :: as, .idle d =>
      match d.enter c with
      | .ok e => drive as (.busy e)
      | .error _ => none
  | none :: as, .busy d =>
      if InTime d then
        match d.iterate with
        | .ok .wait => drive as (.idle d)
        | .ok (.next e _) => drive as (.busy e)
        | _ => none
      else none
  | _, _ => none

theorem Run.drive {as : List (Option UInt8)} : ∀ {bs : List UInt8} {cfg cfg' : Config},
    Run InTime bs cfg → Dvc.drive as cfg = some cfg' →
      Run InTime (bs ++ as.filterMap id) cfg' := by
  induction as with
  | nil =>
      intro bs cfg cfg' hrun h
      cases h
      rwa [List.filterMap_nil, List.append_nil]
  | cons a as ih =>
      intro bs cfg cfg' hrun h
      unfold Dvc.drive at h
      split at h
      case h_2 c as' d heq =>
        cases heq
        split at h
        · rename_i e henter
          have hcons : (some c :: as).filterMap id = c :: as.filterMap id := rfl
          rw [hcons, List.append_cons]
          exact ih (hrun.byte c henter) h
        · cases h
      case h_3 as' d heq =>
        cases heq
        rw [List.filterMap_cons_none rfl]
        split at h
        · rename_i hin
          split at h
          · rename_i hit
            exact ih (hrun.wait hit) h
          · rename_i e ev hit
            exact ih (hrun.round hin hit) h
          · cases h
        · cases h
      all_goals contradiction

/-- A byte and `k` rounds. -/
def byteThen (c : UInt8) (k : Nat) : List (Option UInt8) := some c :: List.replicate k none

/-- A command of four parameters, up to the round that counts the fourth. -/
def fourParams : List (Option UInt8) :=
  byteThen 0xFD 7 ++ byteThen 0xFF 3 ++ byteThen 0xFF 3 ++ byteThen 0xFF 3 ++ byteThen 0xFF 0

theorem command_index_le_start : ∃ d, Run InTime [0xFD, 0xFF, 0xFF, 0xFF, 0xFF] (.busy d) ∧
    d.bits.decoderState = 24 ∧ d.bits.ibBcnt = 8 ∧ d.cmdPCount = 3 ∧
    d.cmdPCount ≤ 256 ∧ d.cmdPCount - 1 < 256 := by
  have hdrive : (drive fourParams (.idle {})).map (fun
      | .busy d => some (d.bits.decoderState, d.bits.ibBcnt, d.cmdPCount)
      | .idle _ => none) = some (some (24, 8, 3)) := by decide +kernel
  obtain ⟨cfg, hcfg, hobs⟩ := Option.map_eq_some_iff.mp hdrive
  cases cfg with
  | idle d => cases hobs
  | busy d =>
      simp only [Option.some.injEq, Prod.mk.injEq] at hobs
      obtain ⟨hst, hbits, hcount⟩ := hobs
      have hrun := Run.start.drive hcfg
      exact ⟨d, hrun, hst, hbits, hcount, command_index_le _ d hrun hst⟩

/-! ### The overrun -/

/-- A command of 258 parameters, up to the last byte: 5 bits that lead to state 24, and
1 bits. -/
def paramOverrun : List UInt8 := 0xFD :: List.replicate 289 0xFF

/-- State, bits and parameter count at the first round of the next byte. -/
def nextRound (bs : List UInt8) (c : UInt8) : Option (Nat × Nat × Nat) :=
  match DvcDecoder.feed {} bs >>= fun r => r.1.enter c with
  | .ok d => some (d.bits.decoderState, d.bits.ibBcnt, d.cmdPCount)
  | .error _ => none

theorem nextRound_paramOverrun : nextRound paramOverrun 0xFF = some (24, 10, 257) := by
  decide +kernel

theorem nextRound_spec {bs : List UInt8} {c : UInt8} {st bits count : Nat}
    (h : nextRound bs c = some (st, bits, count)) : ∃ d ev e, DvcDecoder.feed {} bs = .ok (d, ev) ∧
      d.enter c = .ok e ∧ e.bits.decoderState = st ∧ e.bits.ibBcnt = bits ∧ e.cmdPCount = count := by
  unfold nextRound at h
  split at h
  · rename_i e hnext
    obtain ⟨⟨d, ev⟩, hfeed, henter⟩ := bind_eq_ok.mp hnext
    simp only [Option.some.injEq, Prod.mk.injEq] at h
    exact ⟨d, ev, e, hfeed, henter, h⟩
  · cases h

/-- The buffer is full when the next byte arrives. -/
theorem enter_paramOverrun : ∃ d ev e, DvcDecoder.feed {} paramOverrun = .ok (d, ev) ∧
    d.enter 0xFF = .ok e ∧ e.bits.decoderState = 24 ∧ e.bits.ibBcnt = 10 ∧ e.cmdPCount = 257 :=
  nextRound_spec nextRound_paramOverrun

/-- **The buffer overruns**: after `paramOverrun`, a byte of eight 1 bits makes state 24
store at index 256. -/
theorem command_overruns : ¬ ∀ (bs : List UInt8) (d : DvcDecoder),
    Run (fun _ => True) bs (.busy d) → d.bits.decoderState = 24 → width 24 ≤ d.bits.ibBcnt →
    d.cmdPCount ≠ 0 → d.cmdPCount - 1 ≤ 255 := by
  intro hall
  obtain ⟨d, ev, e, hfeed, henter, hst, hbc, hcount⟩ := enter_paramOverrun
  have hrun : Run (fun _ => True) paramOverrun (.idle d) :=
    run_of_feed (fun _ => trivial) .start hfeed
  have hw : width 24 = 8 := by decide
  have := hall _ e (hrun.byte 0xFF henter) hst (by omega) (by omega)
  omega

/-- That byte is where the decoder stops. -/
theorem feed_paramOverrun :
    DvcDecoder.feed {} (paramOverrun ++ [0xFF]) = .error (.command 256) := by
  obtain ⟨d, ev, e, hfeed, henter, hst, hbc, hcount⟩ := enter_paramOverrun
  have hd : ByteInv d := feed_keeps .fresh hfeed
  have he : LoopInv e := by
    obtain ⟨e', he', hinv, -⟩ := enter_ok hd 0xFF
    rw [henter] at he'
    cases he'
    exact hinv
  have hfits : ¬ Fits e := by
    have hw : width 24 = 8 := by decide
    intro hfits
    have := hfits hst (by omega)
    omega
  have hstop : e.iterate = .error (.command 256) := by
    rw [(iterate_overruns he hfits).2, hcount]
  have hbyte : d.processDvc 0xFF = .error (.command 256) := by
    rw [processDvc_eq hd henter, DvcDecoder.rounds, DvcDecoder.loop, hstop]
    rfl
  rw [feed_append hfeed, DvcDecoder.feed, hbyte]
  rfl

end Ilo2.Dvc
