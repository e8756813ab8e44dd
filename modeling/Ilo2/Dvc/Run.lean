import Ilo2.Dvc.Invariant

/-!
# Runs of the decoder

`Run allow bs cfg` says that a fresh decoder that has been given the bytes `bs` stands
at `cfg`: between two bytes, or before a round of the loop of `process_bits`.  Every
round taken on the way starts in a decoder that `allow` accepts, so `Run fun _ => True`
is every run of the program.

* `run_of_feed` - `feed`, the program itself, is such a run.
* `feed_ok_iff` - **a stream is taken if and only if its parameters go into the buffer**;
  `StreamFits` says so of every round.
* `decoder_safe` - **no stream makes the decoder leave another array, shift too far, ask for
  bits it does not have or loop forever**.
-/

namespace Ilo2.Dvc

open Checked

/-! ### A byte -/

section Loop

variable {d d' : DvcDecoder} {n fuel : Nat} {ev : List Event}

theorem loop_wait (h : d.iterate = .ok .wait) :
    DvcDecoder.loop (fuel + 1) d = .ok (0, d, []) := by
  rw [DvcDecoder.loop, h, ok_bind]

theorem loop_exit (h : d.iterate = .ok (.exit n d' ev)) :
    DvcDecoder.loop (fuel + 1) d = .ok (n, d', ev) := by
  rw [DvcDecoder.loop, h, ok_bind]

theorem loop_next (h : d.iterate = .ok (.next d' ev)) : DvcDecoder.loop (fuel + 1) d =
    DvcDecoder.loop fuel d' >>= fun r => .ok (r.1, r.2.1, ev ++ r.2.2) := by
  rw [DvcDecoder.loop, h, ok_bind]

end Loop

/-- No round of the loop stores a parameter past the end of `cmd_p_buff`. -/
def LoopFits : (fuel : Nat) → DvcDecoder → Prop
  | 0, _ => True
  | fuel + 1, d =>
      Fits d ∧
        match d.iterate with
        | .ok (.next d' _) => LoopFits fuel d'
        | _ => True

section Fuel

variable {d : DvcDecoder} {fuel : Nat}

/-- A round that waits leaves too few bits for the state, so the next byte finds room. -/
theorem ByteInv.of_wait (h : LoopInv d) (hwait : d.bits.ibBcnt < width d.bits.decoderState) :
    ByteInv d := by
  have hw := width_le _ h.lt
  have h46 : width 46 = 1 := by decide
  have h37 : width 37 = 0 := by decide
  refine ⟨h.data, h.lt, h.next_lt, h.empty, by omega, fun hst => ?_, fun hst => ?_⟩
  · rw [hst, h46] at hwait
    omega
  · rw [hst, h37] at hwait
    omega

/-- **What the loop leaves behind**: it waits for a byte, or it was left in state 37. -/
theorem loop_keeps {d' : DvcDecoder} {n : Nat} {ev : List Event} (h : LoopInv d)
    (hloop : DvcDecoder.loop fuel d = .ok (n, d', ev)) :
    (n = 0 ∧ ByteInv d') ∨ (n = 1 ∧ DataInv d' ∧ d'.bits.ibBcnt ≤ 7) := by
  induction fuel generalizing d ev with
  | zero => cases hloop
  | succ fuel ih =>
      obtain ⟨r, hr, hround⟩ := bind_eq_ok.mp hloop
      have hkeeps := iterate_keeps h hr
      cases r with
      | wait =>
          cases hround
          exact Or.inl ⟨rfl, .of_wait h hkeeps⟩
      | exit m e ev' =>
          cases hround
          obtain ⟨hm, -, hd, hb⟩ := hkeeps
          exact Or.inr ⟨hm, hd, hb⟩
      | next e ev' =>
          obtain ⟨⟨m, e', ev''⟩, hrec, he⟩ := bind_eq_ok.mp hround
          cases he
          exact ih hkeeps.1 hrec

/-- **The loop ends by itself**, if its rounds store inside `cmd_p_buff`. -/
theorem loop_of_fits (h : LoopInv d) (hm : measure d < fuel) (hfits : LoopFits fuel d) :
    ∃ n d' ev, DvcDecoder.loop fuel d = .ok (n, d', ev) := by
  induction fuel generalizing d with
  | zero => omega
  | succ fuel ih =>
      obtain ⟨hround, hrest⟩ := hfits
      obtain ⟨r, hr, hkeeps⟩ := iterate_ok h hround
      cases r with
      | wait => exact ⟨_, _, _, loop_wait hr⟩
      | exit n d' ev => exact ⟨_, _, _, loop_exit hr⟩
      | next d' ev =>
          obtain ⟨hd', hlt⟩ := hkeeps
          rw [hr] at hrest
          obtain ⟨n, e, ev', hrec⟩ := ih hd' (by omega) hrest
          exact ⟨n, e, ev ++ ev', by rw [loop_next hr, hrec, ok_bind]⟩

/-- Otherwise the first store past the end stops it. -/
theorem loop_overruns (h : LoopInv d) (hm : measure d < fuel) (hfits : ¬ LoopFits fuel d) :
    ∃ i, 256 ≤ i ∧ DvcDecoder.loop fuel d = .error (.command i) := by
  induction fuel generalizing d with
  | zero => omega
  | succ fuel ih =>
      by_cases hround : Fits d
      · obtain ⟨r, hr, hkeeps⟩ := iterate_ok h hround
        rw [LoopFits, hr, and_iff_right hround] at hfits
        cases r with
        | wait => exact absurd trivial hfits
        | exit n d' ev => exact absurd trivial hfits
        | next d' ev =>
            obtain ⟨hd', hlt⟩ := hkeeps
            obtain ⟨i, hi, hrec⟩ := ih hd' (by omega) hfits
            refine ⟨i, hi, ?_⟩
            rw [loop_next hr, hrec]
            rfl
      · obtain ⟨hcount, hit⟩ := iterate_overruns h hround
        refine ⟨d.cmdPCount - 1, by omega, ?_⟩
        rw [DvcDecoder.loop, hit]
        rfl

/-- Fuel beyond the measure is never used. -/
theorem loop_fuel {k m : Nat} (h : LoopInv d) (hk : measure d < k) (hm : measure d < m) :
    DvcDecoder.loop k d = DvcDecoder.loop m d := by
  induction k generalizing d m with
  | zero => omega
  | succ k ih =>
      obtain ⟨m, rfl⟩ : ∃ m', m = m' + 1 := ⟨m - 1, by omega⟩
      rw [DvcDecoder.loop, DvcDecoder.loop]
      cases hr : d.iterate with
      | error f => rfl
      | ok r =>
          have hkeeps := iterate_keeps h hr
          cases r with
          | wait => rfl
          | exit n d' ev => rfl
          | next d' ev =>
              obtain ⟨hd', hlt⟩ := hkeeps
              rw [ok_bind, ok_bind]
              dsimp only
              rw [ih hd' (by omega) (by omega : measure d' < m)]

end Fuel

/-- The measure of the invariant stays below the bound of the program. -/
theorem measure_lt_rounds (d : DvcDecoder) : measure d < d.rounds := by
  unfold measure DvcDecoder.rounds
  split_ifs <;> omega

/-- Taking in a byte leads to the loop, in the same state or in `HUNT`. -/
theorem enter_ok {d : DvcDecoder} (h : ByteInv d) (c : UInt8) :
    ∃ d', d.enter c = .ok d' ∧ LoopInv d' ∧
      d' = { d with bits := d'.bits, countBytes := d.countBytes + 1 } ∧
      (d'.bits.decoderState = HUNT ∨ d'.bits.decoderState = d.bits.decoderState) := by
  have hb := h.bcnt
  obtain ⟨r, acc, zc, st, nx, hadd, hst⟩ := d.bits.addBits_ok c (by omega)
  unfold DvcDecoder.enter
  rw [hadd, ok_bind]
  refine ⟨_, rfl, ⟨h.data.of_eq rfl rfl rfl rfl h.data.pixels rfl, ?_, ?_, ?_, ?_, ?_, ?_⟩, rfl, ?_⟩
  all_goals dsimp only
  all_goals rcases hst with ⟨rfl, rfl⟩ | ⟨rfl, rfl⟩
  · decide
  · exact h.lt
  · decide
  · exact h.next_lt
  · intro hc
    exact absurd hc (by decide)
  · exact h.empty
  · omega
  · omega
  · intro hc
    exact absurd hc (by decide)
  · intro hc
    have := h.param hc
    omega
  · intro hc
    exact absurd hc (by decide)
  · intro hc
    exact absurd hc h.quit
  · exact Or.inl rfl
  · exact Or.inr rfl

/-! ### Runs -/

/-- Where the decoder stands. -/
inductive Config where
  /-- Between two bytes. -/
  | idle (d : DvcDecoder)
  /-- Before a round of the loop. -/
  | busy (d : DvcDecoder)

/-- `Run allow bs cfg`: a fresh decoder given the bytes `bs` passes through `cfg`, and
every round it took starts in a decoder that `allow` accepts. -/
inductive Run (allow : DvcDecoder → Prop) : List UInt8 → Config → Prop
  | start : Run allow [] (.idle {})
  | byte {bs d d'} (c : UInt8) : Run allow bs (.idle d) → d.enter c = .ok d' →
      Run allow (bs ++ [c]) (.busy d')
  | round {bs d d' ev} : Run allow bs (.busy d) → allow d → d.iterate = .ok (.next d' ev) →
      Run allow bs (.busy d')
  | wait {bs d} : Run allow bs (.busy d) → d.iterate = .ok .wait → Run allow bs (.idle d)
  | exit {bs d d' n ev} : Run allow bs (.busy d) → allow d → d.iterate = .ok (.exit n d' ev) →
      Run allow bs (.idle d'.resync)

/-- What holds at every configuration of every run. -/
def Config.Inv : Config → Prop
  | .idle d => ByteInv d
  | .busy d => LoopInv d

theorem DataInv.fresh : DataInv {} where
  palette := ⟨[], paletteInv_fresh, fun _ hp => absurd hp List.not_mem_nil⟩
  next1 := by decide +kernel
  red := by decide
  green := by decide
  pixels := by decide
  inhibit := rfl

theorem ByteInv.fresh : ByteInv {} where
  data := .fresh
  lt := by decide
  next_lt := by decide
  empty _ := rfl
  bcnt := by decide
  param hc := absurd hc (by decide)
  quit := by decide

/-- An error resynchronises: state 38 waits for a reset marker. -/
theorem ByteInv.resync {d : DvcDecoder} (h : DataInv d) (hb : d.bits.ibBcnt ≤ 7) :
    ByteInv d.resync where
  data := h.of_eq rfl rfl rfl rfl h.pixels rfl
  lt := (by decide : 38 < 48)
  next_lt := (by decide : 38 < 48)
  empty hc := absurd (show isCommand 38 = true from hc) (by decide)
  bcnt := hb
  param hc := absurd (show 38 = 46 from hc) (by decide)
  quit := (by decide : 38 ≠ 37)

theorem ByteInv.of_loop {d d' : DvcDecoder} {fuel n : Nat} {ev : List Event} (h : LoopInv d)
    (hloop : DvcDecoder.loop fuel d = .ok (n, d', ev)) :
    ByteInv (if n ≠ 0 then d'.resync else d') := by
  rcases loop_keeps h hloop with ⟨rfl, hinv⟩ | ⟨rfl, hdata, hb⟩
  · exact hinv
  · exact .resync hdata hb

/-- **The invariant holds in every run.** -/
theorem Run.inv {allow : DvcDecoder → Prop} {bs : List UInt8} {cfg : Config}
    (h : Run allow bs cfg) : cfg.Inv := by
  induction h with
  | start => exact .fresh
  | @byte bs d d' c _ henter ih =>
      obtain ⟨e, he, hinv, -, -⟩ := enter_ok (d := d) ih c
      rw [henter] at he
      cases he
      exact hinv
  | @round bs d d' ev _ _ hit ih => exact (iterate_keeps (d := d) ih hit).1
  | @wait bs d _ hit ih => exact .of_wait (d := d) ih (iterate_keeps (d := d) ih hit)
  | @exit bs d d' n ev _ _ hit ih =>
      obtain ⟨-, -, hd, hb⟩ := iterate_keeps (d := d) ih hit
      exact .resync hd hb

/-- The loop of one byte stays in the run. -/
theorem run_of_loop {allow : DvcDecoder → Prop} (hall : ∀ d, allow d) {bs : List UInt8} :
    ∀ {fuel : Nat} {d d' : DvcDecoder} {n : Nat} {ev : List Event}, Run allow bs (.busy d) →
      DvcDecoder.loop fuel d = .ok (n, d', ev) →
      Run allow bs (.idle (if n ≠ 0 then d'.resync else d')) := by
  intro fuel
  induction fuel with
  | zero => intro d d' n ev _ h; cases h
  | succ fuel ih =>
      intro d d' n ev hrun h
      obtain ⟨r, hr, hround⟩ := bind_eq_ok.mp h
      cases r with
      | wait =>
          cases hround
          exact hrun.wait hr
      | exit m e ev' =>
          cases hround
          obtain ⟨hn, -⟩ := iterate_keeps (d := d) hrun.inv hr
          rw [if_pos (by rw [hn]; decide)]
          exact hrun.exit (hall d) hr
      | next e ev' =>
          obtain ⟨⟨m, e', ev''⟩, hrec, he⟩ := bind_eq_ok.mp hround
          cases he
          exact ih (hrun.round (hall d) hr) hrec

/-! ### A byte and a stream -/

/-- No round of the byte `c` stores a parameter past the end of `cmd_p_buff`. -/
def DvcDecoder.ByteFits (d : DvcDecoder) (c : UInt8) : Prop :=
  ∀ e, d.enter c = .ok e → LoopFits e.rounds e

/-- No byte of the stream makes a round store past the end of `cmd_p_buff`. -/
def DvcDecoder.StreamFits (d : DvcDecoder) : List UInt8 → Prop
  | [] => True
  | c :: cs => d.ByteFits c ∧ ∀ d' ev, d.processDvc c = .ok (d', ev) → d'.StreamFits cs

section Bytes

variable {d d' : DvcDecoder} {c : UInt8} {cs : List UInt8} {ev : List Event}

theorem byteFits_iff {e : DvcDecoder} (henter : d.enter c = .ok e) :
    d.ByteFits c ↔ LoopFits e.rounds e := by
  constructor
  · intro h
    exact h e henter
  · intro h e' henter'
    rw [henter] at henter'
    cases henter'
    exact h

/-- One byte, by its loop. -/
theorem processDvc_eq {e : DvcDecoder} (h : ByteInv d) (henter : d.enter c = .ok e) :
    d.processDvc c = DvcDecoder.loop e.rounds e >>= fun r =>
      if r.1 ≠ 0 then .ok (r.2.1.resync, r.2.2 ++ [.refreshScreen]) else .ok (r.2.1, r.2.2) := by
  unfold DvcDecoder.processDvc DvcDecoder.processBits
  rw [h.data.inhibit, if_neg (by decide), henter, ok_bind]

theorem processDvc_of_loop {e : DvcDecoder} {n : Nat} (h : ByteInv d) (henter : d.enter c = .ok e)
    (hloop : DvcDecoder.loop e.rounds e = .ok (n, d', ev)) : d.processDvc c =
      if n ≠ 0 then .ok (d'.resync, ev ++ [.refreshScreen]) else .ok (d', ev) := by
  rw [processDvc_eq h henter, hloop, ok_bind]

/-- One byte that was taken, by what its loop has given. -/
theorem loop_of_processDvc (h : ByteInv d) (hc : d.processDvc c = .ok (d', ev)) :
    ∃ e n e' ev', d.enter c = .ok e ∧ LoopInv e ∧ DvcDecoder.loop e.rounds e = .ok (n, e', ev') ∧
      d' = (if n ≠ 0 then e'.resync else e') ∧
      ev = (if n ≠ 0 then ev' ++ [.refreshScreen] else ev') := by
  obtain ⟨e, henter, he, -⟩ := enter_ok h c
  rw [processDvc_eq h henter] at hc
  obtain ⟨⟨n, e', ev'⟩, hloop, hend⟩ := bind_eq_ok.mp hc
  refine ⟨e, n, e', ev', henter, he, hloop, ?_⟩
  dsimp only at hend
  split at hend
  · rename_i hn
    cases hend
    rw [if_pos hn, if_pos hn]
    exact ⟨rfl, rfl⟩
  · rename_i hn
    cases hend
    rw [if_neg hn, if_neg hn]
    exact ⟨rfl, rfl⟩

/-- **A byte is taken**, if its parameters go into the buffer. -/
theorem processDvc_of_fits (h : ByteInv d) (hfits : d.ByteFits c) :
    ∃ d' ev, d.processDvc c = .ok (d', ev) := by
  obtain ⟨e, henter, he, -⟩ := enter_ok h c
  obtain ⟨n, e', ev, hloop⟩ := loop_of_fits he (measure_lt_rounds e) (hfits e henter)
  rw [processDvc_of_loop h henter hloop]
  split
  · exact ⟨_, _, rfl⟩
  · exact ⟨_, _, rfl⟩

/-- Otherwise the store stops it. -/
theorem processDvc_overruns (h : ByteInv d) (hfits : ¬ d.ByteFits c) :
    ∃ i, 256 ≤ i ∧ d.processDvc c = .error (.command i) := by
  obtain ⟨e, henter, he, -⟩ := enter_ok h c
  rw [byteFits_iff henter] at hfits
  obtain ⟨i, hi, hloop⟩ := loop_overruns he (measure_lt_rounds e) hfits
  refine ⟨i, hi, ?_⟩
  rw [processDvc_eq h henter, hloop]
  rfl

theorem byteFits_of_processDvc (h : ByteInv d) (hc : d.processDvc c = .ok (d', ev)) :
    d.ByteFits c := by
  by_contra hfits
  obtain ⟨i, -, herr⟩ := processDvc_overruns h hfits
  rw [herr] at hc
  cases hc

/-- A byte that is taken keeps the invariant. -/
theorem processDvc_keeps (h : ByteInv d) (hc : d.processDvc c = .ok (d', ev)) : ByteInv d' := by
  obtain ⟨e, n, e', ev', -, he, hloop, rfl, -⟩ := loop_of_processDvc h hc
  exact .of_loop he hloop

/-- **One byte** that is taken goes on with the run. -/
theorem run_of_processDvc {allow : DvcDecoder → Prop} (hall : ∀ d, allow d) {bs : List UInt8}
    (hrun : Run allow bs (.idle d)) (hc : d.processDvc c = .ok (d', ev)) :
    Run allow (bs ++ [c]) (.idle d') := by
  obtain ⟨e, n, e', ev', henter, -, hloop, rfl, -⟩ := loop_of_processDvc (d := d) hrun.inv hc
  exact run_of_loop hall (hrun.byte c henter) hloop

theorem feed_cons (h : d.processDvc c = .ok (d', ev)) :
    d.feed (c :: cs) = d'.feed cs >>= fun r => .ok (r.1, ev ++ r.2) := by
  rw [DvcDecoder.feed, h, ok_bind]

/-- A stream that was taken, by its first byte and the others. -/
theorem feed_cons_ok (h : d.feed (c :: cs) = .ok (d', ev)) :
    ∃ e ev₁ ev₂, d.processDvc c = .ok (e, ev₁) ∧ e.feed cs = .ok (d', ev₂) ∧ ev = ev₁ ++ ev₂ := by
  obtain ⟨⟨e, ev₁⟩, hc, hrest⟩ := bind_eq_ok.mp h
  obtain ⟨⟨e', ev₂⟩, hcs, he⟩ := bind_eq_ok.mp hrest
  cases he
  exact ⟨e, ev₁, ev₂, hc, hcs, rfl⟩

theorem feed_append {e : DvcDecoder} {xs ys : List UInt8} (h : d.feed xs = .ok (e, ev)) :
    d.feed (xs ++ ys) = e.feed ys >>= fun r => .ok (r.1, ev ++ r.2) := by
  induction xs generalizing d ev with
  | nil =>
      cases h
      rw [List.nil_append]
      cases e.feed ys <;> rfl
  | cons c xs ih =>
      obtain ⟨f, ev₁, ev₂, hc, hxs, rfl⟩ := feed_cons_ok h
      rw [List.cons_append, feed_cons hc, ih hxs]
      cases e.feed ys with
      | error f => rfl
      | ok r => simp only [ok_bind, List.append_assoc]

/-- A stream that was taken, by two parts of it. -/
theorem feed_append_ok {xs ys : List UInt8} (h : d.feed (xs ++ ys) = .ok (d', ev)) :
    ∃ e ev₁ ev₂, d.feed xs = .ok (e, ev₁) ∧ e.feed ys = .ok (d', ev₂) ∧ ev = ev₁ ++ ev₂ := by
  induction xs generalizing d ev with
  | nil => exact ⟨d, [], ev, rfl, h, rfl⟩
  | cons c xs ih =>
      rw [List.cons_append] at h
      obtain ⟨f, ev₁, ev₂, hc, hrest, rfl⟩ := feed_cons_ok h
      obtain ⟨e, ev₃, ev₄, hxs, hys, rfl⟩ := ih hrest
      refine ⟨e, ev₁ ++ ev₃, ev₄, ?_, hys, by rw [List.append_assoc]⟩
      rw [feed_cons hc, hxs, ok_bind]

theorem feed_keeps (h : ByteInv d) (hcs : d.feed cs = .ok (d', ev)) : ByteInv d' := by
  induction cs generalizing d ev with
  | nil => cases hcs; exact h
  | cons c cs ih =>
      obtain ⟨e, ev₁, ev₂, hc, hrest, -⟩ := feed_cons_ok hcs
      exact ih (processDvc_keeps h hc) hrest

/-- **A stream is taken**, if its parameters go into the buffer. -/
theorem feed_of_fits (h : ByteInv d) (hfits : d.StreamFits cs) :
    ∃ d' ev, d.feed cs = .ok (d', ev) := by
  induction cs generalizing d with
  | nil => exact ⟨d, [], rfl⟩
  | cons c cs ih =>
      obtain ⟨hbyte, hrest⟩ := hfits
      obtain ⟨e, ev, hc⟩ := processDvc_of_fits h hbyte
      obtain ⟨d', ev', hcs⟩ := ih (processDvc_keeps h hc) (hrest e ev hc)
      exact ⟨d', ev ++ ev', by rw [feed_cons hc, hcs, ok_bind]⟩

/-- Otherwise the first store past the end stops it. -/
theorem feed_overruns (h : ByteInv d) (hfits : ¬ d.StreamFits cs) :
    ∃ i, 256 ≤ i ∧ d.feed cs = .error (.command i) := by
  induction cs generalizing d with
  | nil => exact absurd trivial hfits
  | cons c cs ih =>
      by_cases hbyte : d.ByteFits c
      · obtain ⟨e, ev, hc⟩ := processDvc_of_fits h hbyte
        have hrest : ¬ e.StreamFits cs := by
          intro hrest
          refine hfits ⟨hbyte, fun e' ev' hc' => ?_⟩
          rw [hc] at hc'
          cases hc'
          exact hrest
        obtain ⟨i, hi, herr⟩ := ih (processDvc_keeps h hc) hrest
        refine ⟨i, hi, ?_⟩
        rw [feed_cons hc, herr]
        rfl
      · obtain ⟨i, hi, herr⟩ := processDvc_overruns h hbyte
        refine ⟨i, hi, ?_⟩
        rw [DvcDecoder.feed, herr]
        rfl

/-- **A stream is taken if and only if** no round stores past the end of `cmd_p_buff`. -/
theorem feed_ok_iff (h : ByteInv d) : (∃ d' ev, d.feed cs = .ok (d', ev)) ↔ d.StreamFits cs := by
  constructor
  · rintro ⟨d', ev, hcs⟩
    by_contra hfits
    obtain ⟨i, -, herr⟩ := feed_overruns h hfits
    rw [herr] at hcs
    cases hcs
  · exact feed_of_fits h

theorem streamFits_of_isOk (h : ByteInv d) (hok : (d.feed cs).isOk = true) : d.StreamFits cs := by
  by_contra hfits
  obtain ⟨i, -, herr⟩ := feed_overruns h hfits
  rw [herr] at hok
  cases hok

/-- **What `feed` computes** is a run. -/
theorem run_of_feed {allow : DvcDecoder → Prop} (hall : ∀ d, allow d) {bs : List UInt8}
    (hrun : Run allow bs (.idle d)) (hcs : d.feed cs = .ok (d', ev)) :
    Run allow (bs ++ cs) (.idle d') := by
  induction cs generalizing bs d ev with
  | nil => cases hcs; rwa [List.append_nil]
  | cons c cs ih =>
      obtain ⟨e, ev₁, ev₂, hc, hrest, -⟩ := feed_cons_ok hcs
      rw [List.append_cons]
      exact ih (run_of_processDvc hall hrun hc) hrest

end Bytes

/-- What every configuration of a run has in common. -/
structure InRange (d : DvcDecoder) : Prop where
  decoderState : d.bits.decoderState < 48
  nextState : d.bits.nextState < 48
  pixelCount : d.pixelCount ≤ 256
  next1 : look 0 d.next1 31 = d.cache.next131
  next131 : d.cache.next131 < 48

theorem InRange.of_data {d : DvcDecoder} (h : DataInv d) (hs : d.bits.decoderState < 48)
    (hn : d.bits.nextState < 48) : InRange d := by
  obtain ⟨L, hP, -⟩ := h.palette
  have h31 : d.cache.next131 < 48 := by
    rcases hP.next131 with h31 | ⟨a, h31⟩
    · omega
    · rw [h31]
      exact (okNext_pixfan a).2.lt
  exact ⟨hs, hn, h.pixels, by rw [h.next1, look_set (by decide), if_pos rfl], h31⟩

/-- **No stream breaks the decoder**, but for the buffer of the command parameters.

* `feed` succeeds, or stops at a store past the end of `cmd_p_buff`: no table, palette,
  remap or block access leaves its array, no shift is by 32 or more and `get_bits` is never
  asked for more than 8 bits or more than there are.
* Between two bytes at most 7 bits are left, and before every round the states, the
  pixel count and the patched table entry are in range.
* The loop of every byte ends: any bound past `rounds` gives the same result. -/
theorem decoder_safe (bs : List UInt8) :
    ((∃ d ev, DvcDecoder.feed {} bs = .ok (d, ev) ∧ Run (fun _ => True) bs (.idle d)) ∨
      ∃ i, 256 ≤ i ∧ DvcDecoder.feed {} bs = .error (.command i)) ∧
    (∀ d, Run (fun _ => True) bs (.idle d) → InRange d ∧ d.bits.ibBcnt ≤ 7) ∧
    ∀ d, Run (fun _ => True) bs (.busy d) → InRange d ∧ d.bits.ibBcnt ≤ 15 ∧
      ∃ r, (∀ fuel, d.rounds ≤ fuel → DvcDecoder.loop fuel d = r) ∧
        ((∃ n d' ev, r = .ok (n, d', ev)) ∨ ∃ i, 256 ≤ i ∧ r = .error (.command i)) := by
  refine ⟨?_, fun d hd => ?_, fun d hd => ?_⟩
  · by_cases hfits : DvcDecoder.StreamFits {} bs
    · obtain ⟨d, ev, hfeed⟩ := feed_of_fits .fresh hfits
      exact Or.inl ⟨d, ev, hfeed, run_of_feed (fun _ => trivial) .start hfeed⟩
    · exact Or.inr (feed_overruns .fresh hfits)
  · have h : ByteInv d := hd.inv
    exact ⟨.of_data h.data h.lt h.next_lt, h.bcnt⟩
  · have h : LoopInv d := hd.inv
    have hm := measure_lt_rounds d
    refine ⟨.of_data h.data h.lt h.next_lt, h.bcnt, DvcDecoder.loop d.rounds d, ?_, ?_⟩
    · intro fuel hf
      exact loop_fuel h (Nat.lt_of_lt_of_le hm hf) hm
    · by_cases hfits : LoopFits d.rounds d
      · exact Or.inl (loop_of_fits h hm hfits)
      · exact Or.inr (loop_overruns h hm hfits)

end Ilo2.Dvc
