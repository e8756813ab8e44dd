import Ilo2.Dvc.Events
import Ilo2.Lib.Machine

/-!
# The steps of a run

A `Step` is a round of the loop that goes on, with the decoder at every stage of it.
`recorder` is the decoder as a machine that takes bytes and rounds and reports the steps;
what was decoded or painted before is a function of the list of steps.

* `Recorded.rule` - the rule of invariants: what every step keeps holds in every run.
* `recorded_of_feed` - **a `feed` that succeeds is such a run**, and its pastes are those of its
  steps.
-/

namespace Ilo2.Dvc

open Checked

/-- A round that goes on: the decoder before it, with its bits read, behind the `switch` and
behind the completion branch, and the hooks that the two call. -/
structure Step where
  before : DvcDecoder
  read : DvcDecoder
  switched : DvcDecoder
  completed : DvcDecoder
  switchHooks : List Event
  completeHooks : List Event

namespace Step

def state (t : Step) : Nat := t.before.bits.decoderState

def after (t : Step) : DvcDecoder :=
  { t.completed with bits.decoderState := t.completed.bits.nextState }

def hooks (t : Step) : List Event := t.switchHooks ++ t.completeHooks

/-- The step is what the program does. -/
def Went (t : Step) : Prop :=
  DvcDecoder.Went t.before t.read t.switched t.completed t.switchHooks t.completeHooks

end Step

/-- The step that begins in `d`, if its round goes on. -/
def DvcDecoder.taken (d : DvcDecoder) : Option Step :=
  if width d.bits.decoderState > d.bits.ibBcnt then none
  else
    match d.fetch (width d.bits.decoderState) with
    | .error _ => none
    | .ok read =>
        if read.bits.decoderState = 37 then none
        else
          match read.dispatch read.bits.decoderState with
          | .error _ => none
          | .ok (switched, ev) =>
              match switched.complete with
              | .error _ => none
              | .ok (completed, ev') => some ⟨d, read, switched, completed, ev, ev'⟩

theorem DvcDecoder.taken_eq_some {d : DvcDecoder} {t : Step} :
    d.taken = some t ↔ t.before = d ∧ t.Went := by
  constructor
  · intro h
    unfold DvcDecoder.taken at h
    split at h
    · cases h
    rename_i hbits
    split at h
    · cases h
    rename_i read hfetch
    split at h
    · cases h
    rename_i h37
    split at h
    · cases h
    rename_i switched ev hdisp
    split at h
    · cases h
    rename_i completed ev' hcomp
    cases h
    exact ⟨rfl, Nat.le_of_not_lt hbits, hfetch, h37, hdisp, hcomp⟩
  · rintro ⟨rfl, hbits, hfetch, h37, hdisp, hcomp⟩
    unfold DvcDecoder.taken
    rw [if_neg (Nat.not_lt.mpr hbits), hfetch]
    dsimp only
    rw [if_neg h37, hdisp]
    dsimp only
    rw [hcomp]

/-- A round goes on exactly as its step. -/
theorem iterate_of_went {t : Step} (hinv : LoopInv t.before) (h : t.Went) :
    t.before.iterate = .ok (.next t.after t.hooks) := by
  have hact : t.before.iterate = .ok (t.completed.advance t.read.bits.decoderState t.hooks) := by
    rw [DvcDecoder.iterate_eq hinv.lt, if_neg (Nat.not_lt.mpr h.bits), h.fetch, ok_bind,
      DvcDecoder.act, if_neg h.state, h.dispatch, ok_bind]
    dsimp only
    rw [h.complete, ok_bind]
    rfl
  have hkeeps := iterate_keeps hinv hact
  rw [hact]
  unfold DvcDecoder.advance at hkeeps ⊢
  split at hkeeps
  · exact absurd hkeeps.1 (by decide)
  · rename_i hmoves
    rw [if_neg hmoves]
    rfl

theorem went_of_iterate {d d' : DvcDecoder} {ev : List Event} (hinv : LoopInv d)
    (h : d.iterate = .ok (.next d' ev)) :
    ∃ t : Step, d.taken = some t ∧ t.before = d ∧ t.Went ∧ t.after = d' ∧ t.hooks = ev := by
  obtain ⟨d₁, d₂, d₃, ev₁, ev₂, hw, rfl, rfl⟩ := DvcDecoder.iterate_next hinv.lt h
  have hwent : (⟨d, d₁, d₂, d₃, ev₁, ev₂⟩ : Step).Went := hw
  exact ⟨_, DvcDecoder.taken_eq_some.mpr ⟨rfl, hwent⟩, rfl, hwent, rfl, rfl⟩

/-! ### The machine -/

inductive Action where
  | byte (c : UInt8)
  | round

/-- The decoder, byte by byte and round by round. -/
def recorder : Machine Config Action Step where
  start := .idle {}
  step
    | .idle d, .byte c =>
        match d.enter c with
        | .ok e => some (.busy e, [])
        | .error _ => none
    | .busy d, .round =>
        match d.iterate with
        | .ok .wait => some (.idle d, [])
        | .ok (.exit _ d' _) => some (.idle d'.resync, [])
        | .ok (.next _ _) => d.taken.map fun t => (.busy t.after, [t])
        | .error _ => none
    | _, _ => none

/-- A byte and the rounds it is good for. -/
def Action.byteRounds (c : UInt8) (rounds : Nat) : List Action :=
  .byte c :: List.replicate rounds .round

/-- A run that has taken the steps `ts` and stands at `cfg`. -/
def Recorded (ts : List Step) (cfg : Config) : Prop := recorder.Run (fun _ _ => True) ts cfg

def Config.decoder : Config → DvcDecoder
  | .idle d => d
  | .busy d => d

theorem recorder_cases {cfg cfg' : Config} {a : Action} {out : List Step}
    (h : recorder.step cfg a = some (cfg', out)) :
    (∃ d c e, cfg = .idle d ∧ d.enter c = .ok e ∧ cfg' = .busy e ∧ out = []) ∨
    (∃ d, cfg = .busy d ∧ d.iterate = .ok .wait ∧ cfg' = .idle d ∧ out = []) ∨
    (∃ d n d' ev, cfg = .busy d ∧ d.iterate = .ok (.exit n d' ev) ∧ cfg' = .idle d'.resync ∧
      out = []) ∨
    ∃ t : Step, cfg = .busy t.before ∧ t.Went ∧ cfg' = .busy t.after ∧ out = [t] := by
  unfold recorder at h
  dsimp only at h
  split at h
  · split at h
    · rename_i henter
      cases h
      exact .inl ⟨_, _, _, rfl, henter, rfl, rfl⟩
    · cases h
  · split at h
    · rename_i hit
      cases h
      exact .inr (.inl ⟨_, rfl, hit, rfl, rfl⟩)
    · rename_i hit
      cases h
      exact .inr (.inr (.inl ⟨_, _, _, _, rfl, hit, rfl, rfl⟩))
    · obtain ⟨t, ht, h⟩ := Option.map_eq_some_iff.mp h
      cases h
      obtain ⟨rfl, hwent⟩ := DvcDecoder.taken_eq_some.mp ht
      exact .inr (.inr (.inr ⟨t, rfl, hwent, rfl, rfl⟩))
    · cases h
  · cases h

variable {ts : List Step} {cfg : Config} {d : DvcDecoder}

theorem Run.recorder_step {bs : List UInt8} {cfg' : Config} {a : Action} {out : List Step}
    (hrun : Run (fun _ => True) bs cfg) (h : recorder.step cfg a = some (cfg', out)) :
    ∃ bs', Run (fun _ => True) bs' cfg' := by
  obtain ⟨d, c, e, rfl, henter, rfl, -⟩ | ⟨d, rfl, hit, rfl, -⟩ |
    ⟨d, n, d', ev, rfl, hit, rfl, -⟩ | ⟨t, rfl, hwent, rfl, -⟩ := recorder_cases h
  · exact ⟨_, hrun.byte c henter⟩
  · exact ⟨_, hrun.wait hit⟩
  · exact ⟨_, hrun.exit trivial hit⟩
  · exact ⟨_, hrun.round trivial (iterate_of_went hrun.inv hwent)⟩

/-- A recorded run is a run. -/
theorem Recorded.run (h : Recorded ts cfg) : ∃ bs, Run (fun _ => True) bs cfg := by
  refine Machine.Run.inv (fun _ cfg => ∃ bs, Run (fun _ => True) bs cfg) ⟨[], .start⟩ ?_ h
  rintro _ cfg a out cfg' ⟨bs, hrun⟩ - hstep
  exact hrun.recorder_step hstep

theorem Recorded.inv (h : Recorded ts cfg) : cfg.Inv := by
  obtain ⟨bs, hrun⟩ := h.run
  exact hrun.inv

/-- **The rule of invariants.**  A byte changes the bits and the count of the bytes, an exit
sends the decoder to state 38. -/
theorem Recorded.rule (P : List Step → DvcDecoder → Prop) (hstart : P [] {})
    (hbits : ∀ ts d b k, P ts d →
      (b.decoderState = HUNT ∨ b.decoderState = d.bits.decoderState) →
      P ts { d with bits := b, countBytes := k })
    (hexit : ∀ ts d b, P ts d → d.bits.decoderState = 37 → P ts { d with bits := b }.resync)
    (hround : ∀ ts (t : Step), P ts t.before → LoopInv t.before → t.Went → P (ts ++ [t]) t.after)
    (h : Recorded ts cfg) : P ts cfg.decoder := by
  refine (Machine.Run.inv (fun ts cfg => P ts cfg.decoder ∧ ∃ bs, Run (fun _ => True) bs cfg)
    ⟨hstart, [], .start⟩ ?_ h).1
  rintro ts cfg a out cfg' ⟨hP, bs, hrun⟩ - hstep
  refine ⟨?_, hrun.recorder_step hstep⟩
  obtain ⟨d, c, e, rfl, henter, rfl, rfl⟩ | ⟨d, rfl, hit, rfl, rfl⟩ |
    ⟨d, n, d', ev, rfl, hit, rfl, rfl⟩ | ⟨t, rfl, hwent, rfl, rfl⟩ := recorder_cases hstep
  · obtain ⟨e', he', -, heq, hst⟩ := enter_ok (d := d) hrun.inv c
    rw [henter] at he'
    cases he'
    have hP' := hbits ts d e.bits (d.countBytes + 1) hP hst
    rw [← heq] at hP'
    rwa [List.append_nil]
  · rwa [List.append_nil]
  · obtain ⟨h37, hfetch, -⟩ := DvcDecoder.iterate_exit (d := d) hrun.inv hit
    have hP' := hexit ts d d'.bits hP h37
    rw [← (DvcDecoder.fetch_eq hfetch).1] at hP'
    rwa [List.append_nil]
  · exact hround ts t hP hrun.inv hwent

/-! ### The program is such a run -/

/-- The calls of `on_paste`. -/
def pastes (ev : List Event) : List Event :=
  ev.filter fun
    | .paste .. => true
    | _ => false

theorem Recorded.step {a : Action} {cfg' : Config} {out : List Step} (h : Recorded ts cfg)
    (hs : recorder.step cfg a = some (cfg', out)) : Recorded (ts ++ out) cfg' :=
  Machine.Run.step h trivial hs

/-- A run that took a step stood before it. -/
theorem Recorded.split {before after : List Step} {t : Step}
    (h : Recorded (before ++ t :: after) cfg) : Recorded before (.busy t.before) ∧ t.Went := by
  refine (Machine.Run.inv (fun ts cfg => Recorded ts cfg ∧ ∀ before t after,
    ts = before ++ t :: after → Recorded before (.busy t.before) ∧ t.Went) ⟨.start, ?_⟩ ?_ h).2
    _ _ _ rfl
  · intro before t after hnil
    exact absurd hnil.symm (by simp)
  rintro ts cfg a out cfg' ⟨hrec, ih⟩ - hstep
  refine ⟨hrec.step hstep, ?_⟩
  obtain ⟨d, c, e, -, -, -, rfl⟩ | ⟨d, -, -, -, rfl⟩ | ⟨d, n, d', ev, -, -, -, rfl⟩ |
    ⟨u, rfl, hwent, -, rfl⟩ := recorder_cases hstep
  · rwa [List.append_nil]
  · rwa [List.append_nil]
  · rwa [List.append_nil]
  · intro before t after heq
    rcases List.eq_nil_or_concat after with rfl | ⟨after, v, rfl⟩
    · obtain ⟨rfl, hlast⟩ := List.append_inj' heq rfl
      cases hlast
      exact ⟨hrec, hwent⟩
    · rw [List.concat_eq_append, ← List.cons_append, ← List.append_assoc] at heq
      exact ih _ _ _ (List.append_inj' heq rfl).1

/-- The loop of one byte. -/
theorem recorded_of_loop {fuel : Nat} : ∀ {ts : List Step} {d d' : DvcDecoder} {n : Nat}
    {ev : List Event}, Recorded ts (.busy d) → DvcDecoder.loop fuel d = .ok (n, d', ev) →
      ∃ us, Recorded (ts ++ us) (.idle (if n ≠ 0 then d'.resync else d')) ∧
        us.flatMap Step.hooks = ev := by
  induction fuel with
  | zero => intro ts d d' n ev _ h; cases h
  | succ fuel ih =>
      intro ts d d' n ev hrec h
      have hinv : LoopInv d := hrec.inv
      obtain ⟨r, hr, hround⟩ := bind_eq_ok.mp h
      have hstep : recorder.step (.busy d) .round = match d.iterate with
          | .ok .wait => some (.idle d, [])
          | .ok (.exit _ d' _) => some (.idle d'.resync, [])
          | .ok (.next _ _) => d.taken.map fun t => (.busy t.after, [t])
          | .error _ => none := rfl
      rw [hr] at hstep
      cases r with
      | wait =>
          cases hround
          exact ⟨[], hrec.step hstep, rfl⟩
      | exit m e ev' =>
          have hev := (DvcDecoder.iterate_exit hinv hr).2.2
          cases hround
          obtain ⟨hm, -⟩ := iterate_keeps hinv hr
          rw [if_pos (by rw [hm]; decide)]
          exact ⟨[], hrec.step hstep, hev.symm⟩
      | next e ev' =>
          obtain ⟨t, ht, rfl, hwent, rfl, rfl⟩ := went_of_iterate hinv hr
          obtain ⟨⟨m, e', ev''⟩, hloop, he⟩ := bind_eq_ok.mp hround
          cases he
          dsimp only at hstep
          rw [ht] at hstep
          obtain ⟨us, hus, hev⟩ := ih (hrec.step hstep) hloop
          refine ⟨t :: us, ?_, by rw [List.flatMap_cons, hev]⟩
          rwa [List.append_cons]

theorem recorded_of_processDvc {d' : DvcDecoder} {c : UInt8} {ev : List Event}
    (hrec : Recorded ts (.idle d)) (hc : d.processDvc c = .ok (d', ev)) :
    ∃ us, Recorded (ts ++ us) (.idle d') ∧ pastes ev = pastes (us.flatMap Step.hooks) := by
  obtain ⟨e, n, e', ev', henter, -, hloop, rfl, rfl⟩ := loop_of_processDvc (d := d) hrec.inv hc
  have hstep : recorder.step (.idle d) (.byte c) = some (.busy e, []) := by
    unfold recorder
    dsimp only
    rw [henter]
  have hbusy := hrec.step hstep
  rw [List.append_nil] at hbusy
  obtain ⟨us, hus, hev⟩ := recorded_of_loop hbusy hloop
  refine ⟨us, hus, ?_⟩
  rw [hev]
  split
  · rw [pastes, List.filter_append]
    exact List.append_nil _
  · rfl

/-- **Every stream that is taken** is a recorded run, whose steps paste what `feed` pastes. -/
theorem recorded_of_feed {d' : DvcDecoder} {cs : List UInt8} {ev : List Event}
    (hrec : Recorded ts (.idle d)) (hcs : d.feed cs = .ok (d', ev)) :
    ∃ us, Recorded (ts ++ us) (.idle d') ∧ pastes ev = pastes (us.flatMap Step.hooks) := by
  induction cs generalizing ts d ev with
  | nil => cases hcs; exact ⟨[], by rwa [List.append_nil], rfl⟩
  | cons c cs ih =>
      obtain ⟨e, ev₁, ev₂, hc, hrest, rfl⟩ := feed_cons_ok hcs
      obtain ⟨us, hrec₁, hev⟩ := recorded_of_processDvc hrec hc
      obtain ⟨us', hrec₂, hev'⟩ := ih hrec₁ hrest
      refine ⟨us ++ us', by rwa [← List.append_assoc], ?_⟩
      rw [pastes, pastes] at hev hev'
      rw [List.flatMap_append, pastes, List.filter_append, hev, hev', pastes, List.filter_append]

end Ilo2.Dvc
