import Ilo2.Ui.ConsoleCore

/-!
# What a session sends

The strings that `pump` hands to the session, against those that the input methods were
asked to queue.  `outbox_` belongs to the console core: neither `start` nor `stop` empties
it, so what one session has left over is sent by the next.

* `step_conserves` - no step but a start loses, invents or reorders a string.
* `sent_prefix_queued` - **a session sends what was queued since its start, in order, if
  every start finds the outbox empty**.
* `input_crosses` - it need not.
-/

namespace Ilo2.Ui

open Machine (ite_some)

/-- The outputs since the last live session was started. -/
def sinceStart (tr : List Out) : List Out :=
  tr.foldl (fun acc o =>
    match o with
    | .started _ => []
    | o => acc ++ [o]) []

/-- The strings that `pump` handed to `transmit`. -/
def sent (tr : List Out) : List (List UInt8) :=
  tr.filterMap fun
    | .transmit b => some b
    | _ => none

/-- The strings that the input methods were asked for, without those that came when more
than 4096 were held. -/
def queued (tr : List Out) : List (List UInt8) :=
  tr.filterMap fun
    | .offered b held => if held > 4096 then none else some b
    | _ => none

/-- The strings that `pump` has taken and not yet handed over. -/
def Worker.pending : Worker → List (List UInt8)
  | .pump pending _ => pending
  | _ => []

/-- The strings that wait. -/
def ConsoleCore.waiting (s : ConsoleCore) : List (List UInt8) := s.worker.pending ++ s.outbox

theorem sinceStart_append {out : List Out} (h : ∀ host, .started host ∉ out) (tr : List Out) :
    sinceStart (tr ++ out) = sinceStart tr ++ out := by
  unfold sinceStart
  rw [List.foldl_append]
  generalize tr.foldl _ [] = acc
  induction out generalizing acc with
  | nil => exact (List.append_nil _).symm
  | cons o out ih =>
      have hrest := ih fun host hmem => h host (List.mem_cons_of_mem _ hmem)
      cases o with
      | started host => exact absurd List.mem_cons_self (h host)
      | _ => rw [List.foldl_cons, hrest, List.append_assoc, List.singleton_append]

theorem sinceStart_started (tr : List Out) (host : String) :
    sinceStart (tr ++ [.started host]) = [] := by
  unfold sinceStart
  rw [List.foldl_append]
  rfl

theorem sent_append (as bs : List Out) : sent (as ++ bs) = sent as ++ sent bs :=
  List.filterMap_append

theorem queued_append (as bs : List Out) : queued (as ++ bs) = queued as ++ queued bs :=
  List.filterMap_append

/-! ### Steps -/

/-- From `s` to `s'`, putting out `out`, no string is lost, invented or reordered. -/
structure Conserves (s s' : ConsoleCore) (out : List Out) : Prop where
  silent : ∀ host, .started host ∉ out
  waiting : s.waiting ++ queued out = sent out ++ s'.waiting

section

variable {s s' s₁ : ConsoleCore} {out out₁ : List Out}

/-- A step that leaves the strings alone. -/
theorem Conserves.of_eq (h : s'.waiting = s.waiting) : Conserves s s' [] where
  silent _ := List.not_mem_nil
  waiting := by rw [h]; exact List.append_nil _

theorem Conserves.trans (h : Conserves s s₁ out₁) (h' : Conserves s₁ s' out) :
    Conserves s s' (out₁ ++ out) where
  silent host hmem := (List.mem_append.mp hmem).elim (h.silent host) (h'.silent host)
  waiting := by
    rw [queued_append, sent_append, ← List.append_assoc, h.waiting, List.append_assoc,
      h'.waiting, List.append_assoc]

end

namespace ConsoleCore

variable {s s' : ConsoleCore} {out : List Out}

theorem queueLocked_conserves (s : ConsoleCore) (bytes : List UInt8) :
    Conserves s (s.queueLocked bytes).1 (s.queueLocked bytes).2 := by
  unfold queueLocked
  split
  · exact .of_eq rfl
  split
  · rename_i hfull
    refine ⟨by simp, ?_⟩
    simp [queued, sent, hfull]
  · rename_i hroom
    refine ⟨by simp, ?_⟩
    simp [queued, sent, hroom, waiting]

theorem queueAll_conserves (bs : List (List UInt8)) :
    ∀ s : ConsoleCore, Conserves s (s.queueAll bs).1 (s.queueAll bs).2 := by
  induction bs with
  | nil => intro s; exact .of_eq rfl
  | cons b bs ih =>
      intro s
      exact (queueLocked_conserves s b).trans (ih _)

theorem call_conserves (s : ConsoleCore) (c : InputCall) :
    Conserves s (s.call c).1 (s.call c).2 := by
  cases c with
  | mouseMove x y =>
      have h : Conserves s { s with input := { s.input with screenW := s.fbW, screenH := s.fbH } }
          [] := .of_eq rfl
      exact h.trans (queueLocked_conserves _ _)
  | typeText t => exact queueAll_conserves _ s
  | requestRefresh => exact .of_eq rfl
  | _ => exact queueLocked_conserves s _

/-- A start that is not refused. -/
def Starts (s : ConsoleCore) : Action → Prop
  | .front (.start cfg) => s.caller = .idle ∧ s.worker = .none ∧ cfg.host ≠ ""
  | _ => False

instance (s : ConsoleCore) (a : Action) : Decidable (s.Starts a) := by
  unfold Starts
  split <;> infer_instance

/-- Outside `pump` the worker holds no string. -/
theorem waiting_of_pending (hw : s.worker.pending = []) (hw' : s'.worker.pending = [])
    (ho : s'.outbox = s.outbox) : s'.waiting = s.waiting := by
  unfold waiting
  rw [hw, hw', ho]

theorem frontStep_conserves {a : FrontAction} (h : s.frontStep a = some (s', out))
    (hns : ¬ s.Starts (.front a)) : Conserves s s' out := by
  cases a with
  | start cfg =>
      obtain ⟨hidle, h⟩ := ite_some h
      unfold start at h
      split_ifs at h with hw hhost
      · cases h
        exact .of_eq rfl
      · cases h
        exact .of_eq rfl
      · exact absurd ⟨hidle, not_not.mp hw, hhost⟩ hns
  | startReplay file rate =>
      obtain ⟨-, h⟩ := ite_some h
      cases h
      refine .of_eq ?_
      unfold startReplay
      by_cases hw : s.worker ≠ .none
      · rw [if_pos hw]
      · rw [if_neg hw]
        rw [not_not] at hw
        cases file with
        | none => rfl
        | some size => exact waiting_of_pending (by rw [hw]; rfl) rfl rfl
  | join =>
      obtain ⟨⟨-, hw⟩, h⟩ := ite_some h
      cases h
      refine .of_eq (waiting_of_pending ?_ rfl rfl)
      rcases hw with hw | hw <;> rw [hw] <;> rfl
  | input c =>
      have hc := call_conserves s c
      rw [show s.call c = (s', out) from Option.some.inj h] at hc
      exact hc
  | stop | disconnect =>
      obtain ⟨-, h⟩ := ite_some h
      cases h
      exact .of_eq rfl

theorem workerStep_conserves {a : WorkerAction} (h : s.workerStep a = some (s', out)) :
    Conserves s s' out := by
  cases a with
  | acquired ok =>
      obtain ⟨hw, h⟩ := ite_some h
      cases h
      refine .of_eq (waiting_of_pending (by rw [hw]; rfl) ?_ ?_)
      all_goals cases ok <;> rfl
  | connected ok =>
      dsimp only [workerStep] at h
      split_ifs at h with hw hok
      · cases h
        refine ⟨by simp, ?_⟩
        simp [waiting, hw, Worker.pending, queued, sent]
      · cases h
        exact .of_eq (waiting_of_pending (by rw [hw]; rfl) rfl rfl)
  | swap =>
      obtain ⟨hw, h⟩ := ite_some h
      cases h
      refine .of_eq ?_
      unfold waiting
      rw [hw]
      exact List.append_nil _
  | transmit =>
      dsimp only [workerStep] at h
      split at h
      · rename_i b pending refresh hw
        cases h
        refine ⟨by simp, ?_⟩
        simp [waiting, hw, Worker.pending, queued, sent]
      · cases h
  | pumped due =>
      dsimp only [workerStep] at h
      split at h
      · rename_i refresh hw
        cases h
        refine ⟨fun host => ?_, ?_⟩
        · split <;> simp
        · unfold waiting
          rw [hw]
          split <;> simp [Worker.pending, queued, sent]
      · cases h
  | received r =>
      dsimp only [workerStep] at h
      split_ifs at h with hw
      cases r <;> cases h <;> exact .of_eq (waiting_of_pending (by rw [hw]; rfl) rfl rfl)
  | test =>
      dsimp only [workerStep] at h
      split at h
      · rename_i l hw hs
        cases h
        refine .of_eq (waiting_of_pending (by rw [hw]; rfl) ?_ rfl)
        dsimp only
        split <;> rfl
      · cases h
  | publish | enter | replayStart =>
      dsimp only [workerStep] at h
      split at h
      · cases h
        exact .of_eq (waiting_of_pending (by simp_all [Worker.pending]) rfl rfl)
      · cases h
  | replay fbW fbH =>
      dsimp only [workerStep] at h
      split at h
      · rename_i left chunk hw
        split_ifs at h <;> cases h <;>
          exact .of_eq (waiting_of_pending (by rw [hw]; rfl) rfl rfl)
      · cases h
  | setConnected | leave | finish =>
      obtain ⟨hw, h⟩ := ite_some h
      cases h
      exact .of_eq (waiting_of_pending (by rw [hw]; rfl) rfl rfl)

/-- **One step**, of either party, conserves the strings, unless it starts a session. -/
theorem step_conserves {a : Action} (h : s.step a = some (s', out)) (hns : ¬ s.Starts a) :
    Conserves s s' out := by
  cases a with
  | front a => exact frontStep_conserves h hns
  | worker a => exact workerStep_conserves h

/-- A start that is not refused. -/
theorem step_starts {a : Action} (h : s.step a = some (s', out)) (hs : s.Starts a) :
    s.worker = .none ∧ s'.outbox = s.outbox ∧ s'.worker = .acquire ∧
      ∃ host, out = [.started host] := by
  unfold Starts at hs
  split at hs
  · rename_i cfg
    obtain ⟨hidle, hw, hhost⟩ := hs
    have h : (if s.caller = .idle then some (s.start cfg) else none) = some (s', out) := h
    rw [if_pos hidle, start, if_neg (not_not.mpr hw), if_neg hhost] at h
    cases h
    exact ⟨hw, rfl, rfl, _, rfl⟩
  · exact hs.elim

/-! ### Runs -/

/-- What is asked of a step: a start finds the outbox empty. -/
def StartsEmpty (s : ConsoleCore) (a : Action) : Prop := s.Starts a → s.outbox = []

instance (s : ConsoleCore) (a : Action) : Decidable (s.StartsEmpty a) := by
  unfold StartsEmpty
  infer_instance

/-- What has been queued since the start is what has been sent since, and what waits. -/
theorem queued_eq {tr : List Out} (h : machine.Run StartsEmpty tr s) :
    queued (sinceStart tr) = sent (sinceStart tr) ++ s.waiting := by
  refine Machine.Run.inv (fun tr s =>
    queued (sinceStart tr) = sent (sinceStart tr) ++ s.waiting) rfl ?_ h
  intro tr s a out s' ih hallow hstep
  by_cases hs : s.Starts a
  · obtain ⟨hw, ho, hw', host, rfl⟩ := step_starts hstep hs
    rw [sinceStart_started]
    unfold waiting
    rw [hw', ho, hallow hs]
    rfl
  · have hc := step_conserves hstep hs
    rw [sinceStart_append hc.silent, queued_append, sent_append, ih, List.append_assoc, hc.waiting,
      List.append_assoc]

/-- **A session sends what was queued since its start**, in order and each once, in every
run in which no start finds anything in the outbox. -/
theorem sent_prefix_queued (tr : List Out) (s : ConsoleCore) (h : machine.Run StartsEmpty tr s) :
    sent (sinceStart tr) <+: queued (sinceStart tr) := by
  rw [queued_eq h]
  exact List.prefix_append _ _

/-- A live session that gets to its receive loop. -/
def goLive (host : String) : List Action :=
  [.front (.start ⟨host, 0⟩), .worker (.acquired true), .worker (.connected true),
    .worker .publish, .worker .setConnected, .worker .enter, .worker .test]

/-- Two strings are queued and the first is sent. -/
theorem sent_prefix_queued_live : ∃ tr s, machine.Run StartsEmpty tr s ∧
    sent (sinceStart tr) = [[0x61]] ∧ sent (sinceStart tr) <+: queued (sinceStart tr) := by
  have hsent : (machine.exec StartsEmpty machine.start (goLive "a" ++
      [.front (.input (.typeChar 0x61)), .front (.input (.typeChar 0x62)), .worker .swap,
        .worker .transmit])).map (fun r => sent (sinceStart r.2)) = some [[0x61]] := by decide
  obtain ⟨⟨s, tr⟩, hexec, hobs⟩ := Option.map_eq_some_iff.mp hsent
  have hrun := Machine.run_of_exec hexec
  exact ⟨tr, s, hrun, hobs, sent_prefix_queued tr s hrun⟩

/-- A string that is queued while the first host does not answer. -/
def leftOver : List Action :=
  [.front (.start ⟨"a", 0⟩), .front (.input (.typeChar 0x61)), .worker (.acquired false),
    .front .stop, .front .disconnect, .front .join]

/-- **Input crosses sessions**: what was typed for one host is sent to the next. -/
theorem input_crosses : ¬ ∀ (tr : List Out) (s : ConsoleCore),
    machine.Run (fun _ _ => True) tr s → sent (sinceStart tr) <+: queued (sinceStart tr) := by
  intro hall
  have hsent : (machine.exec (fun _ _ => True) machine.start (leftOver ++ goLive "b" ++
      [.worker .swap, .worker .transmit])).map
        (fun r => (sent (sinceStart r.2), queued (sinceStart r.2))) = some ([[0x61]], []) := by
    decide
  obtain ⟨⟨s, tr⟩, hexec, hobs⟩ := Option.map_eq_some_iff.mp hsent
  have hprefix := hall tr s (Machine.run_of_exec hexec)
  rw [Prod.mk.injEq] at hobs
  rw [hobs.1, hobs.2] at hprefix
  exact absurd (List.prefix_nil.mp hprefix) (List.cons_ne_nil _ _)

end ConsoleCore

end Ilo2.Ui
