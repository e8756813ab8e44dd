import Ilo2.Lib.JobQueue
import Ilo2.Ui.PowerControl

/-!
# What is asked of the power control

The machine of `PowerControl`, with the requests, the commands and the replies as its outputs.

The queue holds the requests of the front end and, in front of them, the health reads that
ride along with a status read.  No write rides along, so that the writes form a queue of
their own.

* `requests_in_order` - **every write that is asked for is run once and in order**, while the
  worker runs.
* `snapshot_current` - **the snapshot shows the newest replies** since `start`, and nothing of
  an earlier life.
-/

namespace Ilo2.Ui

open Ribcl
open Tls (ascii)

namespace PowerControl

inductive Event where
  | opened
  | closed
  | asked (cmd : RibclCommand)
  | begun (cmd : RibclCommand)
  | finished (cmd : RibclCommand) (r : Except (List UInt8) RibclReply)

/-- The command in flight. -/
def inFlight (s : PowerControl) : List RibclCommand :=
  match s.worker with
  | .busy cmd => [cmd]
  | _ => []

def report (s : PowerControl) (a : Action) (s' : PowerControl) : List Event :=
  match a with
  | .start _ => [.opened]
  | .stop => [.closed]
  | .request cmd => [.asked cmd]
  | .enter _ _ | .wake _ _ => s'.inFlight.map .begun
  | .finish r => s.inFlight.map fun cmd => .finished cmd r

def observed : Machine PowerControl Action Event := machine.observe fun s a s' _ => report s a s'

/-- What an event is to the queue of the writes. -/
def Event.write? : Event → Option (JobQueue.Event RibclCommand)
  | .opened => some .opened
  | .closed => some .closed
  | .asked cmd => if ribclIsWrite cmd then some (.asked cmd) else none
  | .begun cmd => if ribclIsWrite cmd then some (.begun cmd) else none
  | .finished _ _ => none

def writes (tr : List Event) : List (JobQueue.Event RibclCommand) := tr.filterMap Event.write?

def Event.begun? : Event → Option RibclCommand
  | .begun cmd => some cmd
  | _ => none

/-- The queue of the writes. -/
def writeQueue (s : PowerControl) : JobQueue.State RibclCommand :=
  ⟨s.running, s.queue.filter ribclIsWrite⟩

variable {s s' : PowerControl} {a : Action} {cmd : RibclCommand} {now now' : Int} {tr : List Event}
  {out : List Empty}

/-! ### The queue -/

/-- What the worker starts on rides in front of no write. -/
theorem take_queue (s : PowerControl) (cmd : RibclCommand) (now now' : Int) :
    (s.take cmd now now').running = s.running ∧
      (s.take cmd now now').queue.filter ribclIsWrite = s.queue.filter ribclIsWrite := by
  unfold take
  dsimp only
  split_ifs
  · exact ⟨rfl, by simp [ribclIsWrite]⟩
  · exact ⟨rfl, rfl⟩

theorem take_inFlight (s : PowerControl) (cmd : RibclCommand) (now now' : Int) :
    (s.take cmd now now').inFlight = [cmd] := by
  unfold inFlight
  rw [(take_spec s cmd now now').1]

/-- **What the worker picks** is the first of the queue, or a status read. -/
theorem pick_follows (s : PowerControl) (now now' : Int) :
    (((s.pick now now').inFlight.map Event.begun).filterMap Event.write?).foldlM
      JobQueue.State.next s.writeQueue = some (s.pick now now').writeQueue := by
  unfold pick
  by_cases hrun : s.running = false
  · rw [if_pos hrun]
    rfl
  rw [if_neg hrun]
  rw [Bool.not_eq_false] at hrun
  cases hq : s.queue with
  | cons cmd queue =>
      dsimp only
      obtain ⟨hrun', hqueue⟩ := take_queue { s with queue := queue } cmd now now'
      rw [take_inFlight]
      unfold writeQueue
      rw [hrun', hqueue, hq]
      by_cases hwrite : ribclIsWrite cmd = true
      · simp [Event.write?, hwrite, hrun, JobQueue.State.next]
      · simp [Event.write?, hwrite]
  | nil =>
      dsimp only
      by_cases hpoll : s.pollDue = true ∨ s.cfg.pollSec > 0
      · rw [if_pos hpoll, take_inFlight]
        obtain ⟨hrun', hqueue⟩ := take_queue s .getPowerStatus now now'
        unfold writeQueue
        rw [hrun', hqueue]
        simp [Event.write?, ribclIsWrite]
      · rw [if_neg hpoll]
        unfold writeQueue
        rw [hq]
        rfl

/-- **Every step** is one that the queue of the writes can follow. -/
theorem step_follows (h : s.step a = some (s', out)) :
    ((report s a s').filterMap Event.write?).foldlM JobQueue.State.next s.writeQueue =
      some s'.writeQueue := by
  cases a with
  | start cfg =>
      obtain ⟨-, h⟩ := Machine.ite_some h
      cases h
      rfl
  | stop =>
      cases h
      rfl
  | request cmd =>
      cases h
      by_cases hwrite : ribclIsWrite cmd = true
      · simp [report, Event.write?, hwrite, JobQueue.State.next, writeQueue]
      · simp [report, Event.write?, hwrite, writeQueue]
  | enter now now' =>
      obtain ⟨hw, h⟩ := Machine.ite_some h
      cases h
      by_cases hblock : s.pollDue = false ∧ s.running = true ∧ s.queue = []
      · rw [if_pos hblock]
        rfl
      · rw [if_neg hblock]
        exact pick_follows s now now'
  | wake now now' =>
      obtain ⟨hw, h⟩ := Machine.ite_some h
      cases h
      exact pick_follows s now now'
  | finish r =>
      unfold step at h
      cases hw : s.worker with
      | busy cmd =>
          simp only [hw, Option.some.injEq, Prod.mk.injEq] at h
          rw [← h.1]
          obtain ⟨-, hqueue, hrunning, -, -⟩ := finish_spec s cmd r
          unfold report inFlight writeQueue
          rw [hw, hqueue, hrunning]
          rfl
      | top | waiting | done => simp [hw] at h

/-! ### The history -/

theorem take_log (s : PowerControl) (cmd : RibclCommand) (now now' : Int) :
    (s.take cmd now now').log = s.log := by
  unfold take
  dsimp only
  split_ifs <;> rfl

theorem pick_log (s : PowerControl) (now now' : Int) : (s.pick now now').log = s.log := by
  unfold pick
  by_cases hrun : s.running = false
  · rw [if_pos hrun]
  rw [if_neg hrun]
  cases s.queue with
  | cons cmd queue => exact take_log _ cmd now now'
  | nil =>
      dsimp only
      by_cases hpoll : s.pollDue = true ∨ s.cfg.pollSec > 0
      · rw [if_pos hpoll, take_log]
      · rw [if_neg hpoll]

theorem inFlight_eq_nil (h : ∀ cmd, s.worker ≠ .busy cmd) : s.inFlight = [] := by
  unfold inFlight
  cases hw : s.worker with
  | busy cmd => exact absurd hw (h cmd)
  | top | waiting | done => rfl

theorem filterMap_begun (cmds : List RibclCommand) :
    (cmds.map Event.begun).filterMap Event.begun? = cmds := by
  rw [List.filterMap_map]
  exact List.filterMap_some

/-- What has begun is over, or is in flight. -/
theorem begun_step (h : s.step a = some (s', out)) :
    s.log.map Prod.fst ++ s.inFlight ++ (report s a s').filterMap Event.begun? =
      s'.log.map Prod.fst ++ s'.inFlight := by
  cases a with
  | start cfg =>
      obtain ⟨hw, h⟩ := Machine.ite_some h
      cases h
      rw [inFlight_eq_nil (by simp [hw])]
      simp [report, Event.begun?, inFlight]
  | stop | request cmd =>
      cases h
      simp [report, Event.begun?, inFlight]
  | enter now now' =>
      obtain ⟨hw, h⟩ := Machine.ite_some h
      cases h
      unfold report
      dsimp only
      rw [inFlight_eq_nil (by simp [hw]), filterMap_begun, List.append_nil]
      by_cases hblock : s.pollDue = false ∧ s.running = true ∧ s.queue = []
      · rw [if_pos hblock]
      · rw [if_neg hblock, pick_log]
  | wake now now' =>
      obtain ⟨hw, h⟩ := Machine.ite_some h
      cases h
      unfold report
      dsimp only
      rw [inFlight_eq_nil (by simp [hw]), filterMap_begun, List.append_nil, pick_log]
  | finish r =>
      unfold step at h
      cases hw : s.worker with
      | busy cmd =>
          simp only [hw, Option.some.injEq, Prod.mk.injEq] at h
          rw [← h.1]
          obtain ⟨hworker, -, -, hlog, -⟩ := finish_spec s cmd r
          unfold report inFlight
          rw [hw, hworker, hlog]
          simp [Event.begun?]
      | top | waiting | done => simp [hw] at h

/-- **The writes are run once, and in order.**  In every run, the writes that were asked for
since the last `start` have begun, in that order, or are still queued; none begins after
`stop`; and what has begun, write or read, has been run to its end, but for the one in
flight. -/
theorem requests_in_order (h : observed.Run (fun _ _ => True) tr s) :
    JobQueue.asked (JobQueue.life (writes tr)) =
        JobQueue.begun (JobQueue.life (writes tr)) ++ s.queue.filter ribclIsWrite ∧
      (∀ before cmd after, writes tr = before ++ .begun cmd :: after →
        JobQueue.isOpen false before = true) ∧
      tr.filterMap Event.begun? = s.log.map Prod.fst ++ s.inFlight := by
  have haccepted := Machine.Run.observed_monitored JobQueue.State.next Event.write? writeQueue
    (fun _ _ _ _ _ hstep => step_follows hstep) h
  have hbegun := Machine.Run.observed_inv
    (fun tr s => tr.filterMap Event.begun? = s.log.map Prod.fst ++ s.inFlight) rfl
    (fun tr _ _ _ _ ih _ hstep => by rw [List.filterMap_append, ih, begun_step hstep]) h
  refine ⟨JobQueue.asked_eq rfl haccepted, ?_, hbegun⟩
  intro before cmd after htr
  exact JobQueue.isOpen_of_begun haccepted htr

/-- A UID command behind a power off, up to where the UID command runs. -/
theorem requests_in_order_uid : ∃ tr s, observed.Run (fun _ _ => True) tr s ∧
    JobQueue.asked (JobQueue.life (writes tr)) = [.powerOff, .uidOff] ∧
    JobQueue.begun (JobQueue.life (writes tr)) ++ s.queue.filter ribclIsWrite =
      [.powerOff, .uidOff] := by
  have hexec : (observed.exec (fun _ _ => True) observed.start powerOffUid).map
      (fun r => JobQueue.asked (JobQueue.life (writes r.2))) = some [.powerOff, .uidOff] := by
    decide
  obtain ⟨⟨s, tr⟩, hexec, hasked⟩ := Option.map_eq_some_iff.mp hexec
  have hrun := Machine.run_of_exec hexec
  exact ⟨tr, s, hrun, hasked, (requests_in_order hrun).1.symm.trans hasked⟩

/-! ### The snapshot -/

/-- A reply says what the power is; a status read that fails leaves it unknown. -/
def Event.hostPower? : Event → Option (List UInt8)
  | .finished cmd (.error _) => if cmd = .getPowerStatus then some [] else none
  | .finished _ (.ok reply) => if reply.hostPower ≠ [] then some reply.hostPower else none
  | _ => none

def Event.health? : Event → Option HealthData
  | .finished cmd (.ok reply) =>
      let h := parseEmbeddedHealth reply.raw
      if cmd = .getEmbeddedHealth ∧ h.valid = true then some h else none
  | _ => none

def Event.watts? : Event → Option PowerReadings
  | .finished cmd (.ok reply) =>
      let p := parsePowerReadings reply.raw
      if cmd = .getPowerReadings ∧ p.valid = true then some p else none
  | _ => none

/-- The two reads that ride along. -/
def ridesAlong (cmd : RibclCommand) : Bool := cmd = .getEmbeddedHealth ∨ cmd = .getPowerReadings

/-- A command that the iLO does not answer is an error, and so is a refusal, unless it is that
of a read that rides along. -/
def Event.error? : Event → Option Bool
  | .finished _ (.error _) => some true
  | .finished cmd (.ok reply) => if ridesAlong cmd then none else some (!reply.ok)
  | _ => none

/-- The result that goes with it; a status read that succeeds leaves the old one. -/
def Event.result? : Event → Option (List UInt8)
  | .finished _ (.error err) => some err
  | .finished cmd (.ok reply) =>
      if ridesAlong cmd then none
      else if ribclIsWrite cmd then
        some (if reply.ok then ascii "ok" else orElse reply.message "failed")
      else if reply.ok then none
      else some (orElse reply.message "status read failed")
  | _ => none

def Event.action? : Event → Option (List UInt8)
  | .begun cmd => if ribclIsWrite cmd then some (ascii (ribclCommandName cmd)) else none
  | _ => none

def Event.isOpened : Event → Bool
  | .opened => true
  | _ => false

/-- What a snapshot is made of: the newest that the events say, or the default. -/
def snapshotOf (tr : List Event) (busy : Bool) : Snapshot where
  hostPower := (Trace.latest Event.hostPower? tr).getD []
  lastAction := (Trace.latest Event.action? tr).getD []
  lastResult := (Trace.latest Event.result? tr).getD []
  busy := busy
  error := (Trace.latest Event.error? tr).getD false
  health := (Trace.latest Event.health? tr).getD {}
  watts := (Trace.latest Event.watts? tr).getD {}

/-- One more event: what it says replaces what was said before. -/
def Snapshot.hear (snap : Snapshot) (e : Event) (busy : Bool) : Snapshot where
  hostPower := e.hostPower?.getD snap.hostPower
  lastAction := e.action?.getD snap.lastAction
  lastResult := e.result?.getD snap.lastResult
  busy := busy
  error := e.error?.getD snap.error
  health := e.health?.getD snap.health
  watts := e.watts?.getD snap.watts

theorem getD_or {β : Type} (a b : Option β) (d : β) : (a.or b).getD d = a.getD (b.getD d) := by
  cases a <;> rfl

theorem snapshotOf_concat (tr : List Event) (e : Event) (before busy : Bool) :
    snapshotOf (tr ++ [e]) busy = (snapshotOf tr before).hear e busy := by
  unfold snapshotOf Snapshot.hear
  simp only [Trace.latest_concat, getD_or]

/-- An answered command that reports neither health nor watts. -/
theorem finish_snap_ok (s : PowerControl) {cmd : RibclCommand} (reply : RibclReply)
    (h : ridesAlong cmd = false) :
    (s.finish cmd (.ok reply)).snap = s.snap.hear (.finished cmd (.ok reply)) false := by
  have hhealth : cmd ≠ .getEmbeddedHealth := fun he => by simp [he, ridesAlong] at h
  have hwatts : cmd ≠ .getPowerReadings := fun he => by simp [he, ridesAlong] at h
  unfold finish
  dsimp only
  rw [if_neg hhealth, if_neg hwatts]
  unfold Snapshot.hear Event.hostPower? Event.health? Event.watts? Event.error? Event.result?
    Event.action?
  dsimp only
  rw [h]
  by_cases hpower : reply.hostPower = [] <;> by_cases hwrite : ribclIsWrite cmd = true <;>
    by_cases hok : reply.ok = true <;> simp [hhealth, hwatts, hpower, hwrite, hok]

/-- **A reply** is heard as `snapshotOf` says. -/
theorem finish_snap (s : PowerControl) (cmd : RibclCommand) (r : Except (List UInt8) RibclReply) :
    (s.finish cmd r).snap = s.snap.hear (.finished cmd r) false := by
  cases r with
  | error err =>
      by_cases hcmd : cmd = .getPowerStatus
      · simp [finish, Snapshot.hear, Event.hostPower?, Event.health?, Event.watts?, Event.error?,
          Event.result?, Event.action?, hcmd]
      · simp [finish, Snapshot.hear, Event.hostPower?, Event.health?, Event.watts?, Event.error?,
          Event.result?, Event.action?, hcmd]
  | ok reply =>
      by_cases hhealth : cmd = .getEmbeddedHealth
      · subst hhealth
        by_cases hpower : reply.hostPower = [] <;>
          by_cases hvalid : (parseEmbeddedHealth reply.raw).valid = true <;>
          simp [finish, Snapshot.hear, Event.hostPower?, Event.health?, Event.watts?,
            Event.error?, Event.result?, Event.action?, ridesAlong, hpower, hvalid]
      · by_cases hwatts : cmd = .getPowerReadings
        · subst hwatts
          by_cases hpower : reply.hostPower = [] <;>
            by_cases hvalid : (parsePowerReadings reply.raw).valid = true <;>
            simp [finish, Snapshot.hear, Event.hostPower?, Event.health?, Event.watts?,
              Event.error?, Event.result?, Event.action?, ridesAlong, hpower, hvalid]
        · exact finish_snap_ok s reply (by simp [ridesAlong, hhealth, hwatts])

/-- A command that begins is shown as busy, and named if it is a write. -/
theorem take_snap (s : PowerControl) (cmd : RibclCommand) (now now' : Int) :
    (s.take cmd now now').snap = s.snap.hear (.begun cmd) true := by
  unfold take
  dsimp only
  split_ifs <;> simp_all [Snapshot.hear, Event.hostPower?, Event.health?, Event.watts?,
    Event.error?, Event.result?, Event.action?]

/-- A worker that picks something says so. -/
theorem pick_snap (s : PowerControl) (now now' : Int) :
    ((s.pick now now').inFlight = [] ∧ (s.pick now now').snap = s.snap) ∨
      ∃ cmd, (s.pick now now').inFlight = [cmd] ∧
        (s.pick now now').snap = s.snap.hear (.begun cmd) true := by
  unfold pick
  by_cases hrun : s.running = false
  · rw [if_pos hrun]
    exact Or.inl ⟨rfl, rfl⟩
  rw [if_neg hrun]
  cases s.queue with
  | cons cmd queue => exact Or.inr ⟨cmd, take_inFlight _ cmd now now', take_snap _ cmd now now'⟩
  | nil =>
      dsimp only
      by_cases hpoll : s.pollDue = true ∨ s.cfg.pollSec > 0
      · rw [if_pos hpoll]
        exact Or.inr ⟨_, take_inFlight s .getPowerStatus now now', take_snap s _ now now'⟩
      · rw [if_neg hpoll]
        exact Or.inl ⟨rfl, rfl⟩

/-- What the snapshot should be. -/
def Current (tr : List Event) (s : PowerControl) : Prop :=
  s.snap = snapshotOf (Trace.since Event.isOpened tr) (!s.inFlight.isEmpty)

/-- Nothing was reported, and nothing has changed. -/
theorem Current.keep (h : Current tr s) (hsnap : s'.snap = s.snap)
    (hflight : s'.inFlight = s.inFlight) : Current (tr ++ []) s' := by
  unfold Current
  rw [List.append_nil, hsnap, hflight]
  exact h

/-- One event was reported, and the snapshot has heard it. -/
theorem Current.hear (h : Current tr s) {e : Event} (he : e.isOpened = false)
    (hsnap : s'.snap = s.snap.hear e (!s'.inFlight.isEmpty)) : Current (tr ++ [e]) s' := by
  unfold Current
  rw [Trace.since_concat, he, if_neg (by decide), snapshotOf_concat _ _ (!s.inFlight.isEmpty),
    hsnap, h]

theorem Current.pick (h : Current tr s) (hflight : s.inFlight = []) :
    Current (tr ++ (s.pick now now').inFlight.map .begun) (s.pick now now') := by
  rcases pick_snap s now now' with ⟨hnone, hsnap⟩ | ⟨cmd, hcmd, hsnap⟩
  · rw [hnone]
    exact h.keep hsnap (hnone.trans hflight.symm)
  · rw [hcmd]
    refine h.hear rfl ?_
    rw [hsnap, hcmd]
    rfl

theorem Current.step (h : Current tr s) (hstep : s.step a = some (s', out)) :
    Current (tr ++ report s a s') s' := by
  have hbusy : s.snap.busy = !s.inFlight.isEmpty := congrArg Snapshot.busy h
  cases a with
  | start cfg =>
      obtain ⟨hw, hstep⟩ := Machine.ite_some hstep
      cases hstep
      unfold Current report
      rw [Trace.since_concat]
      rfl
  | stop =>
      cases hstep
      exact h.hear rfl (congrArg (s.snap.hear .closed) hbusy)
  | request cmd =>
      cases hstep
      exact h.hear rfl (congrArg (s.snap.hear (.asked cmd)) hbusy)
  | enter now now' =>
      obtain ⟨hw, hstep⟩ := Machine.ite_some hstep
      have hflight := inFlight_eq_nil (s := s) (by simp [hw])
      cases hstep
      unfold report
      dsimp only
      by_cases hblock : s.pollDue = false ∧ s.running = true ∧ s.queue = []
      · rw [if_pos hblock]
        exact h.keep rfl hflight.symm
      · rw [if_neg hblock]
        exact h.pick hflight
  | wake now now' =>
      obtain ⟨hw, hstep⟩ := Machine.ite_some hstep
      have hflight := inFlight_eq_nil (s := s) (by simp [hw])
      cases hstep
      exact h.pick hflight
  | finish r =>
      unfold PowerControl.step at hstep
      cases hw : s.worker with
      | busy cmd =>
          simp only [hw, Option.some.injEq, Prod.mk.injEq] at hstep
          rw [← hstep.1]
          obtain ⟨hworker, -, -, -, -⟩ := finish_spec s cmd r
          have hreport : report s (.finish r) (s.finish cmd r) = [.finished cmd r] := by
            unfold report inFlight
            rw [hw]
            rfl
          have hflight : (s.finish cmd r).inFlight = [] := by
            unfold inFlight
            rw [hworker]
          rw [hreport]
          refine h.hear rfl ?_
          rw [finish_snap, hflight]
          rfl
      | top | waiting | done => simp [hw] at hstep

/-- **The snapshot is current.**  In every run, the snapshot is made of the newest replies
since the last `start`: the power of the newest reply that told it, unless a status read has
failed since; the newest valid health and watts; the outcome of the newest command that has
one; and it is busy while a command is in flight.  Nothing in it comes from an earlier life. -/
theorem snapshot_current (h : observed.Run (fun _ _ => True) tr s) :
    s.snap = snapshotOf (Trace.since Event.isOpened tr) (!s.inFlight.isEmpty) := by
  have hstart : Current [] machine.start := rfl
  exact Machine.Run.observed_inv Current hstart (fun _ _ _ _ _ ih _ hstep => ih.step hstep) h

/-- A status read that says the power is on, and the next one, which the iLO does not answer. -/
def powerLost : List Action :=
  [.start { healthSec := 0 }, .enter 0 0, .finish (.ok { ok := true, hostPower := ascii "ON" }),
    .enter 1 1, .wake 2 2, .finish noReply]

theorem snapshot_current_lost : ∃ tr s, observed.Run (fun _ _ => True) tr s ∧
    s.snap = snapshotOf (Trace.since Event.isOpened tr) false ∧ s.snap.hostPower = [] ∧
    s.snap.lastResult = ascii "no RIBCL reply" := by
  have hexec : (observed.exec (fun _ _ => True) observed.start powerLost).map
      (fun r => (r.1.snap.hostPower, r.1.snap.lastResult, r.1.inFlight)) =
        some ([], ascii "no RIBCL reply", []) := by
    decide
  obtain ⟨⟨s, tr⟩, hexec, hobs⟩ := Option.map_eq_some_iff.mp hexec
  simp only [Prod.mk.injEq] at hobs
  obtain ⟨hpower, hresult, hflight⟩ := hobs
  have hrun := Machine.run_of_exec hexec
  have hcurrent := snapshot_current hrun
  rw [hflight] at hcurrent
  exact ⟨tr, s, hrun, hcurrent, hpower, hresult⟩

end PowerControl

end Ilo2.Ui
