import Ilo2.Lib.Machine
import Ilo2.Ribcl.Command
import Ilo2.Ribcl.Health
import Mathlib.Data.List.Induction

/-!
# Power control

`power_control.hpp` as a machine: any thread calls `start`, `stop` and `request`, and one
worker runs the commands of a queue in order.  The worker takes the lock three times: at the
top of its loop, after the wait, and after a command.

* `pick_cases`, `finish_spec` - what the worker does under the lock.
* `unread_concat` - a command makes a re-read due, or makes it not due, or leaves it.
* `reread_kept` - the re-read after a write is not lost, as long as the command that empties
  the queue is itself a status read or an answered write.
* `reread_lost` - it can be lost to a write that fails.
-/

namespace Ilo2.Ui

open Ribcl
open Tls (ascii)
open Machine (ite_some)

namespace PowerControl

/-- The address and the login of a configuration decide what the iLO answers, and are left out. -/
structure Config where
  pollSec : Int := 10
  healthSec : Int := 30
deriving DecidableEq

structure Snapshot where
  hostPower : List UInt8 := []
  lastAction : List UInt8 := []
  lastResult : List UInt8 := []
  busy : Bool := false
  error : Bool := false
  health : HealthData := {}
  watts : PowerReadings := {}
deriving DecidableEq

inductive Worker where
  /-- At the top of the loop. -/
  | top
  /-- In `wait_for`. -/
  | waiting
  /-- In `ribcl_run`. -/
  | busy (cmd : RibclCommand)
  | done
deriving DecidableEq

inductive Action where
  | start (cfg : Config)
  | stop
  | request (cmd : RibclCommand)
  /-- The lock at the top of the loop, with two readings of the clock. -/
  | enter (now now' : Int)
  /-- The end of the wait, by a notification or by the time. -/
  | wake (now now' : Int)
  /-- `ribcl_run` returns an error, or a reply. -/
  | finish (r : Except (List UInt8) RibclReply)

end PowerControl

/-- `running` is `run_`; `pollDue` and `lastHealth`, in nanoseconds, are the worker's own.
`log` is the history: the commands that were run, and whether the iLO answered.  No step
reads it. -/
structure PowerControl where
  cfg : PowerControl.Config := {}
  queue : List RibclCommand := []
  snap : PowerControl.Snapshot := {}
  running : Bool := false
  worker : PowerControl.Worker := .done
  pollDue : Bool := true
  lastHealth : Int := 0
  log : List (RibclCommand × Bool) := []

namespace PowerControl

/-! ### The worker -/

/-- The worker starts on `cmd`. -/
def take (s : PowerControl) (cmd : RibclCommand) (now now' : Int) : PowerControl :=
  let healthDue := s.cfg.healthSec > 0 ∧ now - s.lastHealth ≥ s.cfg.healthSec * 1000000000
  let s := { s with pollDue := false }
  let s :=
    if cmd = .getPowerStatus ∧ healthDue then
      { s with
        queue := .getEmbeddedHealth :: .getPowerReadings :: s.queue
        lastHealth := now' }
    else s
  { s with
    snap.busy := true
    snap.lastAction := if ribclIsWrite cmd then ascii (ribclCommandName cmd) else s.snap.lastAction
    worker := .busy cmd }

/-- What follows the wait. -/
def pick (s : PowerControl) (now now' : Int) : PowerControl :=
  if s.running = false then { s with worker := .done }
  else
    match s.queue with
    | cmd :: queue => { s with queue := queue }.take cmd now now'
    | [] =>
        if s.pollDue = true ∨ s.cfg.pollSec > 0 then s.take .getPowerStatus now now'
        else { s with worker := .top }

/-- What follows `ribcl_run`. -/
def finish (s : PowerControl) (cmd : RibclCommand) (r : Except (List UInt8) RibclReply) :
    PowerControl :=
  let s := { s with snap.busy := false, worker := .top, log := s.log ++ [(cmd, r.isOk)] }
  match r with
  | .error err =>
      { s with
        snap.error := true
        snap.lastResult := err
        snap.hostPower := if cmd = .getPowerStatus then [] else s.snap.hostPower }
  | .ok reply =>
      let s := if reply.hostPower ≠ [] then { s with snap.hostPower := reply.hostPower } else s
      if cmd = .getEmbeddedHealth then
        let h := parseEmbeddedHealth reply.raw
        if h.valid then { s with snap.health := h } else s
      else if cmd = .getPowerReadings then
        let p := parsePowerReadings reply.raw
        if p.valid then { s with snap.watts := p } else s
      else if ribclIsWrite cmd then
        { s with
          snap.error := ¬ reply.ok
          snap.lastResult := if reply.ok then ascii "ok" else orElse reply.message "failed"
          pollDue := true }
      else if ¬ reply.ok then
        { s with snap.error := true, snap.lastResult := orElse reply.message "status read failed" }
      else { s with snap.error := false }

/-- A `start` first calls `stop`, and joins the worker. -/
def step (s : PowerControl) : Action → Option (PowerControl × List Empty)
  | .start cfg =>
      if s.worker = .done then
        some ({ s with
          cfg := cfg
          running := true
          snap := {}
          queue := []
          worker := .top
          pollDue := true
          lastHealth := 0 }, [])
      else none
  | .stop => some ({ s with running := false }, [])
  | .request cmd => some ({ s with queue := s.queue ++ [cmd] }, [])
  | .enter now now' =>
      if s.worker = .top then
        some (if s.pollDue = false ∧ s.running = true ∧ s.queue = [] then
          { s with worker := .waiting } else s.pick now now', [])
      else none
  | .wake now now' => if s.worker = .waiting then some (s.pick now now', []) else none
  | .finish r =>
      match s.worker with
      | .busy cmd => some (s.finish cmd r, [])
      | _ => none

def machine : Machine PowerControl Action Empty := ⟨{}, step⟩

/-! ### What is due -/

/-- A write that the iLO answered, and no `GET_HOST_POWER_STATUS` after it. -/
def Unread (log : List (RibclCommand × Bool)) : Prop :=
  ∃ before cmd after, log = before ++ (cmd, true) :: after ∧ ribclIsWrite cmd = true ∧
    ∀ e ∈ after, e.1 ≠ .getPowerStatus

theorem unread_nil : ¬ Unread [] := by
  rintro ⟨before, cmd, after, h, -, -⟩
  simp at h

/-- **One more command** makes a re-read due if it is an answered write, and leaves one due
unless it is a status read. -/
theorem unread_concat {log : List (RibclCommand × Bool)} {cmd : RibclCommand} {answered : Bool} :
    Unread (log ++ [(cmd, answered)]) ↔
      (ribclIsWrite cmd = true ∧ answered = true) ∨ (Unread log ∧ cmd ≠ .getPowerStatus) := by
  constructor
  · rintro ⟨before, cmd', after, h, hwrite, hafter⟩
    rcases List.eq_nil_or_concat' after with rfl | ⟨after', e, rfl⟩
    · obtain ⟨-, he⟩ := List.append_inj' h rfl
      simp only [List.cons.injEq, Prod.mk.injEq, and_true] at he
      obtain ⟨rfl, rfl⟩ := he
      exact Or.inl ⟨hwrite, rfl⟩
    · rw [← List.cons_append, ← List.append_assoc] at h
      obtain ⟨hlog, he⟩ := List.append_inj' h rfl
      simp only [List.cons.injEq, and_true] at he
      subst he
      refine Or.inr ⟨⟨before, cmd', after', hlog, hwrite, ?_⟩, hafter (cmd, answered) (by simp)⟩
      intro e he
      exact hafter e (by simp [he])
  · rintro (⟨hwrite, rfl⟩ | ⟨⟨before, cmd', after, rfl, hwrite, hafter⟩, hne⟩)
    · exact ⟨log, cmd, [], rfl, hwrite, by simp⟩
    · refine ⟨before, cmd', after ++ [(cmd, answered)], by simp, hwrite, ?_⟩
      intro e he
      rcases List.mem_append.mp he with he | he
      · exact hafter e he
      · rw [List.mem_singleton.mp he]
        exact hne

/-- Whether a re-read is due, in one pass. -/
def rereadDue (log : List (RibclCommand × Bool)) : Bool :=
  log.foldl (fun due e => (ribclIsWrite e.1 && e.2) || (due && e.1 ≠ .getPowerStatus)) false

theorem rereadDue_iff (log : List (RibclCommand × Bool)) : rereadDue log = true ↔ Unread log := by
  induction log using List.reverseRecOn with
  | nil => simp [rereadDue, unread_nil]
  | append_singleton log e ih =>
      obtain ⟨cmd, answered⟩ := e
      rw [unread_concat, ← ih]
      simp [rereadDue]

instance (log : List (RibclCommand × Bool)) : Decidable (Unread log) :=
  decidable_of_iff _ (rereadDue_iff log)

/-! ### The worker under the lock -/

variable {s s' : PowerControl} {a : Action} {cmd : RibclCommand} {now now' : Int}
  {r : Except (List UInt8) RibclReply} {out tr : List Empty}
  {allow : PowerControl → Action → Prop}

theorem take_spec (s : PowerControl) (cmd : RibclCommand) (now now' : Int) :
    (s.take cmd now now').worker = .busy cmd ∧ (s.take cmd now now').pollDue = false := by
  unfold take
  dsimp only
  split_ifs
  · exact ⟨rfl, rfl⟩
  · exact ⟨rfl, rfl⟩

/-- After the wait the worker leaves, or takes a command and forgets that a poll is due, or
has nothing to do. -/
theorem pick_cases (s : PowerControl) (now now' : Int) :
    (s.pick now now').worker = .done ∨
    (∃ cmd, (s.pick now now').worker = .busy cmd ∧ (s.pick now now').pollDue = false) ∨
    (s.running = true ∧ s.queue = [] ∧ s.pollDue = false ∧
      s.pick now now' = { s with worker := .top }) := by
  unfold pick
  cases hrun : s.running with
  | false => exact Or.inl rfl
  | true =>
      rw [if_neg (by decide)]
      cases hq : s.queue with
      | cons cmd queue => exact Or.inr (Or.inl ⟨cmd, take_spec _ cmd now now'⟩)
      | nil =>
          dsimp only
          by_cases hpoll : s.pollDue = true ∨ s.cfg.pollSec > 0
          · rw [if_pos hpoll]
            exact Or.inr (Or.inl ⟨_, take_spec s .getPowerStatus now now'⟩)
          · rw [if_neg hpoll]
            have hdue : s.pollDue = false := by simpa using fun h => hpoll (Or.inl h)
            exact Or.inr (Or.inr ⟨rfl, rfl, hdue, rfl⟩)

/-- The commands after which a status read is due or has just been: a status read, and a
write that the iLO answers. -/
def Settles (cmd : RibclCommand) (r : Except (List UInt8) RibclReply) : Prop :=
  cmd = .getPowerStatus ∨ (ribclIsWrite cmd = true ∧ r.isOk = true)

instance : Decidable (Settles cmd r) := inferInstanceAs (Decidable (_ ∨ _))

/-- **After a command** a poll is due if it was before, or if the command is an answered
write. -/
theorem finish_spec (s : PowerControl) (cmd : RibclCommand) (r : Except (List UInt8) RibclReply) :
    (s.finish cmd r).worker = .top ∧ (s.finish cmd r).queue = s.queue ∧
    (s.finish cmd r).running = s.running ∧ (s.finish cmd r).log = s.log ++ [(cmd, r.isOk)] ∧
    (s.finish cmd r).pollDue = (s.pollDue || (ribclIsWrite cmd && r.isOk)) := by
  cases r with
  | error err => simp [finish, Except.isOk, Except.toBool]
  | ok reply =>
      have hok : (Except.ok reply : Except (List UInt8) RibclReply).isOk = true := rfl
      unfold finish
      dsimp only
      rw [hok]
      by_cases hhealth : cmd = .getEmbeddedHealth
      · subst hhealth
        rw [if_pos rfl]
        split_ifs <;> simp [ribclIsWrite]
      rw [if_neg hhealth]
      by_cases hwatts : cmd = .getPowerReadings
      · subst hwatts
        rw [if_pos rfl]
        split_ifs <;> simp [ribclIsWrite]
      rw [if_neg hwatts]
      by_cases hwrite : ribclIsWrite cmd = true
      · rw [if_pos hwrite]
        split_ifs <;> simp [hwrite]
      · rw [if_neg hwrite]
        simp only [Bool.not_eq_true] at hwrite
        split_ifs <;> simp [hwrite]

/-- What a step does, in which state. -/
inductive Does (s : PowerControl) : Action → PowerControl → Prop
  | started {a : Action} {s' : PowerControl} (worker : s'.worker = .top) (due : s'.pollDue = true) :
      Does s a s'
  /-- Another thread called `stop` or `request`. -/
  | called {a : Action} {s' : PowerControl} (worker : s'.worker = s.worker)
      (due : s'.pollDue = s.pollDue) (log : s'.log = s.log)
      (running : s'.running = true → s.running = true) (queue : s'.queue = [] → s.queue = []) :
      Does s a s'
  | blocked {a : Action} (worker : s.worker = .top) (due : s.pollDue = false)
      (running : s.running = true) (queue : s.queue = []) : Does s a { s with worker := .waiting }
  | left {a : Action} {s' : PowerControl} (worker : s'.worker = .done) : Does s a s'
  | took {a : Action} {s' : PowerControl} (cmd : RibclCommand) (worker : s'.worker = .busy cmd)
      (due : s'.pollDue = false) : Does s a s'
  /-- There was nothing to do after the wait. -/
  | resumed {a : Action} (worker : s.worker = .waiting) : Does s a { s with worker := .top }
  | finished (cmd : RibclCommand) (r : Except (List UInt8) RibclReply)
      (worker : s.worker = .busy cmd) : Does s (.finish r) (s.finish cmd r)

/-- The worker picks, after the wait or because it need not wait. -/
theorem pick_does (h : s.worker = .waiting ∨
    ¬ (s.pollDue = false ∧ s.running = true ∧ s.queue = [])) : Does s a (s.pick now now') := by
  rcases pick_cases s now now' with hdone | ⟨cmd, hbusy, hdue⟩ | ⟨hrun, hq, hdue, hpick⟩
  · exact .left hdone
  · exact .took cmd hbusy hdue
  · rw [hpick]
    rcases h with hw | hnot
    · exact .resumed hw
    · exact absurd ⟨hdue, hrun, hq⟩ hnot

theorem step_does (h : s.step a = some (s', out)) : Does s a s' := by
  cases a with
  | start cfg =>
      obtain ⟨-, h⟩ := ite_some h
      cases h
      exact .started rfl rfl
  | stop =>
      cases h
      exact .called rfl rfl rfl nofun id
  | request cmd =>
      cases h
      exact .called rfl rfl rfl id (by simp)
  | enter now now' =>
      obtain ⟨hw, h⟩ := ite_some h
      cases h
      by_cases hblock : s.pollDue = false ∧ s.running = true ∧ s.queue = []
      · rw [if_pos hblock]
        exact .blocked hw hblock.1 hblock.2.1 hblock.2.2
      · rw [if_neg hblock]
        exact pick_does (Or.inr hblock)
  | wake now now' =>
      obtain ⟨hw, h⟩ := ite_some h
      cases h
      exact pick_does (Or.inl hw)
  | finish r =>
      unfold step at h
      cases hw : s.worker with
      | busy cmd =>
          simp only [hw, Option.some.injEq, Prod.mk.injEq] at h
          rw [← h.1]
          exact .finished cmd r hw
      | top | waiting | done => simp [hw] at h

/-- **A busy worker has forgotten that a poll was due**, whatever it is busy with. -/
theorem busy_forgets (h : machine.Run allow tr s) (hw : s.worker = .busy cmd) :
    s.pollDue = false := by
  have hinv : ∀ cmd, s.worker = .busy cmd → s.pollDue = false := by
    refine Machine.Run.inv (fun _ s => ∀ cmd, s.worker = .busy cmd → s.pollDue = false) nofun ?_ h
    intro tr s a out s' ih hallow hstep cmd hw
    cases step_does hstep with
    | started worker due | left worker =>
        rw [worker] at hw
        cases hw
    | called worker due log running queue =>
        rw [due]
        exact ih cmd (worker ▸ hw)
    | blocked worker due running queue | resumed worker => cases hw
    | took cmd worker due => exact due
    | finished cmd r worker =>
        rw [(finish_spec s cmd r).1] at hw
        cases hw
  exact hinv cmd hw

/-! ### The re-read -/

/-- What is asked of a step: a command that empties the queue, while a re-read is due, is
itself a status read or an answered write. -/
def Keeps (s : PowerControl) (a : Action) : Prop :=
  ∀ r cmd, a = .finish r → s.worker = .busy cmd → s.running = true → s.queue = [] →
    Unread s.log → Settles cmd r

instance (s : PowerControl) (a : Action) : Decidable (Keeps s a) :=
  match a with
  | .finish r =>
      match hw : s.worker with
      | .busy cmd =>
          decidable_of_iff (s.running = true → s.queue = [] → Unread s.log → Settles cmd r)
            ⟨fun h r' cmd' ha hw' => by
              cases ha
              cases hw.symm.trans hw'
              exact h, fun h => h r cmd rfl hw⟩
      | .top | .waiting | .done => .isTrue fun _ _ _ hw' => by simp [hw] at hw'
  | .start _ | .stop | .request _ | .enter _ _ | .wake _ _ => .isTrue nofun

/-- At the top of the loop a re-read that is due is announced, unless there is something else
to do; in the wait none is due. -/
structure Rereads (s : PowerControl) : Prop where
  top : s.worker = .top → s.running = true → s.queue = [] → Unread s.log → s.pollDue = true
  waiting : s.worker = .waiting → ¬ Unread s.log

theorem Rereads.start : Rereads machine.start := ⟨nofun, nofun⟩

theorem Rereads.finish (h : Keeps s (.finish r)) (hw : s.worker = .busy cmd) :
    Rereads (s.finish cmd r) := by
  obtain ⟨hworker, hqueue, hrunning, hlog, hdue⟩ := finish_spec s cmd r
  constructor
  · intro _ hrun hq hunread
    rw [hlog, unread_concat] at hunread
    rw [hdue]
    rcases hunread with ⟨hwrite, hok⟩ | ⟨hunread, hne⟩
    · simp [hwrite, hok]
    · have hsettles := h r cmd rfl hw (hrunning ▸ hrun) (hqueue ▸ hq) hunread
      rcases hsettles with hstatus | ⟨hwrite, hok⟩
      · exact absurd hstatus hne
      · simp [hwrite, hok]
  · intro hwait
    rw [hworker] at hwait
    cases hwait

theorem Rereads.step (h : Rereads s) (hkeeps : Keeps s a) (hstep : s.step a = some (s', out)) :
    Rereads s' := by
  cases step_does hstep with
  | started worker due =>
      refine ⟨fun _ _ _ _ => due, fun hw => ?_⟩
      rw [worker] at hw
      cases hw
  | called worker due log running queue =>
      constructor
      · intro hw hrun hq hunread
        rw [due]
        exact h.top (worker ▸ hw) (running hrun) (queue hq) (log ▸ hunread)
      · intro hw hunread
        exact h.waiting (worker ▸ hw) (log ▸ hunread)
  | blocked worker due running queue =>
      refine ⟨nofun, fun _ hunread => ?_⟩
      have hdue := h.top worker running queue hunread
      rw [due] at hdue
      cases hdue
  | left worker => exact ⟨fun hw => by simp [worker] at hw, fun hw => by simp [worker] at hw⟩
  | took cmd worker due =>
      exact ⟨fun hw => by simp [worker] at hw, fun hw => by simp [worker] at hw⟩
  | resumed worker =>
      exact ⟨fun _ _ _ hunread => absurd hunread (h.waiting worker), nofun⟩
  | finished cmd r worker => exact .finish hkeeps worker

/-- A command that does not settle a re-read that is due, and leaves nothing to do, is
followed by a wait. -/
theorem lost_of_finish (hw : s.worker = .busy cmd) (hdue : s.pollDue = false)
    (hrun : s.running = true) (hq : s.queue = []) (hunread : Unread s.log)
    (hnot : ¬ Settles cmd r) (now now' : Int) :
    ∃ s₁ s₂, s.step (.finish r) = some (s₁, []) ∧ s₁.step (.enter now now') = some (s₂, []) ∧
      s₂.worker = .waiting ∧ s₂.queue = [] ∧ Unread s₂.log := by
  obtain ⟨hworker, hqueue, hrunning, hlog, hdue'⟩ := finish_spec s cmd r
  have hne : cmd ≠ .getPowerStatus := fun h => hnot (Or.inl h)
  have hunsettled : (ribclIsWrite cmd && r.isOk) = false := by
    simpa using fun h => by simpa using fun hok => hnot (Or.inr ⟨h, hok⟩)
  rw [hdue, hunsettled] at hdue'
  refine ⟨s.finish cmd r, { s.finish cmd r with worker := .waiting }, ?_, ?_, rfl, ?_, ?_⟩
  · simp [step, hw]
  · simp [step, hworker, hdue', hrunning, hrun, hqueue, hq]
  · exact hqueue.trans hq
  · show Unread (s.finish cmd r).log
    rw [hlog]
    exact unread_concat.mpr (Or.inr ⟨hunread, hne⟩)

/-- **When the re-read after a write is kept.**  In every run in which a command that empties
the queue while a re-read is due is a status read or an answered write, nothing is due when
the worker waits with an empty queue.  In any run a step that is not like that is followed by
such a wait, if no other thread comes first. -/
theorem reread_kept (tr : List Empty) (s : PowerControl) :
    (machine.Run Keeps tr s → s.worker = .waiting → s.queue = [] → ¬ Unread s.log) ∧
    ∀ a, machine.Run (fun _ _ => True) tr s → ¬ Keeps s a → ∀ now now', ∃ s₁ s₂,
      s.step a = some (s₁, []) ∧ s₁.step (.enter now now') = some (s₂, []) ∧
      s₂.worker = .waiting ∧ s₂.queue = [] ∧ Unread s₂.log := by
  constructor
  · intro h hw _
    have hinv := Machine.Run.inv (fun _ s => Rereads s) .start
      (fun _ _ _ _ _ ih hkeeps hstep => ih.step hkeeps hstep) h
    exact hinv.waiting hw
  · intro a h hnot now now'
    unfold Keeps at hnot
    push Not at hnot
    obtain ⟨r, cmd, rfl, hw, hrun, hq, hunread, hsettles⟩ := hnot
    exact lost_of_finish hw (busy_forgets h hw) hrun hq hunread hsettles now now'

/-! ### Two runs -/

/-- The iLO's answer to a command that takes effect. -/
def answer : Except (List UInt8) RibclReply := .ok { ok := true }

/-- The error of a connection that closes without a reply. -/
def noReply : Except (List UInt8) RibclReply := .error (ascii "no RIBCL reply")

/-- A power off that is asked for while the first status read runs, up to the next wait. -/
def powerOff : List Action :=
  [.start { healthSec := 0 }, .enter 0 0, .request .powerOff, .finish answer, .enter 1 1,
    .finish answer, .enter 2 2, .finish answer, .enter 3 3]

/-- The same, with a UID command behind the power off, up to where the UID command runs. -/
def powerOffUid : List Action :=
  [.start { healthSec := 0 }, .enter 0 0, .request .powerOff, .request .uidOff, .finish answer,
    .enter 1 1, .finish answer, .enter 2 2]

/-- The power off alone is followed by a status read; with the UID command, which gets no
reply, it is not. -/
theorem reread_kept_off :
    (∃ tr s, machine.Run Keeps tr s ∧ s.worker = .waiting ∧ s.queue = [] ∧
      s.log = [(.getPowerStatus, true), (.powerOff, true), (.getPowerStatus, true)] ∧
      ¬ Unread s.log) ∧
    ∃ tr s, machine.Run (fun _ _ => True) tr s ∧ ¬ Keeps s (.finish noReply) ∧
      ∃ s₁ s₂, s.step (.finish noReply) = some (s₁, []) ∧ s₁.step (.enter 3 3) = some (s₂, []) ∧
        s₂.worker = .waiting ∧ s₂.queue = [] ∧ Unread s₂.log := by
  constructor
  · have hexec : (machine.exec Keeps machine.start powerOff).map
        (fun r => (r.1.worker, r.1.queue, r.1.log)) = some (.waiting, [],
          [(.getPowerStatus, true), (.powerOff, true), (.getPowerStatus, true)]) := by
      decide
    obtain ⟨⟨s, tr⟩, hexec, hobs⟩ := Option.map_eq_some_iff.mp hexec
    simp only [Prod.mk.injEq] at hobs
    obtain ⟨hw, hq, hlog⟩ := hobs
    have hrun := Machine.run_of_exec hexec
    exact ⟨tr, s, hrun, hw, hq, hlog, (reread_kept tr s).1 hrun hw hq⟩
  · have hexec : (machine.exec (fun _ _ => True) machine.start powerOffUid).map
        (fun r => (r.1.worker, r.1.running, r.1.queue, r.1.log)) = some (.busy .uidOff, true, [],
          [(.getPowerStatus, true), (.powerOff, true)]) := by
      decide
    obtain ⟨⟨s, tr⟩, hexec, hobs⟩ := Option.map_eq_some_iff.mp hexec
    simp only [Prod.mk.injEq] at hobs
    obtain ⟨hw, hrunning, hq, hlog⟩ := hobs
    have hrun := Machine.run_of_exec hexec
    have hnot : ¬ Keeps s (.finish noReply) := by
      intro hkeeps
      have hsettles := hkeeps noReply .uidOff rfl hw hrunning hq (by rw [hlog]; decide)
      exact absurd hsettles (by decide)
    exact ⟨tr, s, hrun, hnot, (reread_kept tr s).2 _ hrun hnot 3 3⟩

/-- **A re-read can be lost**: the worker waits with an empty queue, and the status was last
read before the power off. -/
theorem reread_lost : ¬ ∀ (tr : List Empty) (s : PowerControl),
    machine.Run (fun _ _ => True) tr s → s.worker = .waiting → s.queue = [] →
      ¬ Unread s.log := by
  intro hall
  have hexec : (machine.exec (fun _ _ => True) machine.start
      (powerOffUid ++ [.finish noReply, .enter 3 3])).map
        (fun r => (r.1.worker, r.1.queue, r.1.log)) = some (.waiting, [],
          [(.getPowerStatus, true), (.powerOff, true), (.uidOff, false)]) := by
    decide
  obtain ⟨⟨s, tr⟩, hexec, hobs⟩ := Option.map_eq_some_iff.mp hexec
  simp only [Prod.mk.injEq] at hobs
  obtain ⟨hw, hq, hlog⟩ := hobs
  refine hall tr s (Machine.run_of_exec hexec) hw hq ?_
  rw [hlog]
  decide

end PowerControl

end Ilo2.Ui
