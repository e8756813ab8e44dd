import Ilo2.Lib.Approval
import Ilo2.Ui.Phases

/-!
# Two clicks in the window

The commands that switch the server off or reset it, and the boot from the image, take two
clicks.  A connect begins with nothing armed.

* `power_confirmed` - **a destructive command that the worker begins was confirmed** on this
  connection, once for each time, and the click before the confirmation armed it.
* `boot_confirmed` - the same for the boot.
-/

namespace Ilo2.Ui.Window

open Ribcl
open JobQueue (State)
open TwoClick (Arm)
open Machine (ite_some)

/-! ### What is told -/

def Event.power? : Event → Option PowerControl.Event
  | .power e => some e
  | _ => none

def Event.arm? : Event → Option (TwoClick.Event RibclCommand)
  | .arm e => some e
  | _ => none

def Event.media? : Event → Option Media.Panel.Event
  | .media e => some e
  | _ => none

def Event.bootArm? : Event → Option (TwoClick.Event Unit)
  | .bootArm e => some e
  | _ => none

/-- The queue of the writes. -/
def Event.write? (e : Event) : Option (JobQueue.Event RibclCommand) := e.power?.bind (·.write?)

/-- The queue of the media jobs. -/
def Event.job? (e : Event) : Option (JobQueue.Event Media.Job) := e.media?.bind (·.queue?)

/-- The destructive commands, and their buttons. -/
def powerView : Approval.View Event RibclCommand RibclCommand where
  job := Event.write?
  click := Event.arm?
  of := id
  needs := isDestructive
  timeout := ARM_TIMEOUT_MS

/-- The boot from the image, and its button. -/
def bootView : Approval.View Event Media.Job Unit where
  job := Event.job?
  click := Event.bootArm?
  of _ := .armBoot
  needs j := j = .armBoot
  timeout := ARM_TIMEOUT_MS

/-- What a call tells of the power control, and of the arms. -/
def Call.tellsPower : Call → List PowerControl.Event
  | .powerStop => [.closed]
  | .powerStart _ => [.opened]
  | .request cmd => [.asked cmd]
  | _ => []

def Call.tellsArm : Call → List (TwoClick.Event RibclCommand)
  | .powerStart _ => [.renewed]
  | .disarm => [.disarmed]
  | _ => []

def Call.tellsJobs : Call → List (JobQueue.Event Media.Job)
  | .mediaStop => [.closed]
  | .mediaStart _ => [.opened]
  | .push j => [.asked j]
  | _ => []

def Call.tellsBootArm : Call → List (TwoClick.Event Unit)
  | .mediaStart _ => [.renewed]
  | .disarm => [.disarmed]
  | _ => []

/-- What a step tells. -/
structure Tells (out : List Event) (power : List PowerControl.Event)
    (arm : List (TwoClick.Event RibclCommand)) (jobs : List (JobQueue.Event Media.Job))
    (bootArm : List (TwoClick.Event Unit)) : Prop where
  power : out.filterMap Event.power? = power
  arm : out.filterMap Event.arm? = arm
  jobs : out.filterMap Event.job? = jobs
  bootArm : out.filterMap Event.bootArm? = bootArm

variable {s s' : Window} {a : Action} {c : Call} {out tr : List Event}

theorem tells_core (o : List Out) : Tells (o.map .core) [] [] [] [] :=
  ⟨Trace.filterMap_map_none (fun _ => rfl) o, Trace.filterMap_map_none (fun _ => rfl) o,
    Trace.filterMap_map_none (fun _ => rfl) o, Trace.filterMap_map_none (fun _ => rfl) o⟩

theorem tells_power (l : List PowerControl.Event) : Tells (l.map .power) l [] [] [] :=
  ⟨Trace.filterMap_map_some (f := Event.power?) (g := Event.power) (fun _ => rfl) l,
    Trace.filterMap_map_none (fun _ => rfl) l, Trace.filterMap_map_none (fun _ => rfl) l,
    Trace.filterMap_map_none (fun _ => rfl) l⟩

theorem tells_media (l : List Media.Panel.Event) :
    Tells (l.map .media) [] [] (l.filterMap (·.queue?)) [] := by
  refine ⟨Trace.filterMap_map_none (fun _ => rfl) l, Trace.filterMap_map_none (fun _ => rfl) l, ?_,
    Trace.filterMap_map_none (fun _ => rfl) l⟩
  rw [List.filterMap_map]
  rfl

theorem tells_arm (l : List (TwoClick.Event RibclCommand)) : Tells (l.map .arm) [] l [] [] :=
  ⟨Trace.filterMap_map_none (fun _ => rfl) l,
    Trace.filterMap_map_some (f := Event.arm?) (g := Event.arm) (fun _ => rfl) l,
    Trace.filterMap_map_none (fun _ => rfl) l, Trace.filterMap_map_none (fun _ => rfl) l⟩

theorem tells_bootArm (l : List (TwoClick.Event Unit)) : Tells (l.map .bootArm) [] [] [] l :=
  ⟨Trace.filterMap_map_none (fun _ => rfl) l, Trace.filterMap_map_none (fun _ => rfl) l,
    Trace.filterMap_map_none (fun _ => rfl) l,
    Trace.filterMap_map_some (f := Event.bootArm?) (g := Event.bootArm) (fun _ => rfl) l⟩

/-- What a step of the media panel tells of its queue. -/
theorem media_tells {m m' : Media.Panel} {b : Media.Action} {o : List Media.Out}
    (jobs : List (JobQueue.Event Media.Job))
    (hreport : (Media.Panel.report m b m' []).filterMap (·.queue?) = jobs) :
    Tells ((Media.Panel.report m b m' o).map .media) [] [] jobs [] := by
  have htells := tells_media (Media.Panel.report m b m' o)
  have hout : (Media.Panel.report m b m' o).filterMap (·.queue?) = jobs := by
    rw [← hreport]
    unfold Media.Panel.report
    rw [List.filterMap_append, List.filterMap_append, Media.Panel.queue?_out]
    rfl
  rwa [hout] at htells

theorem call_tells (h : s.call c = some (s', out)) :
    Tells out c.tellsPower c.tellsArm c.tellsJobs c.tellsBootArm := by
  cases c with
  | coreStop | coreDisconnect | coreJoin | input i =>
      obtain ⟨core, o, -, -, rfl⟩ := coreStep_some h
      exact tells_core o
  | powerStop | request cmd =>
      obtain ⟨p, o, -, -, rfl⟩ := powerStep_some h
      exact tells_power _
  | powerJoin =>
      obtain ⟨-, h⟩ := ite_some h
      cases h
      exact ⟨rfl, rfl, rfl, rfl⟩
  | powerStart cfg =>
      obtain ⟨⟨s₁, out₁⟩, hstep, h⟩ := Option.map_eq_some_iff.mp h
      obtain ⟨p, o, -, -, rfl⟩ := powerStep_some hstep
      cases h
      exact ⟨rfl, rfl, rfl, rfl⟩
  | mediaStop =>
      dsimp only [call] at h
      split at h
      · obtain ⟨m, o, -, -, rfl⟩ := mediaStep_some h
        exact media_tells _ rfl
      · cases h
        exact ⟨rfl, rfl, rfl, rfl⟩
  | mediaJoin =>
      dsimp only [call] at h
      split at h
      · obtain ⟨m, o, -, -, rfl⟩ := mediaStep_some h
        exact media_tells _ rfl
      · cases h
        exact ⟨rfl, rfl, rfl, rfl⟩
  | mediaStart cfg =>
      obtain ⟨-, rfl, rfl⟩ := mediaStart_some h
      exact ⟨rfl, rfl, rfl, rfl⟩
  | push j =>
      obtain ⟨m, o, -, -, rfl⟩ := mediaStep_some h
      exact media_tells _ rfl
  | disarm =>
      cases h
      exact ⟨rfl, rfl, rfl, rfl⟩

/-! ### The queues -/

/-- **The queue of the writes** follows a call. -/
theorem call_writes (h : s.call c = some (s', out)) :
    (c.tellsPower.filterMap (·.write?)).foldlM State.next s.power.writeQueue =
      some s'.power.writeQueue := by
  cases c with
  | powerStop | request cmd =>
      obtain ⟨p, o, hstep, rfl, -⟩ := powerStep_some h
      exact PowerControl.step_follows hstep
  | powerStart cfg =>
      obtain ⟨⟨s₁, out₁⟩, hstep, h⟩ := Option.map_eq_some_iff.mp h
      obtain ⟨p, o, hp, rfl, -⟩ := powerStep_some hstep
      cases h
      exact PowerControl.step_follows hp
  | coreStop | coreDisconnect | coreJoin | input i =>
      obtain ⟨core, o, -, rfl, -⟩ := coreStep_some h
      rfl
  | powerJoin =>
      obtain ⟨-, h⟩ := ite_some h
      cases h
      rfl
  | mediaStop | mediaJoin =>
      dsimp only [call] at h
      split at h
      · obtain ⟨m, o, -, rfl, -⟩ := mediaStep_some h
        rfl
      · cases h
        rfl
  | mediaStart cfg =>
      obtain ⟨-, rfl, rfl⟩ := mediaStart_some h
      rfl
  | push j =>
      obtain ⟨m, o, -, rfl, -⟩ := mediaStep_some h
      rfl
  | disarm =>
      cases h
      rfl

/-- The queue of the jobs follows a step of the panel. -/
theorem panel_follows {b : Media.Action} {m m' : Media.Panel} {o : List Media.Out}
    {jobs : List (JobQueue.Event Media.Job)} (hstep : m.step b = some (m', o))
    (hreport : (Media.Panel.report m b m' []).filterMap (·.queue?) = jobs) :
    jobs.foldlM State.next m.jobQueue = some m'.jobQueue := by
  have hfollows := Media.Panel.step_follows hstep
  have htells := (media_tells (o := o) jobs hreport).jobs
  rw [List.filterMap_map] at htells
  rwa [show (Media.Panel.report m b m' o).filterMap Media.Panel.Event.queue? = jobs from htells]
    at hfollows

/-- **The queue of the jobs** follows a call. -/
theorem call_jobs (h : s.call c = some (s', out)) :
    c.tellsJobs.foldlM State.next s.media.jobQueue = some s'.media.jobQueue := by
  cases c with
  | powerStop | request cmd =>
      obtain ⟨p, o, -, rfl, -⟩ := powerStep_some h
      rfl
  | powerStart cfg =>
      obtain ⟨⟨s₁, out₁⟩, hstep, h⟩ := Option.map_eq_some_iff.mp h
      obtain ⟨p, o, -, rfl, -⟩ := powerStep_some hstep
      cases h
      rfl
  | coreStop | coreDisconnect | coreJoin | input i =>
      obtain ⟨core, o, -, rfl, -⟩ := coreStep_some h
      rfl
  | powerJoin =>
      obtain ⟨-, h⟩ := ite_some h
      cases h
      rfl
  | mediaStop =>
      dsimp only [call] at h
      split at h
      · obtain ⟨m, o, hstep, rfl, -⟩ := mediaStep_some h
        exact panel_follows hstep rfl
      · cases h
        rfl
  | mediaJoin =>
      dsimp only [call] at h
      split at h
      · obtain ⟨m, o, hstep, rfl, -⟩ := mediaStep_some h
        exact panel_follows hstep rfl
      · cases h
        rfl
  | mediaStart cfg =>
      obtain ⟨-, rfl, rfl⟩ := mediaStart_some h
      rfl
  | push j =>
      obtain ⟨m, o, hstep, rfl, -⟩ := mediaStep_some h
      exact panel_follows hstep rfl
  | disarm =>
      cases h
      rfl

/-! ### The tabs -/

/-- The buttons of a row are different ones. -/
theorem armRow_nodup (ps : PowerControl.Snapshot) (click : RibclCommand → Option UInt64) :
    (((armRow ps).map fun cmd => (cmd, click cmd)).map Prod.fst).Nodup := by
  have hnames : ((armRow ps).map fun cmd => (cmd, click cmd)).map Prod.fst = armRow ps := by
    rw [List.map_map]
    exact List.map_id _
  rw [hnames]
  unfold armRow
  split <;> decide

/-- The arm of the power tab follows its buttons. -/
theorem powerTab_follows (ps : PowerControl.Snapshot) (now : UInt64) (click : PowerClicks)
    (arm : Arm RibclCommand) :
    (powerTab ps now click arm).2.1.foldlM (TwoClick.next ARM_TIMEOUT_MS) arm.pending =
      some (powerTab ps now click arm).1.pending := by
  unfold powerTab
  dsimp only
  rw [List.foldlM_append, List.foldlM_append, TwoClick.expire_follows]
  have hrow := TwoClick.buttons_follow
    (armRow_nodup ps fun cmd => if ps.busy then none else click.arm cmd)
    fun harm => Or.inl (TwoClick.expire_fresh ARM_TIMEOUT_MS now arm harm)
  dsimp only [Option.bind_eq_bind, Option.bind_some]
  rw [hrow]
  exact TwoClick.cancel_follows click.cancel _

theorem destructive_of_row {ps : PowerControl.Snapshot} {cmd : RibclCommand}
    (h : cmd ∈ armRow ps) : isDestructive cmd = true := by
  have hall : ∀ cmd ∈ [RibclCommand.powerOff, .forcePowerOff, .reset, .coldBoot],
      isDestructive cmd = true := by decide
  unfold armRow at h
  split at h
  · exact hall cmd h
  · exact hall cmd (List.mem_of_mem_drop (i := 2) h)

/-- **The destructive commands** that the power tab asks for are those that are confirmed. -/
theorem powerTab_requests (ps : PowerControl.Snapshot) (now : UInt64) (click : PowerClicks)
    (arm : Arm RibclCommand) :
    (powerTab ps now click arm).2.2.filter isDestructive =
      TwoClick.confirmed (powerTab ps now click arm).2.1 := by
  have hharmless (p : Prop) [Decidable p] (cmd : RibclCommand) (hcmd : isDestructive cmd = false) :
      (if p then [cmd] else []).filter isDestructive = [] := by
    split
    · simp [hcmd]
    · rfl
  unfold powerTab
  dsimp only
  rw [TwoClick.confirmed_append, TwoClick.confirmed_append, TwoClick.confirmed_expire,
    TwoClick.confirmed_cancel, List.append_nil, List.nil_append, List.filter_append,
    List.filter_append, List.filter_append, hharmless _ .powerOn rfl, hharmless _ .uidOn rfl,
    hharmless _ .uidOff rfl, List.append_nil, List.append_nil, List.nil_append]
  refine List.filter_eq_self.mpr fun cmd hcmd => ?_
  have hrow := TwoClick.mem_of_confirmed hcmd
  rw [List.map_map] at hrow
  obtain ⟨cmd', hcmd', rfl⟩ := List.mem_map.mp hrow
  exact destructive_of_row hcmd'

/-- The arm of the media tab follows its button. -/
theorem mediaTab_follows (ms : Media.Snapshot) (path : List UInt8) (now : UInt64)
    (click : MediaClicks) (arm : Arm Unit) :
    (mediaTab ms path now click arm).2.1.foldlM (TwoClick.next ARM_TIMEOUT_MS) arm.pending =
      some (mediaTab ms path now click arm).1.pending := by
  unfold mediaTab
  dsimp only
  rw [List.foldlM_append, List.foldlM_append, TwoClick.expire_follows]
  have hnodup : ([((), if ms.busy = true ∨ ms.vm.imageInserted = false then none
      else click.boot)].map Prod.fst).Nodup := by simp
  have hrow := TwoClick.buttons_follow hnodup
    fun harm => Or.inl (TwoClick.expire_fresh ARM_TIMEOUT_MS now arm harm)
  dsimp only [Option.bind_eq_bind, Option.bind_some]
  rw [hrow]
  exact TwoClick.cancel_follows click.cancel _

/-- **The boots** that the media tab asks for are those that are confirmed. -/
theorem mediaTab_jobs (ms : Media.Snapshot) (path : List UInt8) (now : UInt64)
    (click : MediaClicks) (arm : Arm Unit) :
    (mediaTab ms path now click arm).2.2.filter bootView.needs =
      (TwoClick.confirmed (mediaTab ms path now click arm).2.1).map bootView.of := by
  have hother (p : Prop) [Decidable p] (j : Media.Job) (hj : bootView.needs j = false) :
      (if p then [j] else []).filter bootView.needs = [] := by
    split
    · simp [hj]
    · rfl
  unfold mediaTab
  dsimp only
  rw [TwoClick.confirmed_append, TwoClick.confirmed_append, TwoClick.confirmed_expire,
    TwoClick.confirmed_cancel, List.append_nil, List.nil_append, List.filter_append,
    List.filter_append, List.filter_append, hother _ (.mount path) rfl, hother _ .eject rfl,
    hother _ .refresh rfl, List.append_nil, List.append_nil, List.nil_append]
  refine List.filter_eq_self.mpr fun j hj => ?_
  obtain ⟨-, -, rfl⟩ := List.mem_map.mp hj
  rfl

/-! ### The accounts -/

def Call.request? : Call → Option RibclCommand
  | .request cmd => some cmd
  | _ => none

def Call.push? : Call → Option Media.Job
  | .push j => some j
  | _ => none

/-- The destructive commands that are confirmed and not yet asked for. -/
def pendingPower (todo : List Call) : List RibclCommand :=
  (todo.filterMap Call.request?).filter isDestructive

/-- The boots that are confirmed and not yet asked for. -/
def pendingBoot (todo : List Call) : List Media.Job :=
  (todo.filterMap Call.push?).filter bootView.needs

def PowerAccount (tr : List Event) (s : Window) : Prop :=
  Approval.Account powerView tr s.power.writeQueue s.arm.pending (pendingPower s.todo)

def BootAccount (tr : List Event) (s : Window) : Prop :=
  Approval.Account bootView tr s.media.jobQueue s.bootArm.pending (pendingBoot s.todo)

theorem write?_eq (out : List Event) :
    out.filterMap Event.write? = (out.filterMap Event.power?).filterMap (·.write?) :=
  (List.filterMap_filterMap ..).symm

variable {power : List PowerControl.Event} {arm : List (TwoClick.Event RibclCommand)}
  {jobs : List (JobQueue.Event Media.Job)} {bootArm : List (TwoClick.Event Unit)}

/-- A step that tells little keeps the account of the power control. -/
theorem PowerAccount.append (h : PowerAccount tr s) (htells : Tells out power arm jobs bootArm)
    (hopened : .opened ∉ power.filterMap (·.write?))
    (hqueue : (power.filterMap (·.write?)).foldlM State.next s.power.writeQueue =
      some s'.power.writeQueue)
    (harm : arm.foldlM (TwoClick.next ARM_TIMEOUT_MS) s.arm.pending = some s'.arm.pending)
    (hpending : pendingPower s.todo ++ TwoClick.confirmed arm =
      (JobQueue.asked (power.filterMap (·.write?))).filter isDestructive ++ pendingPower s'.todo) :
    PowerAccount (tr ++ out) s' := by
  refine Approval.Account.append h ?_ htells.arm hopened hqueue harm ?_
  · rw [← htells.power]
    exact write?_eq out
  · rw [show powerView.of = id from rfl, List.map_id]
    exact hpending

theorem BootAccount.append (h : BootAccount tr s) (htells : Tells out power arm jobs bootArm)
    (hopened : .opened ∉ jobs)
    (hqueue : jobs.foldlM State.next s.media.jobQueue = some s'.media.jobQueue)
    (harm : bootArm.foldlM (TwoClick.next ARM_TIMEOUT_MS) s.bootArm.pending =
      some s'.bootArm.pending)
    (hpending : pendingBoot s.todo ++ (TwoClick.confirmed bootArm).map bootView.of =
      (JobQueue.asked jobs).filter bootView.needs ++ pendingBoot s'.todo) :
    BootAccount (tr ++ out) s' :=
  Approval.Account.append h htells.jobs htells.bootArm hopened hqueue harm hpending

/-- A script asks for nothing. -/
theorem pending_nil {todo : List Call} (h : ∀ c ∈ todo, c.ofSession = false) :
    pendingPower todo = [] ∧ pendingBoot todo = [] := by
  have hrequest : todo.filterMap Call.request? = [] := by
    refine List.filterMap_eq_nil_iff.mpr fun c hc => ?_
    have hsession := h c hc
    cases c <;> simp [Call.ofSession, Call.request?] at hsession ⊢
  have hpush : todo.filterMap Call.push? = [] := by
    refine List.filterMap_eq_nil_iff.mpr fun c hc => ?_
    have hsession := h c hc
    cases c <;> simp [Call.ofSession, Call.push?] at hsession ⊢
  unfold pendingPower pendingBoot
  rw [hrequest, hpush]
  exact ⟨rfl, rfl⟩

theorem pending_input (calls : List InputCall) :
    pendingPower (calls.map .input) = [] ∧ pendingBoot (calls.map .input) = [] := by
  unfold pendingPower pendingBoot
  rw [Trace.filterMap_map_none fun _ => rfl, Trace.filterMap_map_none fun _ => rfl]
  exact ⟨rfl, rfl⟩

theorem pending_request (cmds : List RibclCommand) :
    pendingPower (cmds.map .request) = cmds.filter isDestructive ∧
      pendingBoot (cmds.map .request) = [] := by
  unfold pendingPower pendingBoot
  rw [Trace.filterMap_map_some (f := Call.request?) (g := Call.request) fun _ => rfl,
    Trace.filterMap_map_none fun _ => rfl]
  exact ⟨rfl, rfl⟩

theorem pending_push (jobs : List Media.Job) :
    pendingPower (jobs.map .push) = [] ∧
      pendingBoot (jobs.map .push) = jobs.filter bootView.needs := by
  unfold pendingPower pendingBoot
  rw [Trace.filterMap_map_some (f := Call.push?) (g := Call.push) fun _ => rfl,
    Trace.filterMap_map_none fun _ => rfl]
  exact ⟨rfl, rfl⟩

/-- A call asks for what was pending first. -/
theorem pendingPower_cons (c : Call) (todo : List Call) :
    pendingPower (c :: todo) ++ TwoClick.confirmed c.tellsArm =
      (JobQueue.asked (c.tellsPower.filterMap (·.write?))).filter isDestructive ++
        pendingPower todo := by
  cases c with
  | request cmd =>
      have hwrite : isDestructive cmd = true → ribclIsWrite cmd = true := by cases cmd <;> decide
      by_cases hcmd : isDestructive cmd = true
      · simp [pendingPower, Call.request?, Call.tellsArm, Call.tellsPower, TwoClick.confirmed,
          JobQueue.asked, PowerControl.Event.write?, hwrite hcmd, hcmd]
      · by_cases hw : ribclIsWrite cmd = true
        · simp [pendingPower, Call.request?, Call.tellsArm, Call.tellsPower, TwoClick.confirmed,
            JobQueue.asked, PowerControl.Event.write?, hw, hcmd]
        · simp [pendingPower, Call.request?, Call.tellsArm, Call.tellsPower, TwoClick.confirmed,
            JobQueue.asked, PowerControl.Event.write?, hw, hcmd]
  | coreStop | coreDisconnect | coreJoin | input i | powerStop | powerJoin | powerStart cfg
  | mediaStop | mediaJoin | mediaStart cfg | push j | disarm => exact List.append_nil _

theorem pendingBoot_cons (c : Call) (todo : List Call) :
    pendingBoot (c :: todo) ++ (TwoClick.confirmed c.tellsBootArm).map bootView.of =
      (JobQueue.asked c.tellsJobs).filter bootView.needs ++ pendingBoot todo := by
  cases c with
  | push j =>
      by_cases hj : bootView.needs j = true
      · simp [pendingBoot, Call.push?, Call.tellsBootArm, Call.tellsJobs, TwoClick.confirmed,
          JobQueue.asked, hj]
      · simp [pendingBoot, Call.push?, Call.tellsBootArm, Call.tellsJobs, TwoClick.confirmed,
          JobQueue.asked, hj]
  | coreStop | coreDisconnect | coreJoin | input i | powerStop | powerJoin | powerStart cfg
  | request cmd | mediaStop | mediaJoin | mediaStart cfg | disarm => exact List.append_nil _

/-- A step that neither account hears. -/
theorem PowerAccount.quiet (h : PowerAccount tr s) (htells : Tells out [] [] jobs bootArm)
    (hpower : s'.power = s.power) (harm : s'.arm = s.arm)
    (hpending : pendingPower s'.todo = pendingPower s.todo) : PowerAccount (tr ++ out) s' := by
  refine h.append htells List.not_mem_nil ?_ ?_ ?_
  · rw [hpower]
    rfl
  · rw [harm]
    rfl
  · rw [hpending]
    exact List.append_nil _

theorem BootAccount.quiet (h : BootAccount tr s) (htells : Tells out power arm [] [])
    (hmedia : s'.media.jobQueue = s.media.jobQueue) (harm : s'.bootArm = s.bootArm)
    (hpending : pendingBoot s'.todo = pendingBoot s.todo) : BootAccount (tr ++ out) s' := by
  refine h.append htells List.not_mem_nil ?_ ?_ ?_
  · rw [hmedia]
    rfl
  · rw [harm]
    rfl
  · rw [hpending]
    exact List.append_nil _

theorem PowerAccount.widget (h : PowerAccount tr s) (htodo : s.todo = [])
    (hdraws : Draws s s' out) : PowerAccount (tr ++ out) s' := by
  have hnone : pendingPower s.todo = [] := by
    rw [htodo]
    rfl
  cases hdraws with
  | draw | guard closeRequested guardUp popup | refuse err | replay size worker =>
      exact h.quiet ⟨rfl, rfl, rfl, rfl⟩ rfl rfl rfl
  | connect login cfg worker host => exact h.quiet (tells_core _) rfl rfl hnone.symm
  | disconnect side | leave r closeRequested guardUp popup url =>
      exact h.quiet ⟨rfl, rfl, rfl, rfl⟩ rfl rfl hnone.symm
  | input calls =>
      exact h.quiet ⟨rfl, rfl, rfl, rfl⟩ rfl rfl ((pending_input calls).1.trans hnone.symm)
  | powerTab now click up =>
      refine h.append (tells_arm _) List.not_mem_nil rfl (powerTab_follows _ now click s.arm) ?_
      rw [hnone, ← powerTab_requests, (pending_request _).1]
      rfl
  | mediaTab path now click up =>
      exact h.quiet (tells_bootArm _) rfl rfl ((pending_push _).1.trans hnone.symm)

theorem BootAccount.widget (h : BootAccount tr s) (htodo : s.todo = [])
    (hdraws : Draws s s' out) : BootAccount (tr ++ out) s' := by
  have hnone : pendingBoot s.todo = [] := by
    rw [htodo]
    rfl
  cases hdraws with
  | draw | guard closeRequested guardUp popup | refuse err | replay size worker =>
      exact h.quiet ⟨rfl, rfl, rfl, rfl⟩ rfl rfl rfl
  | connect login cfg worker host => exact h.quiet (tells_core _) rfl rfl hnone.symm
  | disconnect side | leave r closeRequested guardUp popup url =>
      exact h.quiet ⟨rfl, rfl, rfl, rfl⟩ rfl rfl hnone.symm
  | input calls =>
      exact h.quiet ⟨rfl, rfl, rfl, rfl⟩ rfl rfl ((pending_input calls).2.trans hnone.symm)
  | powerTab now click up =>
      exact h.quiet (tells_arm _) rfl rfl ((pending_request _).2.trans hnone.symm)
  | mediaTab path now click up =>
      refine h.append (tells_bootArm _) List.not_mem_nil rfl
        (mediaTab_follows _ path now click s.bootArm) ?_
      rw [hnone, ← mediaTab_jobs, (pending_push _).2]
      rfl

/-- A call that is not a start leaves an arm, or takes it away. -/
theorem call_arms (hkeeps : Keeps s c s') (hstarts : c.starts = false) :
    c.tellsArm.foldlM (TwoClick.next ARM_TIMEOUT_MS) s.arm.pending = some s'.arm.pending ∧
    c.tellsBootArm.foldlM (TwoClick.next ARM_TIMEOUT_MS) s.bootArm.pending =
      some s'.bootArm.pending := by
  by_cases hc : c = .disarm
  · obtain ⟨harm, hboot⟩ := hkeeps.disarm hc
    subst hc
    unfold Arm.pending
    rw [harm, hboot]
    exact ⟨rfl, rfl⟩
  · obtain ⟨harm, hboot⟩ := hkeeps.arm hc
    rw [harm, hboot]
    cases c with
    | powerStart cfg | mediaStart cfg => cases hstarts
    | disarm => exact absurd rfl hc
    | coreStop | coreDisconnect | coreJoin | input i | powerStop | powerJoin | request cmd
    | mediaStop | mediaJoin | push j => exact ⟨rfl, rfl⟩

/-- Only a start opens a queue. -/
theorem call_opens (hstarts : c.starts = false) :
    .opened ∉ c.tellsPower.filterMap (·.write?) ∧ .opened ∉ c.tellsJobs := by
  cases c with
  | powerStart cfg | mediaStart cfg => cases hstarts
  | request cmd =>
      refine ⟨?_, List.not_mem_nil⟩
      by_cases hw : ribclIsWrite cmd = true
      · simp [Call.tellsPower, PowerControl.Event.write?, hw]
      · simp [Call.tellsPower, PowerControl.Event.write?, hw]
  | push j => exact ⟨List.not_mem_nil, by simp [Call.tellsJobs]⟩
  | coreStop | coreDisconnect | coreJoin | input i | powerStop | powerJoin | mediaStop | mediaJoin
  | disarm =>
      constructor
      · simp [Call.tellsPower, PowerControl.Event.write?]
      · simp [Call.tellsJobs]

theorem pending_none {β : Type} {arm : Arm β} (h : arm.armed = false) : arm.pending = none := by
  unfold Arm.pending
  rw [h]
  rfl

theorem PowerAccount.called {todo : List Call} (h : PowerAccount tr s) (hphase : Phase s)
    (htodo : s.todo = c :: todo) (hcall : { s with todo := todo }.call c = some (s', out)) :
    PowerAccount (tr ++ out) s' := by
  have hkeeps := call_keeps hcall
  have hpending := pendingPower_cons c todo
  rw [← htodo, ← show s'.todo = todo from hkeeps.todo] at hpending
  have hwrites : (c.tellsPower.filterMap (·.write?)).foldlM State.next s.power.writeQueue =
      some s'.power.writeQueue := call_writes (s := { s with todo := todo }) hcall
  by_cases hstarts : c.starts = false
  · obtain ⟨harms, -⟩ := call_arms hkeeps hstarts
    exact h.append (call_tells hcall) (call_opens hstarts).1 hwrites harms hpending
  obtain ⟨harm, -, hrest⟩ := hphase.starting htodo (eq_true_of_ne_false hstarts)
  have hoff := pending_none harm
  cases c with
  | powerStart cfg =>
      obtain ⟨⟨s₁, out₁⟩, hstep, heq⟩ := Option.map_eq_some_iff.mp hcall
      obtain ⟨p, o, hp, rfl, rfl⟩ := powerStep_some hstep
      obtain ⟨-, hp⟩ := ite_some hp
      cases hp
      cases heq
      unfold PowerAccount
      dsimp only
      rw [(pending_nil hrest).1, hoff]
      exact Approval.Account.opened h hoff rfl rfl rfl rfl
  | mediaStart cfg =>
      obtain ⟨hsame, -⟩ := hkeeps.arm nofun
      exact h.append (call_tells hcall) List.not_mem_nil hwrites (by rw [hsame]; rfl) hpending
  | _ => exact absurd rfl hstarts

theorem BootAccount.called {todo : List Call} (h : BootAccount tr s) (hphase : Phase s)
    (htodo : s.todo = c :: todo) (hcall : { s with todo := todo }.call c = some (s', out)) :
    BootAccount (tr ++ out) s' := by
  have hkeeps := call_keeps hcall
  have hpending := pendingBoot_cons c todo
  rw [← htodo, ← show s'.todo = todo from hkeeps.todo] at hpending
  have hjobs : c.tellsJobs.foldlM State.next s.media.jobQueue = some s'.media.jobQueue :=
    call_jobs (s := { s with todo := todo }) hcall
  by_cases hstarts : c.starts = false
  · obtain ⟨-, harms⟩ := call_arms hkeeps hstarts
    exact h.append (call_tells hcall) (call_opens hstarts).2 hjobs harms hpending
  obtain ⟨-, hboot, hrest⟩ := hphase.starting htodo (eq_true_of_ne_false hstarts)
  have hoff := pending_none hboot
  cases c with
  | mediaStart cfg =>
      obtain ⟨-, rfl, rfl⟩ := mediaStart_some hcall
      unfold BootAccount
      dsimp only
      rw [(pending_nil hrest).2, hoff]
      exact Approval.Account.opened h hoff rfl rfl rfl rfl
  | powerStart cfg =>
      obtain ⟨-, hsame⟩ := hkeeps.arm nofun
      exact h.append (call_tells hcall) List.not_mem_nil hjobs (by rw [hsame]; rfl) hpending
  | _ => exact absurd rfl hstarts

/-- The worker of the power control neither opens its queue nor asks. -/
theorem powerWorker_tells {a : PowerControl.Action} (ha : ofPowerWorker a = true)
    (p p' : PowerControl) :
    .opened ∉ (PowerControl.report p a p').filterMap (·.write?) ∧
      JobQueue.asked ((PowerControl.report p a p').filterMap (·.write?)) = [] := by
  cases a with
  | start cfg | stop | request cmd => cases ha
  | enter now now' | wake now now' =>
      unfold PowerControl.report PowerControl.inFlight
      cases p'.worker with
      | top | waiting | done => exact ⟨List.not_mem_nil, rfl⟩
      | busy cmd =>
          by_cases hw : ribclIsWrite cmd = true
          · simp [PowerControl.Event.write?, JobQueue.asked, hw]
          · simp [PowerControl.Event.write?, JobQueue.asked, hw]
  | finish r =>
      unfold PowerControl.report PowerControl.inFlight
      cases p.worker with
      | top | waiting | done | busy cmd => exact ⟨List.not_mem_nil, rfl⟩

theorem mediaWorker_tells {a : Media.Action} (ha : ofMediaWorker a = true) (m m' : Media.Panel)
    (o : List Media.Out) :
    .opened ∉ (Media.Panel.report m a m' o).filterMap (·.queue?) ∧
      JobQueue.asked ((Media.Panel.report m a m' o).filterMap (·.queue?)) = [] := by
  unfold Media.Panel.report
  rw [List.filterMap_append]
  have hout : (o.map Media.Panel.Event.out).filterMap (·.queue?) = [] := Media.Panel.queue?_out o
  rw [hout, List.append_nil]
  cases a with
  | push j | stop | join => cases ha
  | take =>
      unfold Media.Panel.inHand
      cases m'.worker with
      | starting | idle | leaving | done => exact ⟨List.not_mem_nil, rfl⟩
      | busy j | inserted iso url => simp [Media.Panel.Event.queue?, JobQueue.asked]
  | finish w =>
      dsimp only
      rw [Trace.filterMap_map_none fun _ => rfl]
      exact ⟨List.not_mem_nil, rfl⟩
  | begin w | insert w | poll w | leave | last w => exact ⟨List.not_mem_nil, rfl⟩

theorem PowerAccount.step (h : PowerAccount tr s) (hphase : Phase s) (hdoes : Does s a s' out) :
    PowerAccount (tr ++ out) s' := by
  cases hdoes with
  | widget todo quit draws => exact h.widget todo draws
  | called c todo eq call => exact h.called hphase eq call
  | core a step => exact h.quiet (tells_core _) rfl rfl rfl
  | media a worker step => exact h.quiet (tells_media _) rfl rfl rfl
  | power a worker step =>
      obtain ⟨hopened, hasked⟩ := powerWorker_tells worker s.power _
      refine h.append (tells_power _) hopened (PowerControl.step_follows step) rfl ?_
      rw [hasked]
      exact List.append_nil _

theorem BootAccount.step (h : BootAccount tr s) (hphase : Phase s) (hdoes : Does s a s' out) :
    BootAccount (tr ++ out) s' := by
  cases hdoes with
  | widget todo quit draws => exact h.widget todo draws
  | called c todo eq call => exact h.called hphase eq call
  | core a step => exact h.quiet (tells_core _) rfl rfl rfl
  | power a worker step => exact h.quiet (tells_power _) rfl rfl rfl
  | media a worker step =>
      obtain ⟨hopened, hasked⟩ := mediaWorker_tells worker _ _ _
      refine h.append (tells_media _) hopened (Media.Panel.step_follows step) rfl ?_
      rw [hasked]
      exact List.append_nil _

/-! ### The runs -/

variable {opt : Options} {allow : Window → Action → Prop}

theorem powerAccount_of_run (h : (machine opt).Run allow tr s) : PowerAccount tr s := by
  have hstart : Phase (machine opt).start ∧ PowerAccount [] (machine opt).start :=
    ⟨Phase.start opt, Approval.Account.start⟩
  refine (Machine.Run.inv (fun tr s => Phase s ∧ PowerAccount tr s) hstart ?_ h).2
  intro tr s a out s' ih _ hstep
  have hdoes := step_does hstep
  exact ⟨ih.1.step hdoes, ih.2.step ih.1 hdoes⟩

theorem bootAccount_of_run (h : (machine opt).Run allow tr s) : BootAccount tr s := by
  have hstart : Phase (machine opt).start ∧ BootAccount [] (machine opt).start :=
    ⟨Phase.start opt, Approval.Account.start⟩
  refine (Machine.Run.inv (fun tr s => Phase s ∧ BootAccount tr s) hstart ?_ h).2
  intro tr s a out s' ih _ hstep
  have hdoes := step_does hstep
  exact ⟨ih.1.step hdoes, ih.2.step ih.1 hdoes⟩

/-- **Nothing destructive without two clicks.**  In every run, the destructive commands that the
worker has begun since the last connect are, in that order, the first of those that were
confirmed since; and directly before every confirmation the click on the same button armed it, at
most six seconds before the tab was last tested. -/
theorem power_confirmed (h : (machine opt).Run allow tr s) :
    powerView.begun (powerView.life tr) <+: powerView.confirmed (powerView.life tr) ∧
    ∀ before cmd now after, tr.filterMap Event.arm? = before ++ .confirmed cmd now :: after →
      ∃ before' t, before = before' ++ [.armed cmd t] ∧ now - t ≤ ARM_TIMEOUT_MS := by
  have haccount := powerAccount_of_run h
  exact ⟨haccount.begun_prefix, fun before cmd now after htr => haccount.armed htr⟩

/-- A click on the button of `cmd`. -/
def clickOn (cmd : RibclCommand) (t : UInt64) : PowerClicks :=
  { arm := fun cmd' => if cmd' = cmd then some t else none }

/-- Two clicks on the reset, and the worker takes it. -/
def twoClicks : List Action :=
  connecting ++ [.powerTab 1000 (clickOn .reset 1000), .powerTab 2000 (clickOn .reset 2000), .call,
    .power (.enter 0 0)]

theorem power_confirmed_reset : ∃ tr s, (machine {}).Run (fun _ _ => True) tr s ∧
    powerView.begun (powerView.life tr) = [.reset] ∧
    [.reset] <+: powerView.confirmed (powerView.life tr) := by
  have hexec : ((machine {}).exec (fun _ _ => True) (machine {}).start twoClicks).map
      (fun r => powerView.begun (powerView.life r.2)) = some [.reset] := by
    decide
  obtain ⟨⟨s, tr⟩, hexec, hbegun⟩ := Option.map_eq_some_iff.mp hexec
  have hrun := Machine.run_of_exec hexec
  exact ⟨tr, s, hrun, hbegun, hbegun ▸ (power_confirmed hrun).1⟩

/-- **No boot from the image without two clicks**, in the same way. -/
theorem boot_confirmed (h : (machine opt).Run allow tr s) :
    bootView.begun (bootView.life tr) <+: bootView.confirmed (bootView.life tr) ∧
    ∀ before now after, tr.filterMap Event.bootArm? = before ++ .confirmed () now :: after →
      ∃ before' t, before = before' ++ [.armed () t] ∧ now - t ≤ ARM_TIMEOUT_MS := by
  have haccount := bootAccount_of_run h
  exact ⟨haccount.begun_prefix, fun before now after htr => haccount.armed htr⟩

/-- A world in which every command takes effect, and an image is inserted. -/
def insertedWorld : Media.World :=
  { Media.World.refusing [] with
    ribcl := fun _ => .ok {
      ok := true
      raw := Tls.ascii "<GET_VM_STATUS DEVICE=\"CDROM\" IMAGE_INSERTED=\"YES\"/>" } }

/-- Two clicks on the boot, and the worker takes it. -/
def twoBootClicks : List Action :=
  connecting ++ [.media (.begin insertedWorld), .mediaTab [] 1000 { boot := some 1000 },
    .mediaTab [] 2000 { boot := some 2000 }, .call, .media .take]

theorem boot_confirmed_once : ∃ tr s, (machine {}).Run (fun _ _ => True) tr s ∧
    bootView.begun (bootView.life tr) = [.armBoot] ∧
    [.armBoot] <+: bootView.confirmed (bootView.life tr) := by
  have hexec : ((machine {}).exec (fun _ _ => True) (machine {}).start twoBootClicks).map
      (fun r => bootView.begun (bootView.life r.2)) = some [.armBoot] := by
    decide
  obtain ⟨⟨s, tr⟩, hexec, hbegun⟩ := Option.map_eq_some_iff.mp hexec
  have hrun := Machine.run_of_exec hexec
  exact ⟨tr, s, hrun, hbegun, hbegun ▸ (boot_confirmed hrun).1⟩

end Ilo2.Ui.Window
