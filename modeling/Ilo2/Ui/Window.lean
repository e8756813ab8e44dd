import Ilo2.Lib.TwoClick
import Ilo2.Media.Jobs
import Ilo2.Ui.ConsoleCore
import Ilo2.Ui.Requests

/-!
# The window

The frame loop of `sdl_main.cpp` as a machine: what the buttons of a frame do, in any order,
and between any two calls of the front end the steps of the three workers.

The front end is one thread.  What it still has to call is `todo`; it is empty between two
widgets.  A widget acts on what it has read when it was drawn: the side column on the state of
the console, a tab on a snapshot.
-/

namespace Ilo2.Ui

open Ribcl
open Tls (ascii)
open TwoClick (Arm)
open Machine (ite_some)

namespace Window

/-- Of the command line: `--replay`, `--refresh-every` and `--screenshot`. -/
structure Options where
  replay : Bool := false
  refreshEvery : Int := 0
  screenshot : Bool := false

/-- The field of the host, and the password that was found. -/
structure Login where
  host : String
  pass : List UInt8

/-- What the front end calls. -/
inductive Call where
  | coreStop
  | coreDisconnect
  | coreJoin
  | input (c : InputCall)
  | powerStop
  | powerJoin
  | powerStart (cfg : PowerControl.Config)
  | request (cmd : RibclCommand)
  | mediaStop
  | mediaJoin
  | mediaStart (cfg : Media.Config)
  | push (j : Media.Job)
  /-- The end of `do_disconnect`. -/
  | disarm
deriving DecidableEq

/-- The side column: the login, or the controls of a session. -/
inductive Side where
  | idle
  | session
deriving DecidableEq

/-- The clicks of a frame on the power tab; an arming button has the time of its click. -/
structure PowerClicks where
  on : Bool := false
  arm : RibclCommand → Option UInt64 := fun _ => none
  cancel : Bool := false
  uidOn : Bool := false
  uidOff : Bool := false

/-- The clicks of a frame on the media tab. -/
structure MediaClicks where
  mount : Bool := false
  eject : Bool := false
  refresh : Bool := false
  boot : Option UInt64 := none
  cancel : Bool := false

/-- How the dialog that guards a close ends. -/
inductive Answer where
  | keep
  | ejectAndClose
  /-- With Escape. -/
  | dismissed
deriving DecidableEq

/-- Why the loop was left. -/
inductive Reason where
  /-- There was nothing to guard. -/
  | unguarded
  | answered
  | screenshot
deriving DecidableEq

inductive Event where
  | core (o : Out)
  | replaying
  | power (e : PowerControl.Event)
  | media (e : Media.Panel.Event)
  | arm (e : TwoClick.Event RibclCommand)
  | bootArm (e : TwoClick.Event Unit)
  /-- `do_connect` shows an error. -/
  | refused (err : List UInt8)
  | left (r : Reason)

inductive Action where
  /-- The side column is drawn. -/
  | draw
  | connect (login : Login) (file : Except (List UInt8) Nat)
  | disconnect
  /-- An event of SDL, or `--wake`, and what it makes of it. -/
  | forward (calls : List InputCall)
  | refresh
  | ctrlAltDel
  | powerTab (now : UInt64) (click : PowerClicks)
  | mediaTab (path : List UInt8) (now : UInt64) (click : MediaClicks)
  | requestClose
  | guard (answer : Option Answer)
  | screenshot
  /-- The next call of the front end. -/
  | call
  | core (a : WorkerAction)
  | power (a : PowerControl.Action)
  | media (a : Media.Action)

def ARM_TIMEOUT_MS : UInt64 := 6000

end Window

/-- `powerUp` and `mediaUp`: the thread can be joined.  `guardUp` is `close_guard_up`, `popup`
what ImGui knows of the dialog. -/
structure Window where
  opt : Window.Options := {}
  core : ConsoleCore := {}
  power : PowerControl := {}
  powerUp : Bool := false
  media : Media.Panel := .absent
  mediaUp : Bool := false
  arm : Arm RibclCommand := { what := .getPowerStatus }
  bootArm : Arm Unit := { what := () }
  uiError : List UInt8 := []
  side : Window.Side := .idle
  closeRequested : Bool := false
  guardUp : Bool := false
  popup : Bool := false
  quit : Bool := false
  todo : List Window.Call := []

namespace Window

/-! ### What a widget calls -/

def stopCore : List Call := [.coreStop, .coreDisconnect, .coreJoin]

def stopPower : List Call := [.powerStop, .powerJoin]

def stopMedia : List Call := [.mediaStop, .mediaJoin]

/-- The end of `do_connect`: a `start` begins with `stop`. -/
def onConnect (login : Login) : List Call :=
  stopPower ++ .powerStart {} :: stopMedia ++ [.mediaStart { host := ascii login.host }]

/-- `do_disconnect`. -/
def onDisconnect : List Call := stopCore ++ stopPower ++ stopMedia ++ [.disarm]

/-- The end of `main`, and the destructors. -/
def onQuit : List Call := stopCore ++ stopMedia ++ stopMedia ++ stopPower ++ stopCore

def refuse (s : Window) (err : List UInt8) : Window × List Event :=
  ({ s with uiError := err }, [.refused err])

/-- `do_connect`. -/
def connect (s : Window) (login : Login) (file : Except (List UInt8) Nat) : Window × List Event :=
  let s := { s with uiError := [] }
  if s.opt.replay then
    if s.core.worker ≠ .none then s.refuse (ascii "already running")
    else
      match file with
      | .error err => s.refuse err
      | .ok size => ({ s with core := s.core.startReplay (some size) 200000 }, [.replaying])
  else if login.host = "" then s.refuse (ascii "no host")
  else if login.pass = [] then
    s.refuse (ascii "no password (field, --pass, ILO_PASS or .ilo_pass)")
  else if s.core.worker ≠ .none then s.refuse (ascii "already running")
  else
    let r := s.core.start { host := login.host, refreshEverySec := s.opt.refreshEvery }
    ({ s with core := r.1, todo := onConnect login }, r.2.map .core)

/-- The destructive commands. -/
def isDestructive (cmd : RibclCommand) : Bool :=
  cmd = .powerOff ∨ cmd = .forcePowerOff ∨ cmd = .reset ∨ cmd = .coldBoot

/-- The arming buttons that are drawn. -/
def armRow (ps : PowerControl.Snapshot) : List RibclCommand :=
  if ps.hostPower = ascii "ON" then [.powerOff, .forcePowerOff, .reset, .coldBoot]
  else [.reset, .coldBoot]

/-- The power tab: the arm, what happened to it, and the commands that are asked for. -/
def powerTab (ps : PowerControl.Snapshot) (now : UInt64) (click : PowerClicks)
    (arm : Arm RibclCommand) :
    Arm RibclCommand × List (TwoClick.Event RibclCommand) × List RibclCommand :=
  let expired := arm.expire ARM_TIMEOUT_MS now
  let row := expired.1.buttons now
    ((armRow ps).map fun cmd => (cmd, if ps.busy then none else click.arm cmd))
  let cancelled := row.1.cancel click.cancel
  (cancelled.1, expired.2 ++ row.2 ++ cancelled.2,
    (if click.on ∧ ps.hostPower ≠ ascii "ON" ∧ ps.busy = false then [.powerOn] else []) ++
      TwoClick.confirmed row.2 ++ (if click.uidOn then [.uidOn] else []) ++
      (if click.uidOff then [.uidOff] else []))

/-- The media tab, when the licence allows it. -/
def mediaTab (ms : Media.Snapshot) (path : List UInt8) (now : UInt64) (click : MediaClicks)
    (arm : Arm Unit) : Arm Unit × List (TwoClick.Event Unit) × List Media.Job :=
  let inserted := ms.vm.imageInserted
  let expired := arm.expire ARM_TIMEOUT_MS now
  let row := expired.1.buttons now [((), if ms.busy ∨ inserted = false then none else click.boot)]
  let cancelled := row.1.cancel click.cancel
  (cancelled.1, expired.2 ++ row.2 ++ cancelled.2,
    (if click.mount ∧ ms.busy = false ∧ inserted = false ∧ path ≠ [] then [.mount path] else []) ++
      (if click.eject ∧ ms.busy = false ∧ inserted then [.eject] else []) ++
      (if click.refresh ∧ ms.busy = false then [.refresh] else []) ++
      (TwoClick.confirmed row.2).map fun _ => .armBoot)

/-- The loop is left; what follows it is still to be called. -/
def leave (s : Window) (r : Reason) : Window × List Event :=
  ({ s with quit := true, todo := onQuit }, [.left r])

/-- The guard of a close. -/
def guard (s : Window) (answer : Option Answer) : Window × List Event :=
  let url := if s.mediaUp then s.media.ctl.snap.url else []
  if s.closeRequested ∧ s.guardUp = false ∧ url = [] then
    { s with closeRequested := false }.leave .unguarded
  else
    let opens := s.closeRequested ∧ s.guardUp = false
    let s := if opens then { s with popup := true, guardUp := true } else s
    match s.popup, answer with
    | true, some .keep =>
        ({ s with closeRequested := false, popup := false, guardUp := false }, [])
    | true, some .ejectAndClose =>
        { s with closeRequested := false, popup := false, guardUp := false }.leave .answered
    | true, some .dismissed =>
        ({ s with closeRequested := false, popup := false, guardUp := false }, [])
    | _, _ => (s, [])

/-! ### The calls -/

/-- A step of the console core, or a call of it. -/
def coreStep (s : Window) (a : Ui.Action) : Option (Window × List Event) :=
  (s.core.step a).map fun r => ({ s with core := r.1 }, r.2.map .core)

def powerStep (s : Window) (a : PowerControl.Action) : Option (Window × List Event) :=
  (s.power.step a).map fun r =>
    ({ s with power := r.1 }, (PowerControl.report s.power a r.1).map .power)

def mediaStep (s : Window) (a : Media.Action) : Option (Window × List Event) :=
  (s.media.step a).map fun r =>
    ({ s with media := r.1 }, (Media.Panel.report s.media a r.1 r.2).map .media)

/-- `MediaControl::start`, after its `stop`. -/
def mediaStart (s : Window) (cfg : Media.Config) : Option (Window × List Event) :=
  (s.media.start cfg).map fun m => ({ s with media := m, mediaUp := true },
    [.media (.queue .opened)])

def call (s : Window) : Call → Option (Window × List Event)
  | .coreStop => s.coreStep (.front .stop)
  | .coreDisconnect => s.coreStep (.front .disconnect)
  | .coreJoin => s.coreStep (.front .join)
  | .input c => s.coreStep (.front (.input c))
  | .powerStop => s.powerStep .stop
  | .powerJoin =>
      if s.powerUp = false ∨ s.power.worker = .done then some ({ s with powerUp := false }, [])
      else none
  | .powerStart cfg =>
      (powerStep { s with powerUp := true } (.start cfg)).map fun r =>
        (r.1, r.2 ++ [Event.arm .renewed])
  | .request cmd => s.powerStep (.request cmd)
  | .mediaStop =>
      if s.mediaUp then s.mediaStep .stop
      else some ({ s with media.ctl.running := false }, [.media (.queue .closed)])
  | .mediaJoin =>
      if s.mediaUp then mediaStep { s with mediaUp := false } .join
      else some ({ s with media.ctl := s.media.ctl.stopServer }, [.media (.out .stopServer)])
  | .mediaStart cfg => (s.mediaStart cfg).map fun r => (r.1, r.2 ++ [Event.bootArm .renewed])
  | .push j => s.mediaStep (.push j)
  | .disarm =>
      some ({ s with arm.armed := false, bootArm.armed := false },
        [.arm .disarmed, .bootArm .disarmed])

/-! ### The steps -/

/-- The states in which the side column shows the login. -/
def isIdle : ConsoleState → Bool
  | .idle | .failed | .stopped => true
  | .connecting | .connected => false

/-- The steps of the worker of `PowerControl`. -/
def ofPowerWorker : PowerControl.Action → Bool
  | .enter _ _ | .wake _ _ | .finish _ => true
  | .start _ | .stop | .request _ => false

/-- The steps of the worker of `MediaControl`. -/
def ofMediaWorker : Media.Action → Bool
  | .begin _ | .take | .insert _ | .finish _ | .poll _ | .leave | .last _ => true
  | .push _ | .stop | .join => false

/-- A widget of a frame. -/
def widget (s : Window) : Action → Option (Window × List Event)
  | .draw => some ({ s with side := if isIdle s.core.state then .idle else .session }, [])
  | .connect login file => if s.side = .idle then some (s.connect login file) else none
  | .disconnect => if s.side = .session then some ({ s with todo := onDisconnect }, []) else none
  | .forward calls =>
      if s.core.state = .connected then some ({ s with todo := calls.map .input }, []) else none
  | .refresh =>
      if s.side = .session then some ({ s with todo := [.input .requestRefresh] }, []) else none
  | .ctrlAltDel =>
      if s.side = .session then some ({ s with todo := [.input .sendCtrlAltDel] }, []) else none
  | .powerTab now click =>
      if s.powerUp then
        let r := powerTab s.power.snap now click s.arm
        some ({ s with arm := r.1, todo := r.2.2.map .request }, r.2.1.map .arm)
      else none
  | .mediaTab path now click =>
      if s.mediaUp ∧ s.media.ctl.unlicensed = false then
        let r := mediaTab s.media.ctl.snap path now click s.bootArm
        some ({ s with bootArm := r.1, todo := r.2.2.map .push }, r.2.1.map .bootArm)
      else none
  | .requestClose => some ({ s with closeRequested := true }, [])
  | .guard answer => some (s.guard answer)
  | .screenshot => if s.opt.screenshot then some (s.leave .screenshot) else none
  | _ => none

def step (s : Window) : Action → Option (Window × List Event)
  | .call =>
      match s.todo with
      | [] => none
      | c :: todo => { s with todo := todo }.call c
  | .core a => s.coreStep (.worker a)
  | .power a => if ofPowerWorker a then s.powerStep a else none
  | .media a => if ofMediaWorker a then s.mediaStep a else none
  | a => if s.todo = [] ∧ s.quit = false then s.widget a else none

/-- From the start of the loop on. -/
def machine (opt : Options) : Machine Window Action Event := ⟨{ opt := opt }, step⟩

/-- A connect, up to where the workers begin. -/
def connecting : List Action :=
  [.connect ⟨"a", [0x70]⟩ (.error []), .call, .call, .call, .call, .call, .call]

/-! ### What a step does -/

/-- What a widget does. -/
inductive Draws (s : Window) : Window → List Event → Prop
  | draw : Draws s { s with side := if isIdle s.core.state then .idle else .session } []
  | refuse (err : List UInt8) : Draws s { s with uiError := err } [.refused err]
  | replay (size : Nat) (worker : s.core.worker = .none) :
      Draws s { s with uiError := [], core := s.core.startReplay (some size) 200000 } [.replaying]
  | connect (login : Login) (cfg : Config) (worker : s.core.worker = .none) (host : cfg.host ≠ "") :
      Draws s { s with uiError := [], core := (s.core.start cfg).1, todo := onConnect login }
        ((s.core.start cfg).2.map .core)
  | disconnect (side : s.side = .session) : Draws s { s with todo := onDisconnect } []
  | input (calls : List InputCall) : Draws s { s with todo := calls.map .input } []
  | powerTab (now : UInt64) (click : PowerClicks) (up : s.powerUp = true) :
      Draws s { s with
        arm := (Window.powerTab s.power.snap now click s.arm).1
        todo := (Window.powerTab s.power.snap now click s.arm).2.2.map .request }
        ((Window.powerTab s.power.snap now click s.arm).2.1.map .arm)
  | mediaTab (path : List UInt8) (now : UInt64) (click : MediaClicks) (up : s.mediaUp = true) :
      Draws s { s with
        bootArm := (Window.mediaTab s.media.ctl.snap path now click s.bootArm).1
        todo := (Window.mediaTab s.media.ctl.snap path now click s.bootArm).2.2.map .push }
        ((Window.mediaTab s.media.ctl.snap path now click s.bootArm).2.1.map .bootArm)
  /-- The guard asks, or has been answered. -/
  | guard (closeRequested guardUp popup : Bool) :
      Draws s { s with closeRequested := closeRequested, guardUp := guardUp, popup := popup } []
  | leave (r : Reason) (closeRequested guardUp popup : Bool)
      (url : r = .unguarded → s.mediaUp = true → s.media.ctl.snap.url = []) :
      Draws s { s with
        closeRequested := closeRequested, guardUp := guardUp, popup := popup
        quit := true, todo := onQuit } [.left r]

/-- What a step does. -/
inductive Does (s : Window) : Action → Window → List Event → Prop
  | widget {a : Action} {s' : Window} {out : List Event} (todo : s.todo = [])
      (quit : s.quit = false) (draws : Draws s s' out) : Does s a s' out
  | called {s' : Window} {out : List Event} (c : Call) (todo : List Call)
      (eq : s.todo = c :: todo) (call : { s with todo := todo }.call c = some (s', out)) :
      Does s .call s' out
  | core {c : ConsoleCore} {out : List Out} (a : WorkerAction)
      (step : s.core.workerStep a = some (c, out)) :
      Does s (.core a) { s with core := c } (out.map .core)
  | power {p : PowerControl} {out : List Empty} (a : PowerControl.Action)
      (worker : ofPowerWorker a = true) (step : s.power.step a = some (p, out)) :
      Does s (.power a) { s with power := p } ((PowerControl.report s.power a p).map .power)
  | media {m : Media.Panel} {out : List Media.Out} (a : Media.Action)
      (worker : ofMediaWorker a = true) (step : s.media.step a = some (m, out)) :
      Does s (.media a) { s with media := m } ((Media.Panel.report s.media a m out).map .media)

variable {s s' : Window} {a : Action} {out : List Event}

theorem coreStep_some {b : Ui.Action} (h : s.coreStep b = some (s', out)) :
    ∃ core o, s.core.step b = some (core, o) ∧ s' = { s with core := core } ∧
      out = o.map .core := by
  obtain ⟨⟨core, o⟩, hstep, h⟩ := Option.map_eq_some_iff.mp h
  cases h
  exact ⟨core, o, hstep, rfl, rfl⟩

theorem coreFront_some {b : FrontAction} (h : s.coreStep (.front b) = some (s', out)) :
    ∃ core o, s.core.frontStep b = some (core, o) ∧ s' = { s with core := core } ∧
      out = o.map .core :=
  coreStep_some h

theorem powerStep_some {b : PowerControl.Action} (h : s.powerStep b = some (s', out)) :
    ∃ p o, s.power.step b = some (p, o) ∧ s' = { s with power := p } ∧
      out = (PowerControl.report s.power b p).map .power := by
  obtain ⟨⟨p, o⟩, hstep, h⟩ := Option.map_eq_some_iff.mp h
  cases h
  exact ⟨p, o, hstep, rfl, rfl⟩

theorem mediaStep_some {b : Media.Action} (h : s.mediaStep b = some (s', out)) :
    ∃ m o, s.media.step b = some (m, o) ∧ s' = { s with media := m } ∧
      out = (Media.Panel.report s.media b m o).map .media := by
  obtain ⟨⟨m, o⟩, hstep, h⟩ := Option.map_eq_some_iff.mp h
  cases h
  exact ⟨m, o, hstep, rfl, rfl⟩

theorem mediaStart_some {cfg : Media.Config} (h : s.call (.mediaStart cfg) = some (s', out)) :
    s.media.worker = .done ∧ out = [.media (.queue .opened), .bootArm .renewed] ∧
      s' = { s with
        media := { s.media with
          ctl := { s.media.ctl with cfg := cfg, running := true, snap := {}, queue := [] }
          worker := .starting
          caller := .free }
        mediaUp := true } := by
  obtain ⟨⟨s₁, out₁⟩, hstart, h⟩ := Option.map_eq_some_iff.mp h
  obtain ⟨m, hstart, hs₁⟩ := Option.map_eq_some_iff.mp hstart
  obtain ⟨⟨hdone, -⟩, hstart⟩ := ite_some hstart
  cases hstart
  cases hs₁
  cases h
  exact ⟨hdone, rfl, rfl⟩

theorem connect_draws (s : Window) (login : Login) (file : Except (List UInt8) Nat) :
    Draws s (s.connect login file).1 (s.connect login file).2 := by
  unfold connect
  dsimp only
  by_cases hreplay : s.opt.replay = true
  · rw [if_pos hreplay]
    by_cases hw : s.core.worker ≠ .none
    · rw [if_pos hw]
      exact .refuse _
    · rw [if_neg hw]
      cases file with
      | error err => exact .refuse err
      | ok size => exact .replay size (not_not.mp hw)
  rw [if_neg hreplay]
  by_cases hhost : login.host = ""
  · rw [if_pos hhost]
    exact .refuse _
  rw [if_neg hhost]
  by_cases hpass : login.pass = []
  · rw [if_pos hpass]
    exact .refuse _
  rw [if_neg hpass]
  by_cases hw : s.core.worker ≠ .none
  · rw [if_pos hw]
    exact .refuse _
  · rw [if_neg hw]
    exact .connect login _ (not_not.mp hw) hhost

theorem guard_draws (s : Window) (answer : Option Answer) :
    Draws s (s.guard answer).1 (s.guard answer).2 := by
  unfold guard
  dsimp only
  by_cases hleave : s.closeRequested = true ∧ s.guardUp = false ∧
      (if s.mediaUp = true then s.media.ctl.snap.url else []) = []
  · rw [if_pos hleave]
    refine .leave .unguarded false s.guardUp s.popup ?_
    intro _ hup
    rw [← hleave.2.2, if_pos hup]
  rw [if_neg hleave]
  by_cases hopens : s.closeRequested = true ∧ s.guardUp = false
  · rw [if_pos hopens]
    rcases answer with _ | _ | _ | _
    · exact .guard s.closeRequested true true
    · exact .guard false false false
    · exact .leave .answered false false false nofun
    · exact .guard false false false
  · rw [if_neg hopens]
    split
    · exact .guard false false false
    · exact .leave .answered false false false nofun
    · exact .guard false false false
    · exact .guard s.closeRequested s.guardUp s.popup

theorem widget_draws (h : s.widget a = some (s', out)) : Draws s s' out := by
  cases a with
  | draw =>
      cases h
      exact .draw
  | connect login file =>
      obtain ⟨-, h⟩ := ite_some h
      have hdraws := connect_draws s login file
      rwa [h] at hdraws
  | disconnect =>
      obtain ⟨hside, h⟩ := ite_some h
      cases h
      exact .disconnect hside
  | forward calls =>
      obtain ⟨-, h⟩ := ite_some h
      cases h
      exact .input calls
  | refresh =>
      obtain ⟨-, h⟩ := ite_some h
      cases h
      exact .input [.requestRefresh]
  | ctrlAltDel =>
      obtain ⟨-, h⟩ := ite_some h
      cases h
      exact .input [.sendCtrlAltDel]
  | powerTab now click =>
      obtain ⟨hup, h⟩ := ite_some h
      cases h
      exact .powerTab now click hup
  | mediaTab path now click =>
      obtain ⟨⟨hup, -⟩, h⟩ := ite_some h
      cases h
      exact .mediaTab path now click hup
  | requestClose =>
      cases h
      exact .guard true s.guardUp s.popup
  | guard answer =>
      have hdraws := guard_draws s answer
      rwa [show s.guard answer = (s', out) from Option.some.inj h] at hdraws
  | screenshot =>
      obtain ⟨-, h⟩ := ite_some h
      cases h
      exact .leave .screenshot s.closeRequested s.guardUp s.popup nofun
  | call | core a | power a | media a => cases h

theorem step_does (h : s.step a = some (s', out)) : Does s a s' out := by
  cases a with
  | call =>
      dsimp only [step] at h
      split at h
      · cases h
      · rename_i c todo htodo
        exact .called c todo htodo h
  | core a =>
      obtain ⟨core, o, hstep, rfl, rfl⟩ := coreStep_some h
      exact .core a hstep
  | power a =>
      dsimp only [step] at h
      split at h
      · rename_i hworker
        obtain ⟨p, o, hstep, rfl, rfl⟩ := powerStep_some h
        exact .power a hworker hstep
      · cases h
  | media a =>
      dsimp only [step] at h
      split at h
      · rename_i hworker
        obtain ⟨m, o, hstep, rfl, rfl⟩ := mediaStep_some h
        exact .media a hworker hstep
      · cases h
  | draw | connect login file | disconnect | forward calls | refresh | ctrlAltDel
  | powerTab now click | mediaTab path now click | requestClose | guard answer | screenshot =>
      dsimp only [step] at h
      split at h
      · rename_i hidle
        exact .widget hidle.1 hidle.2 (widget_draws h)
      · cases h

end Window

end Ilo2.Ui
