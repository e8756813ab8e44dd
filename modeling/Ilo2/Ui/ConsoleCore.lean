import Ilo2.Lib.Machine
import Ilo2.Session.Input

/-!
# The life of a console core

`console_core.hpp`: `start`, `start_replay`, `stop` and the input methods, called by the
front end, and `live_thread`, `replay_thread`, `pump` and `Telnet::run`, executed by the
worker, as a machine that interleaves the steps of the two.

The three run flags are apart: `running_` of the core, and `running_` and `connected_` of
the session (`Link`).  The worker owns the session until it publishes it in `session_`.
-/

namespace Ilo2.Ui

open Session

inductive ConsoleState where
  | idle | connecting | connected | stopped | failed
deriving DecidableEq

/-- What `live_thread` reads of the configuration here. -/
structure Config where
  host : String
  refreshEverySec : Int := 0
deriving DecidableEq

/-- The flags of a session. -/
structure Link where
  connected : Bool
  running : Bool
deriving DecidableEq

/-- `Telnet::disconnect`. -/
def Link.disconnect (l : Link) : Link :=
  if l.connected then { l with connected := false, running := false } else l

/-- Where the worker is. -/
inductive Worker where
  /-- There is no thread to join. -/
  | none
  /-- `live_thread`, before it has the console parameters. -/
  | acquire
  /-- Before `connect`. -/
  | connect
  /-- Connected; `session_` is not set yet. -/
  | publish (sess : Link)
  /-- Published; the state is not set yet. -/
  | published
  /-- Before `run`. -/
  | enter
  /-- `run`, at the condition of the receive loop. -/
  | test
  /-- In `pump`, before the swap. -/
  | swap
  /-- In `pump`, with its local variables. -/
  | pump (pending : List (List UInt8)) (refresh : Bool)
  | recv
  /-- After the loop. -/
  | leave
  /-- Back in `live_thread`. -/
  | finish
  /-- `replay_thread`, before its first statement. -/
  | replayStart (size chunk : Nat)
  /-- `replay_thread`, with the bytes that are left. -/
  | replay (left chunk : Nat)
  /-- The thread has ended and has not been joined. -/
  | done
deriving DecidableEq

/-- The worker is in the receive loop of `run`. -/
def Worker.InLoop : Worker → Prop
  | .test | .swap | .pump _ _ | .recv => True
  | _ => False

instance (w : Worker) : Decidable w.InLoop := by
  unfold Worker.InLoop
  split <;> infer_instance

/-- Where the thread that starts and stops is. -/
inductive Caller where
  | idle
  /-- In `stop`, before the test of `session_`. -/
  | stopping
  /-- In `stop`, waiting for the worker. -/
  | join
deriving DecidableEq

structure ConsoleCore where
  cfg : Config := ⟨"", 0⟩
  fbW : Int := 0
  fbH : Int := 0
  input : Input := {}
  outbox : List (List UInt8) := []
  wantRefresh : Bool := false
  session : Option Link := none
  worker : Worker := .none
  running : Bool := false
  state : ConsoleState := .idle
  caller : Caller := .idle
deriving DecidableEq

/-- What a step does to the outside, and what the input methods were asked for. -/
inductive Out where
  /-- A live session has been started. -/
  | started (host : String)
  /-- `queue_locked` was given a string when `held` strings were queued. -/
  | offered (bytes : List UInt8) (held : Nat)
  /-- `pump` handed a string to `transmit`. -/
  | transmit (bytes : List UInt8)
  | refreshScreen
  /-- `live_thread` itself selected the mouse mode. -/
  | selectMouse (bytes : List UInt8)
deriving DecidableEq

/-- The input methods. -/
inductive InputCall where
  | mouseMove (x y : Int)
  | mouseButton (button : Int) (down : Bool)
  | typeChar (c : UInt8)
  | typeText (s : List UInt8)
  | sendRaw (bytes : List UInt8)
  | sendCtrlAltDel
  | requestRefresh
deriving DecidableEq

/-- The steps of the front end. -/
inductive FrontAction where
  | start (cfg : Config)
  /-- The size of the file, if it could be read. -/
  | startReplay (file : Option Nat) (bytesPerSec : Int)
  /-- `stop`: clear `running_`. -/
  | stop
  /-- `stop`: disconnect the session if there is one. -/
  | disconnect
  /-- `stop`: the worker has ended. -/
  | join
  | input (call : InputCall)
deriving DecidableEq

/-- How a `recv` ends, and the size of the screen after the bytes it got. -/
inductive Received where
  | timeout
  | data (fbW fbH : Int)
  | closed
deriving DecidableEq

/-- The steps of the worker. -/
inductive WorkerAction where
  | acquired (ok : Bool)
  | connected (ok : Bool)
  | publish
  | setConnected
  | enter
  | test
  | swap
  | transmit
  /-- The end of `pump`; `due` if the time of a redraw has come. -/
  | pumped (due : Bool)
  | received (r : Received)
  | leave
  | finish
  | replayStart
  /-- The next chunk of a replay, and the size of the screen after it. -/
  | replay (fbW fbH : Int)
deriving DecidableEq

inductive Action where
  | front (a : FrontAction)
  | worker (a : WorkerAction)
deriving DecidableEq

namespace ConsoleCore

/-! ### The front end -/

/-- `start`: refused if there is a worker or no host. -/
def start (s : ConsoleCore) (cfg : Config) : ConsoleCore × List Out :=
  if s.worker ≠ .none then (s, [])
  else if cfg.host = "" then ({ s with cfg := cfg }, [])
  else ({ s with cfg := cfg, state := .connecting, running := true, worker := .acquire },
    [.started cfg.host])

/-- `start_replay`. -/
def startReplay (s : ConsoleCore) (file : Option Nat) (bytesPerSec : Int) : ConsoleCore :=
  if s.worker ≠ .none then s
  else
    match file with
    | none => s
    | some size =>
        let chunk := if bytesPerSec > 0 then (bytesPerSec.tdiv 20).toNat + 1 else size
        { s with state := .connecting, running := true, worker := .replayStart size chunk }

/-- `queue_locked`. -/
def queueLocked (s : ConsoleCore) (bytes : List UInt8) : ConsoleCore × List Out :=
  if bytes = [] then (s, [])
  else if s.outbox.length > 4096 then (s, [.offered bytes s.outbox.length])
  else ({ s with outbox := s.outbox ++ [bytes] }, [.offered bytes s.outbox.length])

/-- `queue_locked` for one string after the other. -/
def queueAll (s : ConsoleCore) : List (List UInt8) → ConsoleCore × List Out
  | [] => (s, [])
  | b :: bs =>
      let (s, out) := s.queueLocked b
      let (s, out') := s.queueAll bs
      (s, out ++ out')

/-- An input method. -/
def call (s : ConsoleCore) : InputCall → ConsoleCore × List Out
  | .mouseMove x y =>
      let s := { s with input := { s.input with screenW := s.fbW, screenH := s.fbH } }
      s.queueLocked (s.input.move x y)
  | .mouseButton button down =>
      s.queueLocked (if down then Input.press button else Input.release button)
  | .typeChar c => s.queueLocked (Input.typeChar c)
  | .typeText t => s.queueAll (t.map Input.typeChar)
  | .sendRaw bytes => s.queueLocked bytes
  | .sendCtrlAltDel => s.queueLocked Input.ctrlAltDel
  | .requestRefresh => ({ s with wantRefresh := true }, [])

def frontStep (s : ConsoleCore) : FrontAction → Option (ConsoleCore × List Out)
  | .start cfg => if s.caller = .idle then some (s.start cfg) else none
  | .startReplay file rate => if s.caller = .idle then some (s.startReplay file rate, []) else none
  | .stop =>
      if s.caller = .idle then some ({ s with running := false, caller := .stopping }, []) else none
  | .disconnect =>
      if s.caller = .stopping then
        some ({ s with session := s.session.map Link.disconnect, caller := .join }, [])
      else none
  | .join =>
      if s.caller = .join ∧ (s.worker = .none ∨ s.worker = .done) then
        some ({ s with
          worker := .none, session := none, caller := .idle
          state := if s.state ≠ .failed then .stopped else s.state }, [])
      else none
  | .input c => some (s.call c)

/-! ### The worker -/

/-- `fail`, and the end of the thread. -/
def fail (s : ConsoleCore) : ConsoleCore :=
  { s with state := .failed, running := false, worker := .done }

/-- `stopped` unless the state is `failed`, and the end of the thread. -/
def finish (s : ConsoleCore) : ConsoleCore :=
  { s with
    running := false, worker := .done
    state := if s.state ≠ .failed then .stopped else s.state }

/-- A step of the worker, which is where the action belongs. -/
def workerStep (s : ConsoleCore) : WorkerAction → Option (ConsoleCore × List Out)
  | .acquired ok =>
      if s.worker = .acquire then some (if ok then { s with worker := .connect } else s.fail, [])
      else none
  | .connected ok =>
      if s.worker = .connect then
        if ok then
          some ({ s with worker := .publish ⟨true, false⟩ }, [.selectMouse (Input.selectMouse true)])
        else some (s.fail, [])
      else none
  | .publish =>
      match s.worker with
      | .publish sess => some ({ s with session := some sess, worker := .published }, [])
      | _ => none
  | .setConnected =>
      if s.worker = .published then some ({ s with state := .connected, worker := .enter }, [])
      else none
  | .enter =>
      match s.worker, s.session with
      | .enter, some l =>
          some ({ s with session := some { l with running := true }, worker := .test }, [])
      | _, _ => none
  | .test =>
      match s.worker, s.session with
      | .test, some l =>
          some ({ s with worker := if l.running ∧ l.connected then .swap else .leave }, [])
      | _, _ => none
  | .swap =>
      if s.worker = .swap then
        some ({ s with
          outbox := [], wantRefresh := false, worker := .pump s.outbox s.wantRefresh }, [])
      else none
  | .transmit =>
      match s.worker with
      | .pump (b :: pending) refresh => some ({ s with worker := .pump pending refresh }, [.transmit b])
      | _ => none
  | .pumped due =>
      match s.worker with
      | .pump [] refresh =>
          some ({ s with worker := .recv },
            if refresh ∨ (s.cfg.refreshEverySec > 0 ∧ due) then [.refreshScreen] else [])
      | _ => none
  | .received r =>
      if s.worker = .recv then
        match r with
        | .timeout => some ({ s with worker := .test }, [])
        | .data fbW fbH => some ({ s with fbW := fbW, fbH := fbH, worker := .test }, [])
        | .closed => some ({ s with worker := .leave }, [])
      else none
  | .leave =>
      if s.worker = .leave then
        some ({ s with session := s.session.map Link.disconnect, worker := .finish }, [])
      else none
  | .finish => if s.worker = .finish then some (s.finish, []) else none
  | .replayStart =>
      match s.worker with
      | .replayStart size chunk =>
          some ({ s with state := .connected, worker := .replay size chunk }, [])
      | _ => none
  | .replay fbW fbH =>
      match s.worker with
      | .replay left chunk =>
          if s.running ∧ left > 0 then
            some ({ s with
              fbW := fbW, fbH := fbH, worker := .replay (left - min chunk left) chunk }, [])
          else some ({ s with running := false, state := .stopped, worker := .done }, [])
      | _ => none

def step (s : ConsoleCore) : Action → Option (ConsoleCore × List Out)
  | .front a => s.frontStep a
  | .worker a => s.workerStep a

/-- A console core from its construction on. -/
def machine : Machine ConsoleCore Action Out := ⟨{}, step⟩

end ConsoleCore

end Ilo2.Ui
