import Ilo2.Ribcl.Reply

/-!
# Virtual media

`media_server.hpp`, as far as its life goes, and the jobs of `media_control.hpp`.  A job is
a function of the controller that also returns what it did to the world outside: the
commands it sent to the iLO, and the calls of `MediaServer::stop`.

What the world answers is the argument `w` of every function that asks it.
-/

namespace Ilo2.Media

open Ribcl
open Tls (ascii)

/-- What the world answers during one job.  No job sends the same command twice. -/
structure World where
  /-- What `ribcl_run` gives for a command: an error, or the reply. -/
  ribcl : RibclCommand → Except (List UInt8) RibclReply
  /-- `file_size` of the image: negative if it cannot be opened. -/
  fileSize : Int
  /-- `bind_to_port` succeeds. -/
  binds : Bool
  /-- `local_address_towards` the iLO. -/
  localAddress : List UInt8

/-! ### The server -/

structure MediaServer where
  running : Bool := false
  iso : List UInt8 := []
  urlPath : List UInt8 := ascii "/image.iso"
  size : Int := 0
  port : UInt16 := 0
deriving DecidableEq

namespace MediaServer

/-- The characters that `basename_of` keeps. -/
def isSafe (c : UInt8) : Bool :=
  (0x41 ≤ c ∧ c ≤ 0x5A) ∨ (0x61 ≤ c ∧ c ≤ 0x7A) ∨ (0x30 ≤ c ∧ c ≤ 0x39) ∨ c = 0x2E ∨ c = 0x2D ∨
    c = 0x5F

def basenameOf (path : List UInt8) : List UInt8 :=
  let name := (path.reverse.takeWhile fun c => c ≠ 0x2F ∧ c ≠ 0x5C).reverse
  let out := name.map fun c => if isSafe c then c else 0x5F
  if out = [] then ascii "image.iso" else out

def stop (s : MediaServer) : MediaServer := { s with running := false }

/-- `start`: an error, or none; the server before it is stopped in any case. -/
def start (w : World) (iso : List UInt8) (port : UInt16) (s : MediaServer) :
    Option (List UInt8) × MediaServer :=
  let s := { s.stop with size := w.fileSize }
  if s.size < 0 then (some (ascii "cannot open " ++ iso), s)
  else
    let s := { s with iso := iso, port := port, urlPath := ascii "/" ++ basenameOf iso }
    if ¬ w.binds then
      (some (ascii "cannot listen on port " ++ ascii (toString port.toNat)), s)
    else (none, { s with running := true })

def url (s : MediaServer) (host : List UInt8) : List UInt8 :=
  if host = [] then []
  else ascii "http://" ++ host ++ ascii ":" ++ ascii (toString s.port.toNat) ++ s.urlPath

end MediaServer

/-- The command takes effect. -/
def World.takes (w : World) (cmd : RibclCommand) : Bool :=
  match w.ribcl cmd with
  | .error _ => false
  | .ok reply => reply.ok

/-- The URL that the iLO is given for an image, if it can be served. -/
def World.imageUrl (w : World) (port : UInt16) (iso : List UInt8) : Option (List UInt8) :=
  if w.fileSize < 0 ∨ w.binds = false ∨ w.localAddress = [] then none
  else
    let server : MediaServer := { port := port, urlPath := ascii "/" ++ MediaServer.basenameOf iso }
    some (server.url w.localAddress)

/-! ### The controller -/

structure Config where
  host : List UInt8
  httpPort : UInt16 := 8080
  pollSec : Int := 15
deriving DecidableEq

/-- The server's statistics in a snapshot are read when it is taken, and are left out. -/
structure Snapshot where
  vm : VmStatus := {}
  fw : FwInfo := {}
  url : List UInt8 := []
  iso : List UInt8 := []
  lastAction : List UInt8 := []
  lastResult : List UInt8 := []
  busy : Bool := false
  error : Bool := false
  bootArmed : Bool := false
deriving DecidableEq

inductive Job where
  | mount (iso : List UInt8)
  | eject
  | armBoot
  | refresh
deriving DecidableEq

/-- `running` is `run_`. -/
structure MediaControl where
  cfg : Config
  server : MediaServer := {}
  queue : List Job := []
  snap : Snapshot := {}
  running : Bool := true
deriving DecidableEq

/-- What a job does to the world. -/
inductive Out where
  /-- A command was sent; whether it took effect. -/
  | sent (cmd : RibclCommand) (args : RibclArgs) (ok : Bool)
  /-- `MediaServer::stop` was called. -/
  | stopServer
  /-- The worker has left its loop. -/
  | sawStop
  /-- `MediaControl::stop` has returned. -/
  | returned
deriving DecidableEq

namespace MediaControl

/-- `run`: the reply, if it returns true. -/
def run (w : World) (cmd : RibclCommand) (args : RibclArgs) (s : MediaControl) :
    Option RibclReply × MediaControl × List Out :=
  let snap := { s.snap with
    busy := true
    lastAction := if ribclIsWrite cmd then ascii (ribclCommandName cmd) else s.snap.lastAction }
  let snap := { snap with busy := false }
  match w.ribcl cmd with
  | .error err =>
      (none, { s with snap := { snap with error := true, lastResult := err } }, [.sent cmd args false])
  | .ok reply =>
      if ¬ reply.ok then
        let result := if reply.message = [] then ascii "command failed" else reply.message
        (none, { s with snap := { snap with error := true, lastResult := result } },
          [.sent cmd args false])
      else
        let result := if ribclIsWrite cmd then ascii "ok" else snap.lastResult
        (some reply, { s with snap := { snap with error := false, lastResult := result } },
          [.sent cmd args true])

def readStatus (w : World) (s : MediaControl) : MediaControl × List Out :=
  match s.run w .getVmStatus {} with
  | (none, s, out) => (s, out)
  | (some r, s, out) =>
      let v := parseVmStatus r.raw
      (if v.valid then { s with snap.vm := v } else s, out)

def readFw (w : World) (s : MediaControl) : MediaControl × List Out :=
  match s.run w .getFwVersion {} with
  | (none, s, out) => (s, out)
  | (some r, s, out) =>
      let f := parseFwVersion r.raw
      (if f.valid then { s with snap.fw := f } else s, out)

/-- Report an error. -/
def refuse (s : MediaControl) (result : List UInt8) : MediaControl :=
  { s with snap.error := true, snap.lastResult := result }

def stopServer (s : MediaControl) : MediaControl := { s with server := s.server.stop }

/-- `do_mount` refuses without touching anything: the licence is known, and is too small. -/
def unlicensed (s : MediaControl) : Bool := s.snap.fw.valid && !vmScriptingLicensed s.snap.fw

def doMount (w : World) (iso : List UInt8) (s : MediaControl) : MediaControl × List Out :=
  if s.unlicensed then
    (s.refuse (ascii "this iLO's licence (" ++ s.snap.fw.licenseType ++
      ascii ") does not allow scripted virtual media"), [])
  else
    match s.server.start w iso s.cfg.httpPort with
    | (some err, server) => ({ s with server := server }.refuse err, [.stopServer])
    | (none, server) =>
        let s := { s with server := server }
        if w.localAddress = [] then
          (s.stopServer.refuse (ascii "cannot determine which local address reaches " ++ s.cfg.host),
            [.stopServer, .stopServer])
        else
          let url := s.server.url w.localAddress
          match s.run w .insertVirtualMedia { imageUrl := url } with
          | (none, s, out) => (s.stopServer, .stopServer :: out ++ [.stopServer])
          | (some _, s, out) =>
              let s := { s with snap.url := url, snap.iso := iso, snap.bootArmed := false }
              let (s, out') := s.readStatus w
              (s, .stopServer :: out ++ out')

/-- `do_mount` while the iLO has its command and the reply is not read: the server that was
started, and the URL that was sent. -/
def offer (w : World) (iso : List UInt8) (s : MediaControl) :
    Option (List UInt8) × MediaControl :=
  let server := (s.server.start w iso s.cfg.httpPort).2
  (if s.unlicensed then none else w.imageUrl s.cfg.httpPort iso,
    { s with
      server := server
      snap.busy := true
      snap.lastAction := ascii (ribclCommandName .insertVirtualMedia) })

/-- `do_mount` from the reply on, to a command that took effect. -/
def note (w : World) (iso url : List UInt8) (s : MediaControl) : MediaControl × List Out :=
  let (_, s, _) := s.run w .insertVirtualMedia { imageUrl := url }
  { s with snap.url := url, snap.iso := iso, snap.bootArmed := false }.readStatus w

def doEject (w : World) (s : MediaControl) : MediaControl × List Out :=
  let (_, s, out) := s.run w .ejectVirtualMedia {}
  -- whether or not the eject succeeded
  let s := s.stopServer
  let s := { s with snap.url := [], snap.iso := [], snap.bootArmed := false }
  let (s, out') := s.readStatus w
  (s, out ++ .stopServer :: out')

def doArmBoot (w : World) (s : MediaControl) : MediaControl × List Out :=
  match s.run w .setVmBootOption { bootOption := ascii "BOOT_ONCE" } with
  | (none, s, out) => (s, out)
  | (some _, s, out) =>
      match s.run w .setOneTimeBoot { bootDevice := ascii "CDROM" } with
      | (none, s, out') => (s, out ++ out')
      | (some _, s, out') =>
          let (s, out'') := { s with snap.bootArmed := true }.readStatus w
          (s, out ++ out' ++ out'')

/-- The `switch` of `worker`. -/
def doJob (w : World) (j : Job) (s : MediaControl) : MediaControl × List Out :=
  match j with
  | .mount iso => s.doMount w iso
  | .eject => s.doEject w
  | .armBoot => s.doArmBoot w
  | .refresh => s.readStatus w

/-- `worker`, before its loop. -/
def begin (w : World) (s : MediaControl) : MediaControl × List Out :=
  let (s, out) := s.readFw w
  let (s, out') := s.readStatus w
  (s, out ++ out')

/-- `worker`, after its loop. -/
def finish (w : World) (s : MediaControl) : MediaControl × List Out :=
  let mounted := s.snap.url ≠ []
  let (s, out) :=
    if mounted then
      let (_, s, out) := s.run w .ejectVirtualMedia {}
      (s, out)
    else (s, [])
  (s.stopServer, out ++ [.stopServer])

end MediaControl

end Ilo2.Media
