import Ilo2.Lib.Machine
import Ilo2.Media.Control

/-!
# The media worker

`MediaControl` as a machine: the front end queues jobs and calls `stop`, the worker takes
the jobs one after the other.  The machine starts where `start` returns.

The iLO is part of the state, as far as the controller has changed it: a command that is
reported to have failed changes nothing.  A job is one step, but for a mount: the iLO has the
image before the snapshot says so, and the front end can look in between.

* `doMount_cases`, `doEject_spec`, `doArmBoot_cases` - what a job does, whatever the world
  answers.
* `doMount_offer` - a mount in one step is a mount in two.
* `Panel.step_does` - what a step does.
-/

namespace Ilo2.Media

open Ribcl
open Tls (ascii)
open Machine (ite_some)

/-! ### The iLO -/

/-- An image that was inserted: the URL that the iLO was given, and the image of that job. -/
structure Insertion where
  url : List UInt8
  iso : List UInt8
deriving DecidableEq

structure Ilo where
  inserted : Option Insertion := none
  vmBootOption : List UInt8 := []
  oneTimeBoot : List UInt8 := []
deriving DecidableEq

namespace Ilo

/-- The effect of a command that a job sent; `iso` is the image of the job. -/
def hear (iso : List UInt8) (i : Ilo) : Out → Ilo
  | .sent .insertVirtualMedia args true => { i with inserted := some ⟨args.imageUrl, iso⟩ }
  | .sent .ejectVirtualMedia _ true => { i with inserted := none }
  | .sent .setVmBootOption args true => { i with vmBootOption := args.bootOption }
  | .sent .setOneTimeBoot args true => { i with oneTimeBoot := args.bootDevice }
  | _ => i

def hearAll (iso : List UInt8) (i : Ilo) (out : List Out) : Ilo := out.foldl (hear iso) i

end Ilo

/-! ### The machine -/

inductive Worker where
  /-- Before the loop. -/
  | starting
  /-- At the top of the loop. -/
  | idle
  | busy (j : Job)
  /-- In a mount: the iLO has taken the command, and the reply is not read. -/
  | inserted (iso url : List UInt8)
  /-- After the loop. -/
  | leaving
  | done
deriving DecidableEq

/-- The thread that calls `stop`. -/
inductive Caller where
  | free
  /-- In `join`. -/
  | waiting
  | stopped
deriving DecidableEq

/-- `log` is the history: the jobs that are finished, with what they did.  No step reads it. -/
structure Panel where
  ctl : MediaControl
  ilo : Ilo := {}
  worker : Worker := .starting
  caller : Caller := .free
  log : List (Job × List Out) := []
deriving DecidableEq

inductive Action where
  | push (j : Job)
  | begin (w : World)
  | take
  | insert (w : World)
  | finish (w : World)
  | poll (w : World)
  | stop
  | leave
  | last (w : World)
  | join

/-- The image that a job is about. -/
def Job.iso : Job → List UInt8
  | .mount iso => iso
  | _ => []

/-- What a mount does until the iLO has its command. -/
def Out.insertion (url : List UInt8) : List Out :=
  [.stopServer, .sent .insertVirtualMedia { imageUrl := url } true]

namespace Panel

/-- The worker has done something, and goes on at `worker`. -/
def after (s : Panel) (iso : List UInt8) (worker : Worker) (r : MediaControl × List Out) : Panel :=
  { s with ctl := r.1, ilo := s.ilo.hearAll iso r.2, worker := worker }

def step (s : Panel) : Action → Option (Panel × List Out)
  | .push j => some ({ s with ctl.queue := s.ctl.queue ++ [j] }, [])
  | .begin w =>
      if s.worker = .starting then
        let r := s.ctl.begin w
        some (s.after [] .idle r, r.2)
      else none
  | .take =>
      match s.worker, s.ctl.running, s.ctl.queue with
      | .idle, true, j :: queue => some ({ s with ctl.queue := queue, worker := .busy j }, [])
      | _, _, _ => none
  | .insert w =>
      match s.worker with
      | .busy (.mount iso) =>
          match s.ctl.offer w iso with
          | (some url, ctl) =>
              if w.takes .insertVirtualMedia then
                some (s.after iso (.inserted iso url) (ctl, Out.insertion url), Out.insertion url)
              else none
          | _ => none
      | _ => none
  | .finish w =>
      match s.worker with
      | .busy j =>
          let r := s.ctl.doJob w j
          some ({ s.after j.iso .idle r with log := s.log ++ [(j, r.2)] }, r.2)
      | .inserted iso url =>
          -- the world is the one that the mount began in
          if w.imageUrl s.ctl.cfg.httpPort iso = some url ∧ w.takes .insertVirtualMedia then
            let r := s.ctl.note w iso url
            some ({ s.after iso .idle r with
              log := s.log ++ [(.mount iso, Out.insertion url ++ r.2)] }, r.2)
          else none
      | _ => none
  | .poll w =>
      if s.worker = .idle ∧ s.ctl.running = true ∧ s.ctl.queue = [] ∧ s.ctl.cfg.pollSec > 0 then
        let r := s.ctl.readStatus w
        some (s.after [] .idle r, r.2)
      else none
  | .stop =>
      if s.caller = .free then some ({ s with ctl.running := false, caller := .waiting }, [])
      else none
  | .leave =>
      if s.worker = .idle ∧ s.ctl.running = false then some ({ s with worker := .leaving }, [.sawStop])
      else none
  | .last w =>
      if s.worker = .leaving then
        let r := s.ctl.finish w
        some (s.after [] .done r, r.2)
      else none
  | .join =>
      if s.caller = .waiting ∧ s.worker = .done then
        some ({ s with ctl := s.ctl.stopServer, caller := .stopped }, [.stopServer, .returned])
      else none

/-- Before the first `start`. -/
def absent : Panel :=
  { ctl := { cfg := { host := [] }, running := false }, worker := .done, caller := .stopped }

/-- `start`, after its `stop`. -/
def start (s : Panel) (cfg : Config) : Option Panel :=
  if s.worker = .done ∧ s.caller = .stopped then
    some { s with
      ctl := { s.ctl with cfg := cfg, running := true, snap := {}, queue := [] }
      worker := .starting
      caller := .free }
  else none

end Panel

def machine (cfg : Config) : Machine Panel Action Out := ⟨{ ctl := { cfg := cfg } }, Panel.step⟩

/-- A world in which every command takes effect but those that the iLO refuses. -/
def World.refusing (refuses : List RibclCommand) : World where
  ribcl cmd := if cmd ∈ refuses then .error [] else .ok { ok := true }
  fileSize := 1
  binds := true
  localAddress := [0x61]

/-! ### What a job does -/

/-- Two controllers that differ in their reports at most. -/
structure Alike (s s' : MediaControl) : Prop where
  cfg : s'.cfg = s.cfg
  server : s'.server = s.server
  queue : s'.queue = s.queue
  running : s'.running = s.running
  url : s'.snap.url = s.snap.url
  iso : s'.snap.iso = s.snap.iso
  bootArmed : s'.snap.bootArmed = s.snap.bootArmed

theorem Alike.trans {s s' s'' : MediaControl} (h : Alike s s') (g : Alike s' s'') : Alike s s'' :=
  ⟨g.cfg.trans h.cfg, g.server.trans h.server, g.queue.trans h.queue, g.running.trans h.running,
    g.url.trans h.url, g.iso.trans h.iso, g.bootArmed.trans h.bootArmed⟩

namespace MediaControl

variable {w : World} {s s' : MediaControl} {cmd : RibclCommand} {args : RibclArgs}
  {iso : List UInt8}

/-- A command: it is reported, and takes effect or not. -/
theorem run_spec (w : World) (cmd : RibclCommand) (args : RibclArgs) (s : MediaControl) :
    Alike s (s.run w cmd args).2.1 ∧ (s.run w cmd args).2.2 = [.sent cmd args (w.takes cmd)] ∧
      (s.run w cmd args).1.isSome = w.takes cmd := by
  unfold run World.takes
  dsimp only
  cases w.ribcl cmd with
  | error err => exact ⟨⟨rfl, rfl, rfl, rfl, rfl, rfl, rfl⟩, rfl, rfl⟩
  | ok reply =>
      dsimp only
      cases hok : reply.ok with
      | false => exact ⟨⟨rfl, rfl, rfl, rfl, rfl, rfl, rfl⟩, rfl, rfl⟩
      | true => exact ⟨⟨rfl, rfl, rfl, rfl, rfl, rfl, rfl⟩, rfl, rfl⟩

/-- A command that takes effect has a reply, and one that does not has none. -/
theorem run_cases (w : World) (cmd : RibclCommand) (args : RibclArgs) (s : MediaControl) :
    (∃ r s', s.run w cmd args = (some r, s', [.sent cmd args true]) ∧ Alike s s' ∧
        w.takes cmd = true) ∨
      ∃ s', s.run w cmd args = (none, s', [.sent cmd args false]) ∧ Alike s s' ∧
        w.takes cmd = false := by
  obtain ⟨halike, hout, hsome⟩ := run_spec w cmd args s
  rcases hrun : s.run w cmd args with ⟨r, s', out⟩
  rw [hrun] at halike hout hsome
  dsimp only at halike hout hsome
  subst hout
  cases r with
  | some r =>
      have htakes : w.takes cmd = true := hsome.symm
      rw [htakes]
      exact Or.inl ⟨r, s', rfl, halike, rfl⟩
  | none =>
      have htakes : w.takes cmd = false := hsome.symm
      rw [htakes]
      exact Or.inr ⟨s', rfl, halike, rfl⟩

theorem readStatus_spec (w : World) (s : MediaControl) :
    Alike s (s.readStatus w).1 ∧
      (s.readStatus w).2 = [.sent .getVmStatus {} (w.takes .getVmStatus)] := by
  unfold readStatus
  rcases run_cases w .getVmStatus {} s with ⟨r, s', hrun, halike, htakes⟩ | ⟨s', hrun, halike, htakes⟩
  · rw [hrun, htakes]
    dsimp only
    split
    · exact ⟨halike.trans ⟨rfl, rfl, rfl, rfl, rfl, rfl, rfl⟩, rfl⟩
    · exact ⟨halike, rfl⟩
  · rw [hrun, htakes]
    exact ⟨halike, rfl⟩

theorem readFw_spec (w : World) (s : MediaControl) :
    Alike s (s.readFw w).1 ∧ (s.readFw w).2 = [.sent .getFwVersion {} (w.takes .getFwVersion)] := by
  unfold readFw
  rcases run_cases w .getFwVersion {} s with ⟨r, s', hrun, halike, htakes⟩ | ⟨s', hrun, halike, htakes⟩
  · rw [hrun, htakes]
    dsimp only
    split
    · exact ⟨halike.trans ⟨rfl, rfl, rfl, rfl, rfl, rfl, rfl⟩, rfl⟩
    · exact ⟨halike, rfl⟩
  · rw [hrun, htakes]
    exact ⟨halike, rfl⟩

/-- **An eject** stops the server and clears the snapshot, whatever becomes of the command. -/
theorem doEject_spec (w : World) (s : MediaControl) :
    Alike { s with
      server := s.server.stop
      snap := { s.snap with url := [], iso := [], bootArmed := false } } (s.doEject w).1 ∧
    (s.doEject w).2 = [.sent .ejectVirtualMedia {} (w.takes .ejectVirtualMedia), .stopServer,
      .sent .getVmStatus {} (w.takes .getVmStatus)] := by
  unfold doEject
  obtain ⟨halike, hout, -⟩ := run_spec w .ejectVirtualMedia {} s
  rcases hrun : s.run w .ejectVirtualMedia {} with ⟨r, s', out⟩
  rw [hrun] at halike hout
  dsimp only at halike hout ⊢
  have hclear : Alike { s with
      server := s.server.stop
      snap := { s.snap with url := [], iso := [], bootArmed := false } }
      { s'.stopServer with snap.url := [], snap.iso := [], snap.bootArmed := false } :=
    ⟨halike.cfg, congrArg MediaServer.stop halike.server, halike.queue, halike.running, rfl, rfl,
      rfl⟩
  obtain ⟨hread, hout'⟩ := readStatus_spec w
    { s'.stopServer with snap.url := [], snap.iso := [], snap.bootArmed := false }
  refine ⟨hclear.trans hread, ?_⟩
  rw [hout, hout']
  rfl

/-- **Arming**: it ends at the first command that fails, and sets the flag if none does. -/
theorem doArmBoot_cases (w : World) (s : MediaControl) :
    (w.takes .setVmBootOption = false ∧ Alike s (s.doArmBoot w).1 ∧
      (s.doArmBoot w).2 = [.sent .setVmBootOption { bootOption := ascii "BOOT_ONCE" } false]) ∨
    (w.takes .setVmBootOption = true ∧ w.takes .setOneTimeBoot = false ∧
      Alike s (s.doArmBoot w).1 ∧
      (s.doArmBoot w).2 = [.sent .setVmBootOption { bootOption := ascii "BOOT_ONCE" } true,
        .sent .setOneTimeBoot { bootDevice := ascii "CDROM" } false]) ∨
    (w.takes .setVmBootOption = true ∧ w.takes .setOneTimeBoot = true ∧
      Alike { s with snap.bootArmed := true } (s.doArmBoot w).1 ∧
      (s.doArmBoot w).2 = [.sent .setVmBootOption { bootOption := ascii "BOOT_ONCE" } true,
        .sent .setOneTimeBoot { bootDevice := ascii "CDROM" } true,
        .sent .getVmStatus {} (w.takes .getVmStatus)]) := by
  unfold doArmBoot
  rcases run_cases w .setVmBootOption { bootOption := ascii "BOOT_ONCE" } s with
    ⟨r, s₁, hrun, halike, htakes⟩ | ⟨s₁, hrun, halike, htakes⟩
  · rw [hrun]
    dsimp only
    rcases run_cases w .setOneTimeBoot { bootDevice := ascii "CDROM" } s₁ with
      ⟨r', s₂, hrun', halike', htakes'⟩ | ⟨s₂, hrun', halike', htakes'⟩
    · rw [hrun']
      dsimp only
      obtain ⟨hread, hout⟩ := readStatus_spec w { s₂ with snap.bootArmed := true }
      have h := halike.trans halike'
      have harm : Alike { s with snap.bootArmed := true } { s₂ with snap.bootArmed := true } :=
        ⟨h.cfg, h.server, h.queue, h.running, h.url, h.iso, rfl⟩
      exact Or.inr (Or.inr ⟨htakes, htakes', harm.trans hread, by rw [hout]; rfl⟩)
    · rw [hrun']
      exact Or.inr (Or.inl ⟨htakes, htakes', halike.trans halike', rfl⟩)
  · rw [hrun]
    exact Or.inl ⟨htakes, halike, rfl⟩

theorem url_ne {server : MediaServer} {host : List UInt8} (h : host ≠ []) : server.url host ≠ [] := by
  rw [MediaServer.url, if_neg h]
  intro h0
  simp [ascii] at h0

/-- The server after a start that fails. -/
theorem start_err {server server' : MediaServer} {iso err : List UInt8} {port : UInt16}
    (h : server.start w iso port = (some err, server')) : server'.running = false := by
  unfold MediaServer.start at h
  dsimp only at h
  split at h
  · cases h
    rfl
  split at h
  · cases h
    rfl
  · cases h

/-- The server after a start that succeeds. -/
theorem start_ok {server server' : MediaServer} {iso : List UInt8} {port : UInt16}
    (h : server.start w iso port = (none, server')) : server'.running = true ∧ server'.iso = iso := by
  unfold MediaServer.start at h
  dsimp only at h
  split at h
  · cases h
  split at h
  · cases h
  · cases h
    exact ⟨rfl, rfl⟩

/-- **A mount** is refused for the licence, and nothing is touched; or it fails, and the
server is stopped; or the image is inserted and served. -/
theorem doMount_cases (w : World) (iso : List UInt8) (s : MediaControl) :
    (s.unlicensed = true ∧ Alike s (s.doMount w iso).1 ∧ (s.doMount w iso).2 = []) ∨
    (s.unlicensed = false ∧
      (∃ server : MediaServer, server.running = false ∧
        Alike { s with server := server } (s.doMount w iso).1) ∧
      (s.doMount w iso).2 ≠ [] ∧
      (∀ o ∈ (s.doMount w iso).2,
        o = .stopServer ∨ ∃ args, o = .sent .insertVirtualMedia args false)) ∨
    (s.unlicensed = false ∧ ∃ server host, host ≠ [] ∧ server.running = true ∧ server.iso = iso ∧
      Alike { s with
        server := server
        snap := { s.snap with url := server.url host, iso := iso, bootArmed := false } }
        (s.doMount w iso).1 ∧
      (s.doMount w iso).2 =
        [.stopServer, .sent .insertVirtualMedia { imageUrl := server.url host } true,
        .sent .getVmStatus {} (w.takes .getVmStatus)]) := by
  unfold doMount
  cases hlic : s.unlicensed with
  | true => exact Or.inl ⟨rfl, ⟨rfl, rfl, rfl, rfl, rfl, rfl, rfl⟩, rfl⟩
  | false =>
      rw [if_neg (by decide)]
      rcases hstart : s.server.start w iso s.cfg.httpPort with ⟨err | err, server⟩
      · obtain ⟨hrunning, hiso⟩ := start_ok hstart
        dsimp only
        split
        · refine Or.inr (Or.inl ⟨rfl, ⟨server.stop, rfl, rfl, rfl, rfl, rfl, rfl, rfl, rfl⟩,
            List.cons_ne_nil _ _, ?_⟩)
          intro o ho
          simp only [List.mem_cons, List.not_mem_nil, or_false, or_self] at ho
          exact Or.inl ho
        rename_i hlocal
        rcases run_cases w .insertVirtualMedia { imageUrl := server.url w.localAddress }
            { s with server := server } with
          ⟨r, s₁, hrun, halike, htakes⟩ | ⟨s₁, hrun, halike, htakes⟩
        · rw [hrun]
          dsimp only
          have hnote : Alike { s with
              server := server
              snap := { s.snap with
                url := server.url w.localAddress, iso := iso, bootArmed := false } }
              { s₁ with
                snap.url := server.url w.localAddress, snap.iso := iso, snap.bootArmed := false } :=
            ⟨halike.cfg, halike.server, halike.queue, halike.running, rfl, rfl, rfl⟩
          obtain ⟨hread, hout⟩ := readStatus_spec w { s₁ with
            snap.url := server.url w.localAddress, snap.iso := iso, snap.bootArmed := false }
          refine Or.inr (Or.inr ⟨rfl, server, w.localAddress, hlocal, hrunning, hiso,
            hnote.trans hread, ?_⟩)
          rw [hout]
          rfl
        · rw [hrun]
          refine Or.inr (Or.inl ⟨rfl, ⟨server.stop, rfl, ?_⟩, List.cons_ne_nil _ _, ?_⟩)
          · exact ⟨halike.cfg, congrArg MediaServer.stop halike.server, halike.queue,
              halike.running, halike.url, halike.iso, halike.bootArmed⟩
          · intro o ho
            simp only [List.cons_append, List.nil_append, List.mem_cons, List.not_mem_nil,
              or_false] at ho
            rcases ho with rfl | rfl | rfl
            · exact Or.inl rfl
            · exact Or.inr ⟨_, rfl⟩
            · exact Or.inl rfl
      · refine Or.inr (Or.inl ⟨rfl, ⟨server, start_err hstart, rfl, rfl, rfl, rfl, rfl, rfl, rfl⟩,
          List.cons_ne_nil _ _, ?_⟩)
        intro o ho
        exact Or.inl (List.mem_singleton.mp ho)

theorem start_of_imageUrl (server : MediaServer) {port : UInt16} {url : List UInt8}
    (h : w.imageUrl port iso = some url) :
    w.localAddress ≠ [] ∧ ∃ server', server.start w iso port = (none, server') ∧
      server'.running = true ∧ server'.iso = iso ∧ server'.url w.localAddress = url := by
  unfold World.imageUrl at h
  split at h
  · cases h
  rename_i hserves
  obtain ⟨hsize, hserves⟩ := not_or.mp hserves
  obtain ⟨hbinds, hlocal⟩ := not_or.mp hserves
  refine ⟨hlocal, { server with
    size := w.fileSize, iso := iso, port := port
    urlPath := ascii "/" ++ MediaServer.basenameOf iso, running := true }, ?_, rfl, rfl,
    Option.some.inj h⟩
  unfold MediaServer.start
  dsimp only
  rw [if_neg hsize, if_neg (not_not.mpr (eq_true_of_ne_false hbinds))]

/-- A mount that comes to its command: the server is started, and answers at the URL. -/
theorem offer_spec {url : List UInt8} (h : (s.offer w iso).1 = some url) :
    s.unlicensed = false ∧ w.imageUrl s.cfg.httpPort iso = some url ∧
      ∃ server host, host ≠ [] ∧ server.running = true ∧ server.iso = iso ∧
        server.url host = url ∧ Alike { s with server := server } (s.offer w iso).2 := by
  unfold offer at h ⊢
  dsimp only at h ⊢
  cases hlic : s.unlicensed with
  | true =>
      rw [hlic, if_pos rfl] at h
      cases h
  | false =>
      rw [hlic, if_neg Bool.false_ne_true] at h
      obtain ⟨hlocal, server, hstart, hrunning, hiso, hurl⟩ :=
        start_of_imageUrl s.server h
      rw [hstart]
      exact ⟨rfl, h, server, w.localAddress, hlocal, hrunning, hiso, hurl, rfl, rfl, rfl, rfl, rfl,
        rfl, rfl⟩

/-- The rest of such a mount. -/
theorem note_spec (w : World) (iso url : List UInt8) (s : MediaControl) :
    Alike { s with snap := { s.snap with url := url, iso := iso, bootArmed := false } }
        (s.note w iso url).1 ∧
      (s.note w iso url).2 = [.sent .getVmStatus {} (w.takes .getVmStatus)] := by
  unfold note
  obtain ⟨halike, -, -⟩ := run_spec w .insertVirtualMedia { imageUrl := url } s
  obtain ⟨hread, hout⟩ := readStatus_spec w
    { (s.run w .insertVirtualMedia { imageUrl := url }).2.1 with
      snap.url := url, snap.iso := iso, snap.bootArmed := false }
  have hnote : Alike { s with snap := { s.snap with url := url, iso := iso, bootArmed := false } }
      { (s.run w .insertVirtualMedia { imageUrl := url }).2.1 with
        snap.url := url, snap.iso := iso, snap.bootArmed := false } :=
    ⟨halike.cfg, halike.server, halike.queue, halike.running, rfl, rfl, rfl⟩
  exact ⟨hnote.trans hread, hout⟩

/-- **A mount that comes to its command**: in one step it is what it is in two, and if the
command fails the server is stopped. -/
theorem doMount_offer {url : List UInt8} (h : (s.offer w iso).1 = some url) :
    if w.takes .insertVirtualMedia then
      s.doMount w iso = (((s.offer w iso).2.note w iso url).1,
        Out.insertion url ++ ((s.offer w iso).2.note w iso url).2)
    else
      (s.doMount w iso).2 =
        [.stopServer, .sent .insertVirtualMedia { imageUrl := url } false, .stopServer] := by
  obtain ⟨hlic, himage, -⟩ := offer_spec h
  obtain ⟨hlocal, server, hstart, -, -, rfl⟩ := start_of_imageUrl s.server himage
  have hrun : (s.offer w iso).2.run w .insertVirtualMedia
      { imageUrl := server.url w.localAddress } = { s with server := server }.run w
        .insertVirtualMedia { imageUrl := server.url w.localAddress } := by
    unfold offer run
    rw [hstart]
    rfl
  unfold doMount note
  rw [hrun, hlic, if_neg Bool.false_ne_true, hstart]
  dsimp only
  rw [if_neg hlocal]
  rcases run_cases w .insertVirtualMedia { imageUrl := server.url w.localAddress }
      { s with server := server } with
    ⟨r, s₁, hcmd, -, htakes⟩ | ⟨s₁, hcmd, -, hfails⟩
  · rw [hcmd, if_pos htakes]
    rfl
  · rw [hcmd, if_neg (by rw [hfails]; exact Bool.false_ne_true)]
    rfl

/-- One that does not, sends nothing. -/
theorem doMount_unsent (h : (s.offer w iso).1 = none) :
    ∀ o ∈ (s.doMount w iso).2, o = .stopServer := by
  unfold offer World.imageUrl at h
  unfold doMount MediaServer.start
  dsimp only at h ⊢
  cases hlic : s.unlicensed with
  | true => exact nofun
  | false =>
      rw [hlic, if_neg Bool.false_ne_true] at h
      rw [if_neg Bool.false_ne_true]
      split_ifs at h with hserves
      by_cases hsize : w.fileSize < 0
      · rw [if_pos hsize]
        exact fun o ho => List.mem_singleton.mp ho
      rw [if_neg hsize]
      by_cases hbinds : w.binds = true
      · rw [if_neg (not_not.mpr hbinds)]
        dsimp only
        have hlocal : w.localAddress = [] := by simpa [hsize, hbinds] using hserves
        rw [if_pos hlocal]
        intro o ho
        simpa using ho
      · rw [if_pos hbinds]
        exact fun o ho => List.mem_singleton.mp ho

/-- After the loop: an eject, if the snapshot has a URL, and then the server is stopped. -/
theorem finish_spec (w : World) (s : MediaControl) :
    (s.finish w).1.server.running = false ∧
    (s.finish w).2 = (if s.snap.url ≠ [] then
      [.sent .ejectVirtualMedia {} (w.takes .ejectVirtualMedia)] else []) ++ [.stopServer] := by
  unfold finish
  dsimp only
  split
  · obtain ⟨-, hout, -⟩ := run_spec w .ejectVirtualMedia {} s
    exact ⟨rfl, by rw [hout]⟩
  · exact ⟨rfl, rfl⟩

end MediaControl

/-! ### What a step does -/

namespace Ilo

@[simp] theorem hearAll_nil (iso : List UInt8) (i : Ilo) : i.hearAll iso [] = i := rfl

@[simp] theorem hearAll_cons (iso : List UInt8) (i : Ilo) (o : Out) (out : List Out) :
    i.hearAll iso (o :: out) = (i.hear iso o).hearAll iso out := rfl

@[simp] theorem hear_failed (iso : List UInt8) (i : Ilo) (cmd : RibclCommand) (args : RibclArgs) :
    i.hear iso (.sent cmd args false) = i := by
  cases cmd <;> rfl

@[simp] theorem hear_getVmStatus (iso : List UInt8) (i : Ilo) (args : RibclArgs) (ok : Bool) :
    i.hear iso (.sent .getVmStatus args ok) = i := by
  cases ok <;> rfl

@[simp] theorem hear_getFwVersion (iso : List UInt8) (i : Ilo) (args : RibclArgs) (ok : Bool) :
    i.hear iso (.sent .getFwVersion args ok) = i := by
  cases ok <;> rfl

@[simp] theorem hear_stopServer (iso : List UInt8) (i : Ilo) : i.hear iso .stopServer = i := rfl

theorem hearAll_of_hear {iso : List UInt8} {i : Ilo} {out : List Out}
    (h : ∀ o ∈ out, i.hear iso o = i) : i.hearAll iso out = i := by
  induction out with
  | nil => rfl
  | cons o out ih =>
      rw [hearAll_cons, h o List.mem_cons_self]
      exact ih fun o ho => h o (List.mem_cons_of_mem _ ho)

end Ilo

/-- The worker is not past its loop. -/
def Worker.Working : Worker → Prop
  | .leaving | .done => False
  | _ => True

/-- The worker is in a mount that the snapshot does not show yet. -/
def Worker.Midway : Worker → Prop
  | .inserted _ _ => True
  | _ => False

instance : DecidablePred Worker.Midway
  | .inserted _ _ => .isTrue trivial
  | .starting | .idle | .busy _ | .leaving | .done => .isFalse id

theorem Worker.Working.ne_done {w : Worker} (h : w.Working) : w ≠ .done := by
  rintro rfl
  exact h

theorem Worker.Working.ne_leaving {w : Worker} (h : w.Working) : w ≠ .leaving := by
  rintro rfl
  exact h

/-- The media are as they were. -/
structure Calm (s s' : Panel) : Prop where
  server : s'.ctl.server = s.ctl.server
  url : s'.ctl.snap.url = s.ctl.snap.url
  iso : s'.ctl.snap.iso = s.ctl.snap.iso
  bootArmed : s'.ctl.snap.bootArmed = s.ctl.snap.bootArmed
  ilo : s'.ilo = s.ilo
  log : s'.log = s.log

theorem Calm.of_alike {s s' : Panel} (h : Alike s.ctl s'.ctl) (hilo : s'.ilo = s.ilo)
    (hlog : s'.log = s.log) : Calm s s' :=
  ⟨h.server, h.url, h.iso, h.bootArmed, hilo, hlog⟩

namespace Panel

variable {s s' : Panel} {a : Action} {out : List Out}

/-- Commands that only ask. -/
def Asks (out : List Out) : Prop :=
  ∀ o ∈ out, ∃ ok, o = .sent .getVmStatus {} ok ∨ o = .sent .getFwVersion {} ok

theorem readStatus_asks (w : World) (c : MediaControl) :
    Alike c (c.readStatus w).1 ∧ Asks (c.readStatus w).2 := by
  obtain ⟨hvm, hout⟩ := MediaControl.readStatus_spec w c
  refine ⟨hvm, ?_⟩
  rw [hout]
  intro o ho
  exact ⟨_, Or.inl (List.mem_singleton.mp ho)⟩

theorem begin_spec (w : World) (c : MediaControl) : Alike c (c.begin w).1 ∧ Asks (c.begin w).2 := by
  obtain ⟨hfw, hout⟩ := MediaControl.readFw_spec w c
  obtain ⟨hvm, hout'⟩ := MediaControl.readStatus_spec w (c.readFw w).1
  refine ⟨hfw.trans hvm, ?_⟩
  intro o ho
  have ho : o ∈ (c.readFw w).2 ++ ((c.readFw w).1.readStatus w).2 := ho
  rw [hout, hout', List.cons_append, List.nil_append, List.mem_pair] at ho
  rcases ho with rfl | rfl
  · exact ⟨_, Or.inr rfl⟩
  · exact ⟨_, Or.inl rfl⟩

theorem hearAll_asks {iso : List UInt8} {i : Ilo} (h : Asks out) : i.hearAll iso out = i := by
  apply Ilo.hearAll_of_hear
  intro o ho
  obtain ⟨ok, rfl | rfl⟩ := h o ho
  · exact Ilo.hear_getVmStatus iso i {} ok
  · exact Ilo.hear_getFwVersion iso i {} ok

/-- What a step does, to what, and what it reports. -/
inductive Does (s : Panel) : Action → Panel → List Out → Prop
  /-- The front end pushed a job, or called `stop`. -/
  | called {a : Action} {s' : Panel} (calm : Calm s s') (worker : s'.worker = s.worker)
      (caller : s'.caller = .stopped → s.caller = .stopped) : Does s a s' []
  /-- The worker took a job, or asked the iLO something. -/
  | asked {a : Action} {s' : Panel} {out : List Out} (calm : Calm s s') (asks : Asks out)
      (worker : s.worker.Working) (worker' : s'.worker.Working) (whole : ¬ s.worker.Midway)
      (whole' : ¬ s'.worker.Midway) (caller : s'.caller = s.caller) :
      Does s a s' out
  | finished (j : Job) (w : World) (worker : s.worker = .busy j) :
      Does s (.finish w) { s.after j.iso .idle (s.ctl.doJob w j) with
        log := s.log ++ [(j, (s.ctl.doJob w j).2)] } (s.ctl.doJob w j).2
  /-- The iLO has an image that the snapshot does not name yet. -/
  | inserted (iso url : List UInt8) (w : World) (worker : s.worker = .busy (.mount iso))
      (offer : (s.ctl.offer w iso).1 = some url) (takes : w.takes .insertVirtualMedia = true) :
      Does s (.insert w)
        (s.after iso (.inserted iso url) ((s.ctl.offer w iso).2, Out.insertion url))
        (Out.insertion url)
  | noted (iso url : List UInt8) (w : World) (worker : s.worker = .inserted iso url)
      (url_eq : w.imageUrl s.ctl.cfg.httpPort iso = some url)
      (takes : w.takes .insertVirtualMedia = true) :
      Does s (.finish w) { s.after iso .idle (s.ctl.note w iso url) with
        log := s.log ++ [(.mount iso, Out.insertion url ++ (s.ctl.note w iso url).2)] }
        (s.ctl.note w iso url).2
  | left (worker : s.worker = .idle) : Does s .leave { s with worker := .leaving } [.sawStop]
  | ended (w : World) (worker : s.worker = .leaving) :
      Does s (.last w) (s.after [] .done (s.ctl.finish w)) (s.ctl.finish w).2
  | joined (worker : s.worker = .done) :
      Does s .join { s with ctl := s.ctl.stopServer, caller := .stopped } [.stopServer, .returned]

/-- A step in which the worker only asks. -/
theorem Does.of_asks {iso : List UInt8} {r : MediaControl × List Out} (halike : Alike s.ctl r.1)
    (hasks : Asks r.2) (hw : s.worker.Working) (hwhole : ¬ s.worker.Midway) :
    Does s a (s.after iso .idle r) r.2 :=
  .asked (.of_alike halike (hearAll_asks hasks) rfl) hasks hw trivial hwhole id rfl

theorem take_cases (h : s.step .take = some (s', out)) :
    s.worker = .idle ∧ s.ctl.running = true ∧ ∃ j queue, s.ctl.queue = j :: queue ∧
      s' = { s with ctl.queue := queue, worker := .busy j } ∧ out = [] := by
  dsimp only [step] at h
  split at h
  · rename_i j queue hw hrunning hqueue
    cases h
    exact ⟨hw, hrunning, j, queue, hqueue, rfl, rfl⟩
  · cases h

theorem insert_cases {w : World} (h : s.step (.insert w) = some (s', out)) :
    ∃ iso url, s.worker = .busy (.mount iso) ∧ (s.ctl.offer w iso).1 = some url ∧
      w.takes .insertVirtualMedia = true ∧
      s' = s.after iso (.inserted iso url) ((s.ctl.offer w iso).2, Out.insertion url) ∧
      out = Out.insertion url := by
  dsimp only [step] at h
  split at h
  · rename_i iso hw
    split at h
    · rename_i url ctl hoffer
      obtain ⟨htakes, h⟩ := ite_some h
      cases h
      exact ⟨iso, url, hw, by rw [hoffer], htakes, by rw [hoffer], rfl⟩
    · cases h
  · cases h

theorem finish_cases {w : World} (h : s.step (.finish w) = some (s', out)) :
    (∃ j, s.worker = .busy j ∧ out = (s.ctl.doJob w j).2 ∧
      s' = { s.after j.iso .idle (s.ctl.doJob w j) with log := s.log ++ [(j, out)] }) ∨
    ∃ iso url, s.worker = .inserted iso url ∧ w.imageUrl s.ctl.cfg.httpPort iso = some url ∧
      w.takes .insertVirtualMedia = true ∧ out = (s.ctl.note w iso url).2 ∧
      s' = { s.after iso .idle (s.ctl.note w iso url) with
        log := s.log ++ [(.mount iso, Out.insertion url ++ out)] } := by
  dsimp only [step] at h
  split at h
  · rename_i j hw
    cases h
    exact Or.inl ⟨j, hw, rfl, rfl⟩
  · rename_i iso url hw
    obtain ⟨⟨hurl, htakes⟩, h⟩ := ite_some h
    cases h
    exact Or.inr ⟨iso, url, hw, hurl, htakes, rfl, rfl⟩
  · cases h

theorem step_does (h : s.step a = some (s', out)) : Does s a s' out := by
  cases a with
  | push j =>
      cases h
      exact .called ⟨rfl, rfl, rfl, rfl, rfl, rfl⟩ rfl id
  | begin w =>
      obtain ⟨hw, h⟩ := ite_some h
      cases h
      obtain ⟨halike, hasks⟩ := begin_spec w s.ctl
      exact .of_asks halike hasks (hw ▸ trivial) (hw ▸ id)
  | take =>
      obtain ⟨hw, -, j, queue, -, rfl, rfl⟩ := take_cases h
      exact .asked ⟨rfl, rfl, rfl, rfl, rfl, rfl⟩ nofun (hw ▸ trivial) trivial (hw ▸ id) id rfl
  | insert w =>
      obtain ⟨iso, url, hw, hoffer, htakes, rfl, rfl⟩ := insert_cases h
      exact .inserted iso url w hw hoffer htakes
  | finish w =>
      rcases finish_cases h with ⟨j, hw, rfl, rfl⟩ | ⟨iso, url, hw, hurl, htakes, rfl, rfl⟩
      · exact .finished j w hw
      · exact .noted iso url w hw hurl htakes
  | poll w =>
      obtain ⟨⟨hw, -⟩, h⟩ := ite_some h
      cases h
      obtain ⟨halike, hasks⟩ := readStatus_asks w s.ctl
      exact .of_asks halike hasks (hw ▸ trivial) (hw ▸ id)
  | stop =>
      obtain ⟨-, h⟩ := ite_some h
      cases h
      exact .called ⟨rfl, rfl, rfl, rfl, rfl, rfl⟩ rfl nofun
  | leave =>
      obtain ⟨⟨hw, -⟩, h⟩ := ite_some h
      cases h
      exact .left hw
  | last w =>
      obtain ⟨hw, h⟩ := ite_some h
      cases h
      exact .ended w hw
  | join =>
      obtain ⟨⟨-, hw⟩, h⟩ := ite_some h
      cases h
      exact .joined hw

end Panel

end Ilo2.Media
