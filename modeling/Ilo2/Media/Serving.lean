import Ilo2.Media.Worker

/-!
# What is served, and what is armed

Between two jobs the snapshot and the server are what the history of the jobs says.

* `serving_of_run` - **an image that was inserted is served**, until an eject job or a mount
  that fails.
* `inserted_unserved` - an eject that fails stops the server all the same.
* `boot_armed_of_run` - **`boot_armed` tells whether `arm_boot` succeeded since the last
  mount or eject**, and then both boot settings are in effect.
* `armed_unnoticed` - the boot settings outlive a mount, and the flag does not.
-/

namespace Ilo2.Media

open Ribcl
open Tls (ascii)

variable {cfg : Config} {tr : List Out} {s s' : Panel} {a : Action} {out : List Out}

/-! ### Serving -/

/-- What has become of the last image that was inserted. -/
inductive Story where
  /-- There was none, or an eject job came after it. -/
  | ejected
  /-- Neither an eject job nor a mount that failed came after it. -/
  | kept (m : Insertion)
  /-- A mount failed after it, past the test of the licence. -/
  | lost
deriving DecidableEq

/-- The image that a mount of `iso` inserted. -/
def insertedBy (iso : List UInt8) (out : List Out) : Option Insertion :=
  out.findSome? fun
    | .sent .insertVirtualMedia args true => some ⟨args.imageUrl, iso⟩
    | _ => none

namespace Story

/-- A mount has failed. -/
def lose : Story → Story
  | .ejected => .ejected
  | _ => .lost

/-- One more job.  A mount that does nothing was refused for the licence. -/
def next (y : Story) : Job × List Out → Story
  | (.mount iso, out) =>
      match insertedBy iso out with
      | some m => .kept m
      | none => if out = [] then y else y.lose
  | (.eject, _) => .ejected
  | _ => y

def of (log : List (Job × List Out)) : Story := log.foldl next .ejected

theorem of_append (log : List (Job × List Out)) (e : Job × List Out) :
    of (log ++ [e]) = (of log).next e :=
  List.foldl_append

theorem next_mount {y : Story} {iso : List UInt8} {out : List Out}
    (h : insertedBy iso out = none) :
    y.next (.mount iso, out) = if out = [] then y else y.lose := by
  dsimp only [next]
  rw [h]

end Story

/-- The server answers for the image, at its URL, and the snapshot names it. -/
structure Served (c : MediaControl) (m : Insertion) : Prop where
  running : c.server.running = true
  image : c.server.iso = m.iso
  address : ∃ host, host ≠ [] ∧ c.server.url host = m.url
  url : c.snap.url = m.url
  iso : c.snap.iso = m.iso

/-- The controller and the iLO are as the story says.  Of an image that a mount has lost
nothing is said. -/
def Story.Holds (s : Panel) : Story → Prop
  | .ejected => s.ctl.server.running = false ∧ s.ctl.snap.url = [] ∧ s.ctl.snap.iso = []
  | .kept m => s.ilo.inserted = some m ∧ Served s.ctl m
  | .lost => True

theorem Served.of_eq {c c' : MediaControl} {m : Insertion} (h : Served c m)
    (hserver : c'.server = c.server) (hurl : c'.snap.url = c.snap.url)
    (hiso : c'.snap.iso = c.snap.iso) : Served c' m :=
  ⟨hserver ▸ h.running, hserver ▸ h.image, hserver ▸ h.address, hurl.trans h.url,
    hiso.trans h.iso⟩

/-- Steps that leave the media alone. -/
theorem Story.Holds.of_eq {y : Story} (h : y.Holds s) (hserver : s'.ctl.server = s.ctl.server)
    (hurl : s'.ctl.snap.url = s.ctl.snap.url) (hiso : s'.ctl.snap.iso = s.ctl.snap.iso)
    (hilo : s'.ilo.inserted = s.ilo.inserted) : y.Holds s' := by
  cases y with
  | ejected => exact ⟨hserver ▸ h.1, hurl.trans h.2.1, hiso.trans h.2.2⟩
  | kept m => exact ⟨hilo.trans h.1, h.2.of_eq hserver hurl hiso⟩
  | lost => trivial

theorem insertedBy_none {iso : List UInt8}
    (h : ∀ o ∈ out, o = .stopServer ∨ ∃ args, o = .sent .insertVirtualMedia args false) :
    insertedBy iso out = none := by
  apply List.findSome?_eq_none_iff.mpr
  intro o ho
  rcases h o ho with rfl | ⟨args, rfl⟩ <;> rfl

theorem failed_hears {i : Ilo} {iso : List UInt8}
    (h : ∀ o ∈ out, o = .stopServer ∨ ∃ args, o = .sent .insertVirtualMedia args false) :
    i.hearAll iso out = i := by
  apply Ilo.hearAll_of_hear
  intro o ho
  rcases h o ho with rfl | ⟨args, rfl⟩ <;> rfl

/-- A mount. -/
theorem mount_holds {log : List (Job × List Out)} {iso : List UInt8} {w : World} {worker : Worker}
    {y : Story} (h : y.Holds s) :
    (y.next (.mount iso, (s.ctl.doMount w iso).2)).Holds
      { s.after iso worker (s.ctl.doMount w iso) with log := log } := by
  rcases s.ctl.doMount_cases w iso with ⟨-, halike, hout⟩ | ⟨-, ⟨server, hstop, halike⟩, hne, hout⟩ |
    ⟨-, server, host, hhost, hrun, himg, halike, hout⟩
  · rw [Story.next_mount (by rw [hout]; rfl), if_pos hout]
    exact h.of_eq halike.server halike.url halike.iso (by rw [Panel.after, hout]; rfl)
  · rw [Story.next_mount (insertedBy_none hout), if_neg hne]
    cases y with
    | ejected => exact ⟨halike.server ▸ hstop, halike.url.trans h.2.1, halike.iso.trans h.2.2⟩
    | kept m => trivial
    | lost => trivial
  · rw [hout]
    refine ⟨?_, ⟨?_, ?_, ?_, ?_, ?_⟩⟩
    · rw [Panel.after, hout]
      simp [Ilo.hear]
    · exact halike.server ▸ hrun
    · exact halike.server ▸ himg
    · exact ⟨host, hhost, halike.server ▸ rfl⟩
    · exact halike.url
    · exact halike.iso

/-- A job, whatever the world answers. -/
theorem job_holds {log : List (Job × List Out)} {w : World} {worker : Worker} {y : Story}
    (h : y.Holds s) (j : Job) :
    (y.next (j, (s.ctl.doJob w j).2)).Holds
      { s.after j.iso worker (s.ctl.doJob w j) with log := log } := by
  cases j with
  | mount iso => exact mount_holds h
  | eject =>
      obtain ⟨halike, -⟩ := s.ctl.doEject_spec w
      exact ⟨halike.server ▸ rfl, halike.url, halike.iso⟩
  | armBoot =>
      rcases s.ctl.doArmBoot_cases w with ⟨-, halike, hout⟩ | ⟨-, -, halike, hout⟩ |
        ⟨-, -, halike, hout⟩ <;>
      · refine h.of_eq halike.server halike.url halike.iso ?_
        show (s.ilo.hearAll [] (s.ctl.doArmBoot w).2).inserted = s.ilo.inserted
        rw [hout]
        simp [Ilo.hear]
  | refresh =>
      obtain ⟨halike, hasks⟩ := Panel.readStatus_asks w s.ctl
      exact h.of_eq halike.server halike.url halike.iso
        (congrArg Ilo.inserted (Panel.hearAll_asks hasks))

/-- The iLO has the image of a mount, and the server answers for it. -/
structure Offered (s : Panel) (m : Insertion) : Prop where
  inserted : s.ilo.inserted = some m
  running : s.ctl.server.running = true
  image : s.ctl.server.iso = m.iso
  address : ∃ host, host ≠ [] ∧ s.ctl.server.url host = m.url

theorem Offered.of_calm {m : Insertion} (h : Offered s m) (hc : Calm s s') : Offered s' m :=
  ⟨hc.ilo ▸ h.inserted, hc.server ▸ h.running, hc.server ▸ h.image, hc.server ▸ h.address⟩

/-- The end of a mount. -/
theorem note_holds {log : List (Job × List Out)} {iso url : List UInt8} {w : World}
    {worker : Worker} {y : Story} (h : Offered s ⟨url, iso⟩) :
    (y.next (.mount iso, Out.insertion url ++ (s.ctl.note w iso url).2)).Holds
      { s.after iso worker (s.ctl.note w iso url) with log := log } := by
  obtain ⟨halike, hout⟩ := s.ctl.note_spec w iso url
  have hilo : s.ilo.hearAll iso (s.ctl.note w iso url).2 = s.ilo := by
    rw [hout, Ilo.hearAll_cons, Ilo.hear_getVmStatus, Ilo.hearAll_nil]
  refine ⟨?_, ⟨?_, ?_, ?_, ?_, ?_⟩⟩
  · exact (congrArg Ilo.inserted hilo).trans h.inserted
  · exact halike.server ▸ h.running
  · exact halike.server ▸ h.image
  · obtain ⟨host, hhost, hurl⟩ := h.address
    exact ⟨host, hhost, halike.server ▸ hurl⟩
  · exact halike.url
  · exact halike.iso

/-- The history and the media. -/
def Told (s : Panel) : Prop :=
  match s.worker with
  | .done => True
  | .inserted iso url => Offered s ⟨url, iso⟩
  | _ => (Story.of s.log).Holds s

theorem Told.of_holds (h : (Story.of s.log).Holds s) (hw : ¬ s.worker.Midway) : Told s := by
  unfold Told
  cases hworker : s.worker with
  | done => trivial
  | inserted iso url => exact absurd (hworker ▸ trivial) hw
  | starting | idle | busy j | leaving => exact h

theorem Told.holds (h : Told s) (hdone : s.worker ≠ .done) (hw : ¬ s.worker.Midway) :
    (Story.of s.log).Holds s := by
  unfold Told at h
  cases hworker : s.worker with
  | done => exact absurd hworker hdone
  | inserted iso url => exact absurd (hworker ▸ trivial) hw
  | starting | idle | busy j | leaving =>
      rw [hworker] at h
      exact h

/-- Steps that leave the media and the worker alone. -/
theorem Told.of_calm (h : Told s) (hc : Calm s s') (hw : s'.worker = s.worker) : Told s' := by
  unfold Told at h ⊢
  rw [hw, hc.log]
  split at h
  · trivial
  · exact h.of_calm hc
  · exact h.of_eq hc.server hc.url hc.iso (congrArg _ hc.ilo)

theorem told_of_run (h : (machine cfg).Run (fun _ _ => True) tr s) : Told s := by
  have hstart : Told (machine cfg).start := .of_holds ⟨rfl, rfl, rfl⟩ id
  refine Machine.Run.inv (fun _ s => Told s) hstart ?_ h
  intro tr s a out s' ih _ hstep
  cases Panel.step_does hstep with
  | called calm worker _ => exact ih.of_calm calm worker
  | asked calm _ worker _ whole whole' _ =>
      have hholds := ih.holds worker.ne_done whole
      refine .of_holds ?_ whole'
      rw [calm.log]
      exact hholds.of_eq calm.server calm.url calm.iso (congrArg _ calm.ilo)
  | finished j w worker =>
      have hholds := ih.holds (worker ▸ nofun) (worker ▸ id)
      refine .of_holds ?_ id
      rw [Story.of_append]
      exact job_holds hholds j
  | inserted iso url w worker offer takes =>
      obtain ⟨-, -, server, host, hhost, hrunning, himage, hurl, halike⟩ := s.ctl.offer_spec offer
      refine ⟨rfl, halike.server ▸ hrunning, halike.server ▸ himage, host, hhost, ?_⟩
      exact halike.server ▸ hurl
  | noted iso url w worker url_eq takes =>
      unfold Told at ih
      rw [worker] at ih
      refine .of_holds ?_ id
      rw [Story.of_append]
      exact note_holds ih
  | left worker => exact .of_holds (ih.holds (worker ▸ nofun) (worker ▸ id)) id
  | ended w _ => trivial
  | joined worker =>
      unfold Told
      rw [worker]
      trivial

/-- **Serving follows mounting.**  Between two jobs: as long as neither an eject job nor a
mount that failed has come after the last image that was inserted, it is still inserted, and
it is served at its URL; once an eject job has come after it, the server is stopped and the
snapshot is empty. -/
theorem serving_of_run (h : (machine cfg).Run (fun _ _ => True) tr s) (hidle : s.worker = .idle) :
    match Story.of s.log with
    | .ejected => s.ctl.server.running = false ∧ s.ctl.snap.url = [] ∧ s.ctl.snap.iso = []
    | .kept m => s.ilo.inserted = some m ∧ Served s.ctl m
    | .lost => True :=
  (told_of_run h).holds (hidle ▸ nofun) (hidle ▸ id)

def oneMount : List Action :=
  [.begin (.refusing []), .push (.mount [0x62]), .take, .finish (.refusing [])]

theorem serving_of_run_mount : ∃ tr s m, (machine ⟨[], 80, 15⟩).Run (fun _ _ => True) tr s ∧
    s.worker = .idle ∧ Story.of s.log = .kept m ∧ s.ilo.inserted = some m ∧ Served s.ctl m := by
  have hexec : ((machine ⟨[], 80, 15⟩).exec (fun _ _ => True) (machine ⟨[], 80, 15⟩).start
      oneMount).map (fun r => (r.1.worker, Story.of r.1.log)) =
        some (.idle, .kept ⟨ascii "http://a:80/b", [0x62]⟩) := by
    decide
  obtain ⟨⟨s, tr⟩, hexec, hobs⟩ := Option.map_eq_some_iff.mp hexec
  simp only [Prod.mk.injEq] at hobs
  obtain ⟨hidle, hstory⟩ := hobs
  have hrun := Machine.run_of_exec hexec
  have hserving := serving_of_run hrun hidle
  rw [hstory] at hserving
  exact ⟨tr, s, _, hrun, hidle, hstory, hserving⟩

/-- A mount, and an eject that the iLO refuses. -/
def refusedEject : List Action :=
  oneMount ++ [.push .eject, .take, .finish (.refusing [.ejectVirtualMedia])]

/-- **An eject that fails** leaves the image inserted, and the server stopped. -/
theorem inserted_unserved : ¬ ∀ (cfg : Config) (tr : List Out) (s : Panel),
    (machine cfg).Run (fun _ _ => True) tr s → s.worker = .idle →
      ∀ m, s.ilo.inserted = some m → Served s.ctl m := by
  intro hall
  have hexec : ((machine ⟨[], 80, 15⟩).exec (fun _ _ => True) (machine ⟨[], 80, 15⟩).start
      refusedEject).map (fun r => (r.1.worker, r.1.ilo.inserted.isSome, r.1.ctl.server.running)) =
        some (.idle, true, false) := by
    decide
  obtain ⟨⟨s, tr⟩, hexec, hobs⟩ := Option.map_eq_some_iff.mp hexec
  simp only [Prod.mk.injEq] at hobs
  obtain ⟨hidle, hsome, hstop⟩ := hobs
  obtain ⟨m, hm⟩ := Option.isSome_iff_exists.mp hsome
  have hserved := hall _ tr s (Machine.run_of_exec hexec) hidle m hm
  rw [hserved.running] at hstop
  cases hstop

/-! ### Arming -/

/-- Both commands of `do_arm_boot` took effect. -/
def armedBy (out : List Out) : Prop :=
  .sent .setVmBootOption { bootOption := ascii "BOOT_ONCE" } true ∈ out ∧
    .sent .setOneTimeBoot { bootDevice := ascii "CDROM" } true ∈ out

instance (out : List Out) : Decidable (armedBy out) := by
  unfold armedBy
  infer_instance

/-- One more job. -/
def armedNext (b : Bool) : Job × List Out → Bool
  | (.mount iso, out) => if insertedBy iso out = none then b else false
  | (.eject, _) => false
  | (.armBoot, out) => if armedBy out then true else b
  | (.refresh, _) => b

/-- An `arm_boot` succeeded, and neither a successful mount nor an eject job came after it. -/
def armedSince (log : List (Job × List Out)) : Bool := log.foldl armedNext false

theorem armedSince_append (log : List (Job × List Out)) (e : Job × List Out) :
    armedSince (log ++ [e]) = armedNext (armedSince log) e :=
  List.foldl_append

/-- Both boot settings are in effect. -/
def Ilo.Armed (i : Ilo) : Prop :=
  i.vmBootOption = ascii "BOOT_ONCE" ∧ i.oneTimeBoot = ascii "CDROM"

/-- The flag is as the history says, and no false alarm. -/
structure ArmedAs (s : Panel) (b : Bool) : Prop where
  flag : s.ctl.snap.bootArmed = b
  armed : b = true → s.ilo.Armed

/-- Steps that leave the boot settings and the flag alone. -/
theorem ArmedAs.of_eq {b : Bool} (h : ArmedAs s b)
    (hflag : s'.ctl.snap.bootArmed = s.ctl.snap.bootArmed)
    (hvm : s'.ilo.vmBootOption = s.ilo.vmBootOption)
    (hone : s'.ilo.oneTimeBoot = s.ilo.oneTimeBoot) : ArmedAs s' b :=
  ⟨hflag.trans h.flag, fun hb => ⟨hvm.trans (h.armed hb).1, hone.trans (h.armed hb).2⟩⟩

theorem ArmedAs.of_false (h : s.ctl.snap.bootArmed = false) : ArmedAs s false := ⟨h, nofun⟩

theorem mount_armed {log : List (Job × List Out)} {iso : List UInt8} {w : World} {worker : Worker}
    {b : Bool} (h : ArmedAs s b) :
    ArmedAs { s.after iso worker (s.ctl.doMount w iso) with log := log }
      (armedNext b (.mount iso, (s.ctl.doMount w iso).2)) := by
  dsimp only [armedNext]
  rcases s.ctl.doMount_cases w iso with ⟨-, halike, hout⟩ | ⟨-, ⟨server, -, halike⟩, -, hout⟩ |
    ⟨-, server, host, -, -, -, halike, hout⟩
  · have hilo : s.ilo.hearAll iso (s.ctl.doMount w iso).2 = s.ilo := by rw [hout]; rfl
    rw [if_pos (by rw [hout]; rfl)]
    exact h.of_eq halike.bootArmed (congrArg _ hilo) (congrArg _ hilo)
  · have hilo : s.ilo.hearAll iso (s.ctl.doMount w iso).2 = s.ilo := failed_hears hout
    rw [if_pos (insertedBy_none hout)]
    exact h.of_eq halike.bootArmed (congrArg _ hilo) (congrArg _ hilo)
  · rw [if_neg (by rw [hout]; nofun)]
    exact .of_false halike.bootArmed

/-- **What `do_arm_boot` leaves on the iLO**: nothing new, or the first setting alone, or both. -/
theorem arm_ilo (w : World) (c : MediaControl) (i : Ilo) :
    i.hearAll [] (c.doArmBoot w).2 =
      if w.takes .setVmBootOption = false then i
      else if w.takes .setOneTimeBoot = false then { i with vmBootOption := ascii "BOOT_ONCE" }
      else { i with vmBootOption := ascii "BOOT_ONCE", oneTimeBoot := ascii "CDROM" } := by
  rcases c.doArmBoot_cases w with ⟨hvm, -, hout⟩ | ⟨hvm, hone, -, hout⟩ | ⟨hvm, hone, -, hout⟩
  · rw [hout, if_pos hvm]
    rfl
  · rw [hout, if_neg (by rw [hvm]; nofun), if_pos hone]
    rfl
  · rw [hout, if_neg (by rw [hvm]; nofun), if_neg (by rw [hone]; nofun)]
    simp [Ilo.hear]

theorem arm_armed {log : List (Job × List Out)} {w : World} {worker : Worker}
    {b : Bool} (h : ArmedAs s b) :
    ArmedAs { s.after [] worker (s.ctl.doArmBoot w) with log := log }
      (armedNext b (.armBoot, (s.ctl.doArmBoot w).2)) := by
  have hilo : s.ilo.hearAll [] (s.ctl.doArmBoot w).2 = _ := arm_ilo w s.ctl s.ilo
  dsimp only [armedNext]
  rcases s.ctl.doArmBoot_cases w with ⟨hvm, halike, hout⟩ | ⟨hvm, hone, halike, hout⟩ |
    ⟨hvm, hone, halike, hout⟩
  · rw [if_pos hvm] at hilo
    rw [if_neg (by rw [hout]; simp [armedBy])]
    exact h.of_eq halike.bootArmed (congrArg _ hilo) (congrArg _ hilo)
  · rw [if_neg (by rw [hvm]; nofun), if_pos hone] at hilo
    rw [if_neg (by rw [hout]; simp [armedBy])]
    refine ⟨halike.bootArmed.trans h.flag, fun hb => ⟨congrArg Ilo.vmBootOption hilo, ?_⟩⟩
    exact (congrArg Ilo.oneTimeBoot hilo).trans (h.armed hb).2
  · rw [if_neg (by rw [hvm]; nofun), if_neg (by rw [hone]; nofun)] at hilo
    rw [if_pos (by rw [hout]; simp [armedBy])]
    exact ⟨halike.bootArmed, fun _ => ⟨congrArg Ilo.vmBootOption hilo,
      congrArg Ilo.oneTimeBoot hilo⟩⟩

theorem job_armed {log : List (Job × List Out)} {w : World} {worker : Worker} {b : Bool}
    (h : ArmedAs s b) (j : Job) :
    ArmedAs { s.after j.iso worker (s.ctl.doJob w j) with log := log }
      (armedNext b (j, (s.ctl.doJob w j).2)) := by
  cases j with
  | mount iso => exact mount_armed h
  | eject => exact .of_false (s.ctl.doEject_spec w).1.bootArmed
  | armBoot => exact arm_armed h
  | refresh =>
      obtain ⟨halike, hasks⟩ := Panel.readStatus_asks w s.ctl
      have hilo : s.ilo.hearAll [] (s.ctl.readStatus w).2 = s.ilo := Panel.hearAll_asks hasks
      exact h.of_eq halike.bootArmed (congrArg _ hilo) (congrArg _ hilo)

theorem armed_of_run (h : (machine cfg).Run (fun _ _ => True) tr s) :
    s.worker ≠ .done → ArmedAs s (armedSince s.log) := by
  refine Machine.Run.inv (fun _ s => s.worker ≠ .done → ArmedAs s (armedSince s.log)) ?_ ?_ h
  · exact fun _ => .of_false rfl
  · intro tr s a out s' ih _ hstep hdone
    have hcalm (hc : Calm s s') (hw : s.worker ≠ .done) : ArmedAs s' (armedSince s'.log) := by
      rw [hc.log]
      exact (ih hw).of_eq hc.bootArmed (congrArg _ hc.ilo) (congrArg _ hc.ilo)
    cases Panel.step_does hstep with
    | called calm worker _ => exact hcalm calm (worker ▸ hdone)
    | asked calm _ worker _ _ _ _ => exact hcalm calm worker.ne_done
    | finished j w worker =>
        rw [armedSince_append]
        exact job_armed (ih (worker ▸ nofun)) j
    | inserted iso url w worker offer takes =>
        obtain ⟨-, -, server, host, -, -, -, -, halike⟩ := s.ctl.offer_spec offer
        exact (ih (worker ▸ nofun)).of_eq halike.bootArmed rfl rfl
    | noted iso url w worker url_eq takes =>
        obtain ⟨halike, -⟩ := s.ctl.note_spec w iso url
        rw [armedSince_append]
        exact .of_false halike.bootArmed
    | left worker => exact (ih (worker ▸ nofun)).of_eq rfl rfl rfl
    | ended w _ => exact absurd rfl hdone
    | joined worker => exact absurd worker hdone

/-- **`boot_armed`**: between two jobs it is set exactly if an `arm_boot` succeeded, and
neither a successful mount nor an eject job came after it; both boot settings are then in
effect.  An `arm_boot` that fails leaves both settings alone if the first command failed, and
`SetOneTimeBoot` alone if the second did. -/
theorem boot_armed_of_run (h : (machine cfg).Run (fun _ _ => True) tr s) :
    (s.worker = .idle → s.ctl.snap.bootArmed = armedSince s.log ∧
      (s.ctl.snap.bootArmed = true →
        s.ilo.vmBootOption = ascii "BOOT_ONCE" ∧ s.ilo.oneTimeBoot = ascii "CDROM")) ∧
    ∀ w s' out, s.worker = .busy .armBoot → s.step (.finish w) = some (s', out) →
      (w.takes .setVmBootOption = false → s'.ilo = s.ilo) ∧
      (w.takes .setVmBootOption = true → w.takes .setOneTimeBoot = false →
        s'.ilo = { s.ilo with vmBootOption := ascii "BOOT_ONCE" }) := by
  constructor
  · intro hidle
    have harmed := armed_of_run h (hidle ▸ nofun)
    exact ⟨harmed.flag, fun hb => harmed.armed (harmed.flag ▸ hb)⟩
  · intro w s' out hw hstep
    dsimp only [Panel.step] at hstep
    rw [hw] at hstep
    cases hstep
    have hilo : s.ilo.hearAll [] (s.ctl.doArmBoot w).2 = _ := arm_ilo w s.ctl s.ilo
    constructor
    · intro hvm
      exact hilo.trans (if_pos hvm)
    · intro hvm hone
      exact hilo.trans ((if_neg (by rw [hvm]; nofun)).trans (if_pos hone))

def oneArm : List Action := [.begin (.refusing []), .push .armBoot, .take, .finish (.refusing [])]

theorem boot_armed_of_run_arm : ∃ tr s, (machine ⟨[], 80, 15⟩).Run (fun _ _ => True) tr s ∧
    s.worker = .idle ∧ s.ctl.snap.bootArmed = true ∧ s.ilo.vmBootOption = ascii "BOOT_ONCE" ∧
      s.ilo.oneTimeBoot = ascii "CDROM" := by
  have hexec : ((machine ⟨[], 80, 15⟩).exec (fun _ _ => True) (machine ⟨[], 80, 15⟩).start
      oneArm).map (fun r => (r.1.worker, r.1.ctl.snap.bootArmed)) = some (.idle, true) := by
    decide
  obtain ⟨⟨s, tr⟩, hexec, hobs⟩ := Option.map_eq_some_iff.mp hexec
  simp only [Prod.mk.injEq] at hobs
  obtain ⟨hidle, harmed⟩ := hobs
  have hrun := Machine.run_of_exec hexec
  exact ⟨tr, s, hrun, hidle, harmed, ((boot_armed_of_run hrun).1 hidle).2 harmed⟩

/-- An `arm_boot` and a mount. -/
def armThenMount : List Action :=
  oneArm ++ [.push (.mount [0x62]), .take, .finish (.refusing [])]

/-- **A mount clears the flag**, and both boot settings stay in effect. -/
theorem armed_unnoticed : ¬ ∀ (cfg : Config) (tr : List Out) (s : Panel),
    (machine cfg).Run (fun _ _ => True) tr s → s.worker = .idle →
      (s.ilo.vmBootOption = ascii "BOOT_ONCE" ∧ s.ilo.oneTimeBoot = ascii "CDROM" →
        s.ctl.snap.bootArmed = true) ∧
      (s.ctl.snap.bootArmed = false →
        s.ilo.vmBootOption ≠ ascii "BOOT_ONCE" ∧ s.ilo.oneTimeBoot ≠ ascii "CDROM") := by
  intro hall
  have hexec : ((machine ⟨[], 80, 15⟩).exec (fun _ _ => True) (machine ⟨[], 80, 15⟩).start
      armThenMount).map (fun r => (r.1.worker, r.1.ilo.vmBootOption, r.1.ilo.oneTimeBoot,
        r.1.ctl.snap.bootArmed)) = some (.idle, ascii "BOOT_ONCE", ascii "CDROM", false) := by
    decide
  obtain ⟨⟨s, tr⟩, hexec, hobs⟩ := Option.map_eq_some_iff.mp hexec
  simp only [Prod.mk.injEq] at hobs
  obtain ⟨hidle, hvm, hone, hflag⟩ := hobs
  have harmed := (hall _ tr s (Machine.run_of_exec hexec) hidle).1 ⟨hvm, hone⟩
  rw [hflag] at harmed
  cases harmed

end Ilo2.Media
