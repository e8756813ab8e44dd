import Ilo2.Media.Worker

/-!
# What a turn of the worker asks for

A turn is a job, a poll, or what the worker does before or after its loop.  What is sent in a
turn depends on what the world answers, on the licence, and on whether there is an image to
eject; and these depend on the turns before it.  So `sentBy` says what is sent in a life without
a controller.

* `doJob_sends`, `begin_sends`, `finish_sends` - **a turn of the controller sends what it asks
  for**.
* `doJob_learns` - and leaves in the snapshot what the next turn depends on.
-/

namespace Ilo2.Media

open Ribcl
open Tls (ascii)

/-! ### What is asked for -/

/-- A command that is to be sent. -/
structure Ask where
  cmd : RibclCommand
  args : RibclArgs := {}
  /-- What follows is sent only if the command takes effect. -/
  needed : Bool := true

/-- What is sent, one command after the other. -/
def said (takes : RibclCommand → Bool) : List Ask → List Out
  | [] => []
  | a :: as =>
      .sent a.cmd a.args (takes a.cmd) ::
        if takes a.cmd ∨ a.needed = false then said takes as else []

/-- What the worker has done, and what the world answered. -/
inductive Turn where
  | begin (w : World)
  | job (j : Job) (w : World)
  | poll (w : World)
  | last (w : World)

/-- What a turn depends on: the licence, and whether the worker has an image to eject. -/
structure Known where
  fw : FwInfo := {}
  mounted : Bool := false

/-- The reply to a command that takes effect. -/
def World.reply (w : World) (cmd : RibclCommand) : Option RibclReply :=
  match w.ribcl cmd with
  | .error _ => none
  | .ok reply => if reply.ok then some reply else none

/-- What the iLO says of its firmware. -/
def World.fwInfo (w : World) : Option FwInfo :=
  (w.reply .getFwVersion).bind fun r =>
    if (parseFwVersion r.raw).valid then some (parseFwVersion r.raw) else none

/-- The URL that a mount sends, if it sends one. -/
def Known.url (port : UInt16) (k : Known) (w : World) (iso : List UInt8) : Option (List UInt8) :=
  if k.fw.valid ∧ vmScriptingLicensed k.fw = false then none else w.imageUrl port iso

namespace Turn

def world : Turn → World
  | .begin w | .job _ w | .poll w | .last w => w

def job? : Turn → Option Job
  | .job j _ => some j
  | _ => none

/-- A turn of the loop. -/
def InLoop : Turn → Prop
  | .begin _ | .last _ => False
  | _ => True

/-- **What a turn asks for.** -/
def asks (port : UInt16) (k : Known) : Turn → List Ask
  | .begin _ => [{ cmd := .getFwVersion, needed := false }, { cmd := .getVmStatus }]
  | .job (.mount iso) w =>
      match k.url port w iso with
      | none => []
      | some url =>
          [{ cmd := .insertVirtualMedia, args := { imageUrl := url } }, { cmd := .getVmStatus }]
  | .job .eject _ => [{ cmd := .ejectVirtualMedia, needed := false }, { cmd := .getVmStatus }]
  | .job .armBoot _ =>
      [{ cmd := .setVmBootOption, args := { bootOption := ascii "BOOT_ONCE" } },
        { cmd := .setOneTimeBoot, args := { bootDevice := ascii "CDROM" } },
        { cmd := .getVmStatus }]
  | .job .refresh _ | .poll _ => [{ cmd := .getVmStatus }]
  | .last _ => if k.mounted then [{ cmd := .ejectVirtualMedia }] else []

def learn (port : UInt16) (k : Known) : Turn → Known
  | .begin w => { k with fw := w.fwInfo.getD k.fw }
  | .job (.mount iso) w =>
      if (k.url port w iso).isSome ∧ w.takes .insertVirtualMedia then { k with mounted := true }
      else k
  | .job .eject _ => { k with mounted := false }
  | _ => k

end Turn

theorem Turn.learn_job_fw (port : UInt16) (k : Known) (j : Job) (w : World) :
    ((Turn.job j w).learn port k).fw = k.fw := by
  cases j with
  | mount iso =>
      dsimp only [Turn.learn]
      split <;> rfl
  | eject | armBoot | refresh => rfl

/-- **What is sent in a life**, turn by turn. -/
def sentBy (port : UInt16) : Known → List Turn → List Out
  | _, [] => []
  | k, t :: ts => said t.world.takes (t.asks port k) ++ sentBy port (t.learn port k) ts

def known (port : UInt16) (ts : List Turn) : Known := ts.foldl (Turn.learn port) {}

theorem known_concat (port : UInt16) (ts : List Turn) (t : Turn) :
    known port (ts ++ [t]) = t.learn port (known port ts) :=
  List.foldl_append

theorem sentBy_append (port : UInt16) (ts : List Turn) (t : Turn) (k : Known) :
    sentBy port k (ts ++ [t]) =
      sentBy port k ts ++ said t.world.takes (t.asks port (ts.foldl (Turn.learn port) k)) := by
  induction ts generalizing k with
  | nil => exact List.append_nil _
  | cons u ts ih =>
      rw [List.cons_append, sentBy, sentBy, ih, List.append_assoc]
      rfl

theorem sentBy_concat (port : UInt16) (ts : List Turn) (t : Turn) :
    sentBy port {} (ts ++ [t]) =
      sentBy port {} ts ++ said t.world.takes (t.asks port (known port ts)) :=
  sentBy_append port ts t {}

/-- A command that was sent. -/
def Out.isSent : Out → Bool
  | .sent _ _ _ => true
  | _ => false

namespace MediaControl

variable {w : World} {s : MediaControl} {k : Known}

/-! ### The licence -/

theorem run_fw (w : World) (cmd : RibclCommand) (args : RibclArgs) (s : MediaControl) :
    (s.run w cmd args).2.1.snap.fw = s.snap.fw := by
  unfold run
  dsimp only
  cases w.ribcl cmd with
  | error err => rfl
  | ok reply =>
      dsimp only
      split <;> rfl

theorem run_reply (w : World) (cmd : RibclCommand) (args : RibclArgs) (s : MediaControl) :
    (s.run w cmd args).1 = w.reply cmd := by
  unfold run World.reply
  dsimp only
  cases w.ribcl cmd with
  | error err => rfl
  | ok reply =>
      dsimp only
      by_cases hok : reply.ok = true
      · rw [if_neg (not_not.mpr hok), if_pos hok]
      · rw [if_pos hok, if_neg hok]

theorem readStatus_fw (w : World) (s : MediaControl) : (s.readStatus w).1.snap.fw = s.snap.fw := by
  have hfw := run_fw w .getVmStatus {} s
  unfold readStatus
  rcases hrun : s.run w .getVmStatus {} with ⟨_ | r, s', out⟩
  · rw [hrun] at hfw
    exact hfw
  · rw [hrun] at hfw
    dsimp only
    split
    · exact hfw
    · exact hfw

/-- **The licence** is read before the loop. -/
theorem begin_fw (w : World) (s : MediaControl) :
    (s.begin w).1.snap.fw = w.fwInfo.getD s.snap.fw := by
  have hread : (s.readFw w).1.snap.fw = w.fwInfo.getD s.snap.fw := by
    have hreply := run_reply w .getFwVersion {} s
    have hfw := run_fw w .getFwVersion {} s
    unfold readFw World.fwInfo
    rw [← hreply]
    rcases hrun : s.run w .getFwVersion {} with ⟨_ | r, s', out⟩
    · rw [hrun] at hfw
      exact hfw
    · rw [hrun] at hfw
      by_cases hvalid : (parseFwVersion r.raw).valid = true
      · simp [hvalid]
      · simpa [hvalid] using hfw
  exact (readStatus_fw w (s.readFw w).1).trans hread

theorem note_fw (w : World) (iso url : List UInt8) (s : MediaControl) :
    (s.note w iso url).1.snap.fw = s.snap.fw :=
  (readStatus_fw w _).trans (run_fw w .insertVirtualMedia { imageUrl := url } s)

/-- No job touches it. -/
theorem doJob_fw (w : World) (j : Job) (s : MediaControl) :
    (s.doJob w j).1.snap.fw = s.snap.fw := by
  cases j with
  | mount iso =>
      show (s.doMount w iso).1.snap.fw = s.snap.fw
      unfold doMount
      split
      · rfl
      split
      · rfl
      rename_i server _
      dsimp only
      split
      · rfl
      have hfw := run_fw w .insertVirtualMedia { imageUrl := server.url w.localAddress }
        { s with server := server }
      rcases hrun : MediaControl.run w .insertVirtualMedia
          { imageUrl := server.url w.localAddress } { s with server := server } with
        ⟨_ | r, s', out⟩
      · rw [hrun] at hfw
        exact hfw
      · rw [hrun] at hfw
        exact (readStatus_fw w _).trans hfw
  | eject => exact (readStatus_fw w _).trans (run_fw w .ejectVirtualMedia {} s)
  | armBoot =>
      show (s.doArmBoot w).1.snap.fw = s.snap.fw
      unfold doArmBoot
      have hvm := run_fw w .setVmBootOption { bootOption := ascii "BOOT_ONCE" } s
      rcases hrun : s.run w .setVmBootOption { bootOption := ascii "BOOT_ONCE" } with
        ⟨_ | r, s', out⟩
      · rw [hrun] at hvm
        exact hvm
      rw [hrun] at hvm
      dsimp only at hvm ⊢
      have hone := run_fw w .setOneTimeBoot { bootDevice := ascii "CDROM" } s'
      rcases hrun' : s'.run w .setOneTimeBoot { bootDevice := ascii "CDROM" } with
        ⟨_ | r', s'', out'⟩
      · rw [hrun'] at hone
        exact hone.trans hvm
      · rw [hrun'] at hone
        exact (readStatus_fw w _).trans (hone.trans hvm)
  | refresh => exact readStatus_fw w s

theorem finish_fw (w : World) (s : MediaControl) : (s.finish w).1.snap.fw = s.snap.fw := by
  unfold finish
  dsimp only
  split
  · exact run_fw w .ejectVirtualMedia {} s
  · rfl

/-! ### What is sent -/

theorem imageUrl_ne {port : UInt16} {iso url : List UInt8} (h : w.imageUrl port iso = some url) :
    url ≠ [] := by
  obtain ⟨hlocal, server, -, -, -, rfl⟩ := start_of_imageUrl {} h
  exact url_ne hlocal

theorem known_url (hfw : k.fw = s.snap.fw) (hlic : s.unlicensed = false) (port : UInt16)
    (w : World) (iso : List UInt8) : k.url port w iso = w.imageUrl port iso := by
  unfold Known.url
  rw [if_neg]
  rintro ⟨hvalid, hlicensed⟩
  rw [hfw] at hvalid hlicensed
  simp [unlicensed, hvalid, hlicensed] at hlic

theorem offer_url (hfw : k.fw = s.snap.fw) (w : World) (iso : List UInt8) :
    (s.offer w iso).1 = k.url s.cfg.httpPort w iso := by
  unfold offer unlicensed Known.url
  rw [hfw]
  simp only [Bool.and_eq_true, Bool.not_eq_true']

/-- **A job sends what it asks for**, each command if those before it took effect. -/
theorem doJob_sends (hfw : k.fw = s.snap.fw) (w : World) (j : Job) :
    (s.doJob w j).2.filter Out.isSent =
      said w.takes ((Turn.job j w).asks s.cfg.httpPort k) := by
  cases j with
  | mount iso =>
      show (s.doMount w iso).2.filter Out.isSent = _
      dsimp only [Turn.asks]
      rw [← offer_url hfw]
      cases hoffer : (s.offer w iso).1 with
      | none =>
          refine List.filter_eq_nil_iff.mpr fun o ho => ?_
          rw [doMount_unsent hoffer o ho]
          exact Bool.false_ne_true
      | some url =>
          have hmount := doMount_offer hoffer
          by_cases htakes : w.takes .insertVirtualMedia = true
          · rw [if_pos htakes] at hmount
            rw [hmount, (note_spec w iso url _).2]
            simp [said, htakes, Out.insertion, Out.isSent]
          · rw [if_neg htakes] at hmount
            rw [hmount]
            simp [said, htakes, Out.isSent, List.filter_cons]
  | eject =>
      show (s.doEject w).2.filter Out.isSent = _
      rw [(doEject_spec w s).2]
      simp [said, Turn.asks, Out.isSent, List.filter_cons]
  | armBoot =>
      show (s.doArmBoot w).2.filter Out.isSent = _
      rcases doArmBoot_cases w s with
        ⟨hvm, -, hout⟩ | ⟨hvm, hone, -, hout⟩ | ⟨hvm, hone, -, hout⟩
      · rw [hout]
        simp [said, Turn.asks, Out.isSent, hvm]
      · rw [hout]
        simp [said, Turn.asks, Out.isSent, hvm, hone]
      · rw [hout]
        simp [said, Turn.asks, Out.isSent, hvm, hone]
  | refresh =>
      show (s.readStatus w).2.filter Out.isSent = _
      rw [(readStatus_spec w s).2]
      simp [said, Turn.asks, Out.isSent, List.filter_cons]

/-- Before the loop: the licence, and the status. -/
theorem begin_sends (w : World) (s : MediaControl) :
    (s.begin w).2.filter Out.isSent =
      [.sent .getFwVersion {} (w.takes .getFwVersion),
        .sent .getVmStatus {} (w.takes .getVmStatus)] := by
  show ((s.readFw w).2 ++ ((s.readFw w).1.readStatus w).2).filter Out.isSent = _
  rw [(readFw_spec w s).2, (readStatus_spec w _).2]
  rfl

/-- After the loop: an eject, if there is something to eject. -/
theorem finish_sends (hmounted : k.mounted = true ↔ s.snap.url ≠ []) (port : UInt16) (w : World) :
    (s.finish w).2.filter Out.isSent = said w.takes ((Turn.last w).asks port k) := by
  rw [(finish_spec w s).2]
  dsimp only [Turn.asks]
  by_cases hurl : s.snap.url = []
  · rw [if_neg (not_not.mpr hurl), if_neg fun hm => hmounted.mp hm hurl]
    rfl
  · rw [if_pos hurl, if_pos (hmounted.mpr hurl)]
    simp [said, Out.isSent, List.filter_cons]

/-- A mount whose command does not take effect leaves the URL as it was. -/
theorem doMount_url {iso : List UInt8}
    (h : ∀ args, .sent .insertVirtualMedia args true ∉ (s.doMount w iso).2) :
    (s.doMount w iso).1.snap.url = s.snap.url := by
  rcases doMount_cases w iso s with
    ⟨-, halike, -⟩ | ⟨-, ⟨server, -, halike⟩, -, -⟩ | ⟨-, server, host, -, -, -, -, hout⟩
  · exact halike.url
  · exact halike.url
  · refine absurd ?_ (h { imageUrl := server.url host })
    rw [hout]
    simp

/-- A mount and an eject decide what there is to eject. -/
theorem doJob_learns (hfw : k.fw = s.snap.fw) (hmounted : k.mounted = true ↔ s.snap.url ≠ [])
    (w : World) (j : Job) :
    ((Turn.job j w).learn s.cfg.httpPort k).mounted = true ↔ (s.doJob w j).1.snap.url ≠ [] := by
  cases j with
  | mount iso =>
      dsimp only [Turn.learn, doJob]
      rw [← offer_url hfw]
      cases hoffer : (s.offer w iso).1 with
      | none =>
          rw [doMount_url fun args hsent => nomatch doMount_unsent hoffer _ hsent]
          exact hmounted
      | some url =>
          have hmount := doMount_offer hoffer
          by_cases htakes : w.takes .insertVirtualMedia = true
          · rw [if_pos htakes] at hmount
            obtain ⟨-, -, server, host, hhost, -, -, rfl, -⟩ := offer_spec hoffer
            rw [if_pos ⟨rfl, htakes⟩, hmount, (note_spec w iso _ _).1.url]
            exact iff_of_true rfl (url_ne hhost)
          · rw [if_neg htakes] at hmount
            rw [if_neg fun h => htakes h.2, doMount_url (by rw [hmount]; simp)]
            exact hmounted
  | eject => exact iff_of_false Bool.false_ne_true (not_not.mpr (doEject_spec w s).1.url)
  | armBoot =>
      dsimp only [Turn.learn, doJob]
      rcases doArmBoot_cases w s with ⟨-, halike, -⟩ | ⟨-, -, halike, -⟩ | ⟨-, -, halike, -⟩
      all_goals
        rw [halike.url]
        exact hmounted
  | refresh =>
      dsimp only [Turn.learn, doJob]
      rw [(readStatus_spec w s).1.url]
      exact hmounted

end MediaControl

end Ilo2.Media
