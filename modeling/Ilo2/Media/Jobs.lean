import Ilo2.Lib.JobQueue
import Ilo2.Lib.Trace
import Ilo2.Media.Turns

/-!
# What the media worker does

`MediaControl` over its lives, from one `start` to the next, with the calls of the queue, the
turns of the worker and the commands to the iLO as its outputs.

* `jobs_in_order` - **the jobs are done once, and in order, and the iLO is sent what they ask
  for**, what the polls ask for, and the last eject, command by command.
-/

namespace Ilo2.Media

open Ribcl
open Tls (ascii)

/-- No job touches the queue. -/
theorem doJob_keeps (w : World) (j : Job) (s : MediaControl) :
    (s.doJob w j).1.queue = s.queue ∧ (s.doJob w j).1.running = s.running ∧
      (s.doJob w j).1.cfg = s.cfg := by
  cases j with
  | mount iso =>
      rcases MediaControl.doMount_cases w iso s with
        ⟨-, halike, -⟩ | ⟨-, ⟨server, -, halike⟩, -, -⟩ | ⟨-, server, host, -, -, -, halike, -⟩
      · exact ⟨halike.queue, halike.running, halike.cfg⟩
      · exact ⟨halike.queue, halike.running, halike.cfg⟩
      · exact ⟨halike.queue, halike.running, halike.cfg⟩
  | eject =>
      obtain ⟨halike, -⟩ := MediaControl.doEject_spec w s
      exact ⟨halike.queue, halike.running, halike.cfg⟩
  | armBoot =>
      rcases MediaControl.doArmBoot_cases w s with
        ⟨-, halike, -⟩ | ⟨-, -, halike, -⟩ | ⟨-, -, halike, -⟩
      · exact ⟨halike.queue, halike.running, halike.cfg⟩
      · exact ⟨halike.queue, halike.running, halike.cfg⟩
      · exact ⟨halike.queue, halike.running, halike.cfg⟩
  | refresh =>
      obtain ⟨halike, -⟩ := MediaControl.readStatus_spec w s
      exact ⟨halike.queue, halike.running, halike.cfg⟩

/-- The end of the worker: the queue and the snapshot's URL stay. -/
theorem finish_keeps (w : World) (s : MediaControl) :
    (s.finish w).1.queue = s.queue ∧ (s.finish w).1.running = s.running ∧
      (s.finish w).1.cfg = s.cfg ∧ (s.finish w).1.snap.url = s.snap.url := by
  unfold MediaControl.finish
  dsimp only
  split
  · obtain ⟨halike, -, -⟩ := MediaControl.run_spec w .ejectVirtualMedia {} s
    exact ⟨halike.queue, halike.running, halike.cfg, halike.url⟩
  · exact ⟨rfl, rfl, rfl, rfl⟩

namespace Panel

inductive Event where
  | queue (e : JobQueue.Event Job)
  | turn (t : Turn)
  | out (o : Out)

/-- The job in hand. -/
def inHand (s : Panel) : List Job :=
  match s.worker with
  | .busy j => [j]
  | .inserted iso _ => [.mount iso]
  | _ => []

/-- What a step tells: a turn is told when it is over. -/
def report (s : Panel) (a : Action) (s' : Panel) (out : List Out) : List Event :=
  (match a with
    | .push j => [.queue (.asked j)]
    | .begin w => [.turn (.begin w)]
    | .take => s'.inHand.map fun j => .queue (.begun j)
    | .insert _ => []
    | .finish w => s.inHand.map fun j => .turn (.job j w)
    | .poll w => [.turn (.poll w)]
    | .stop => [.queue .closed]
    | .leave => []
    | .last w => [.turn (.last w)]
    | .join => []) ++ out.map .out

def Event.queue? : Event → Option (JobQueue.Event Job)
  | .queue e => some e
  | .turn _ | .out _ => none

def Event.turn? : Event → Option Turn
  | .turn t => some t
  | .queue _ | .out _ => none

def Event.begun? : Event → Option Job
  | .queue (.begun j) => some j
  | _ => none

def Event.sent? : Event → Option Out
  | .out o => if o.isSent then some o else none
  | .queue _ | .turn _ => none

def Event.isOpened : Event → Bool
  | .queue .opened => true
  | _ => false

def jobQueue (s : Panel) : JobQueue.State Job := ⟨s.ctl.running, s.ctl.queue⟩

def turns (tr : List Event) : List Turn := tr.filterMap Event.turn?

variable {s s' : Panel} {a : Action} {out : List Out} {tr : List Event}

/-! ### The queue -/

theorem queue?_out (out : List Out) : (out.map Event.out).filterMap Event.queue? = [] :=
  Trace.filterMap_map_none (fun _ => rfl) out

/-- A step that reports nothing of the queue. -/
theorem follows_keep (hqueue : s'.ctl.queue = s.ctl.queue)
    (hrunning : s'.ctl.running = s.ctl.running) :
    [].foldlM JobQueue.State.next s.jobQueue = some s'.jobQueue := by
  unfold jobQueue
  rw [hqueue, hrunning]
  rfl

/-- **Every step** is one that the queue of the jobs can follow. -/
theorem step_follows (h : s.step a = some (s', out)) :
    ((report s a s' out).filterMap Event.queue?).foldlM JobQueue.State.next s.jobQueue =
      some s'.jobQueue := by
  unfold report
  rw [List.filterMap_append, queue?_out, List.append_nil]
  cases a with
  | push j =>
      cases h
      rfl
  | stop =>
      obtain ⟨-, h⟩ := Machine.ite_some h
      cases h
      rfl
  | begin w =>
      obtain ⟨-, h⟩ := Machine.ite_some h
      cases h
      obtain ⟨halike, -⟩ := begin_spec w s.ctl
      exact follows_keep halike.queue halike.running
  | take =>
      obtain ⟨hw, hrunning, j, queue, hqueue, rfl, rfl⟩ := take_cases h
      unfold jobQueue inHand
      rw [hrunning, hqueue]
      simp [Event.queue?, JobQueue.State.next]
  | insert w =>
      obtain ⟨iso, url, -, hoffer, -, rfl, rfl⟩ := insert_cases h
      obtain ⟨-, -, server, host, -, -, -, -, halike⟩ := MediaControl.offer_spec hoffer
      exact follows_keep halike.queue halike.running
  | finish w =>
      unfold inHand
      rcases finish_cases h with ⟨j, hw, rfl, rfl⟩ | ⟨iso, url, hw, -, -, rfl, rfl⟩
      · obtain ⟨hqueue, hrunning, -⟩ := doJob_keeps w j s.ctl
        rw [hw]
        exact follows_keep hqueue hrunning
      · obtain ⟨halike, -⟩ := s.ctl.note_spec w iso url
        rw [hw]
        exact follows_keep halike.queue halike.running
  | poll w =>
      obtain ⟨-, h⟩ := Machine.ite_some h
      cases h
      obtain ⟨halike, -⟩ := readStatus_asks w s.ctl
      exact follows_keep halike.queue halike.running
  | leave | join =>
      obtain ⟨-, h⟩ := Machine.ite_some h
      cases h
      exact follows_keep rfl rfl
  | last w =>
      obtain ⟨-, h⟩ := Machine.ite_some h
      cases h
      obtain ⟨hqueue, hrunning, -⟩ := finish_keeps w s.ctl
      exact follows_keep hqueue hrunning

/-! ### The account -/

/-- A life up to its loop: the turn before it, and turns of the loop. -/
def Begun (ts : List Turn) : Prop := ∃ w mid, ts = .begin w :: mid ∧ ∀ t ∈ mid, t.InLoop

theorem Begun.add {ts : List Turn} {t : Turn} (h : Begun ts) (ht : t.InLoop) :
    Begun (ts ++ [t]) := by
  obtain ⟨w, mid, rfl, hmid⟩ := h
  refine ⟨w, mid ++ [t], rfl, fun u hu => ?_⟩
  rcases List.mem_append.mp hu with hu | hu
  · exact hmid u hu
  · exact List.mem_singleton.mp hu ▸ ht

/-- The turns of a life, up to where the worker is. -/
def Shape : Worker → List Turn → Prop
  | .starting, ts => ts = []
  | .idle, ts | .busy _, ts | .inserted _ _, ts | .leaving, ts => Begun ts
  | .done, ts => ts = [] ∨ ∃ ts' w, Begun ts' ∧ ts = ts' ++ [.last w]

/-- The command of a mount that is not over. -/
def pending (s : Panel) : List Out :=
  match s.worker with
  | .inserted _ url => [.sent .insertVirtualMedia { imageUrl := url } true]
  | _ => []

/-- The account of a life: the jobs, the turns and the commands. -/
structure Account (tr : List Event) (s : Panel) : Prop where
  begun : tr.filterMap Event.begun? = (turns tr).filterMap Turn.job? ++ s.inHand
  shape : Shape s.worker (turns tr)
  sent : tr.filterMap Event.sent? = sentBy s.ctl.cfg.httpPort {} (turns tr) ++ s.pending

/-- What the turns tell is what the snapshot has. -/
structure Books (tr : List Event) (s : Panel) : Prop extends Account tr s where
  fw : (known s.ctl.cfg.httpPort (turns tr)).fw = s.ctl.snap.fw
  mounted : (known s.ctl.cfg.httpPort (turns tr)).mounted = true ↔ s.ctl.snap.url ≠ []
  midway : s.worker.Midway → s.ctl.unlicensed = false

theorem outs_begun (out : List Out) : (out.map Event.out).filterMap Event.begun? = [] :=
  Trace.filterMap_map_none (fun _ => rfl) out

theorem outs_turn (out : List Out) : (out.map Event.out).filterMap Event.turn? = [] :=
  Trace.filterMap_map_none (fun _ => rfl) out

theorem outs_sent (out : List Out) :
    (out.map Event.out).filterMap Event.sent? = out.filter Out.isSent := by
  induction out with
  | nil => rfl
  | cons o out ih =>
      rw [List.map_cons, List.filterMap_cons, List.filter_cons, ih]
      cases h : o.isSent <;> simp [Event.sent?, h]

/-- A step in which no turn ends. -/
theorem Books.quiet (h : Books tr s) {ev : List Event} (hturn : ev.filterMap Event.turn? = [])
    (hbegun : s.inHand ++ ev.filterMap Event.begun? = s'.inHand)
    (hsent : s.pending ++ ev.filterMap Event.sent? = s'.pending)
    (hshape : Shape s.worker (turns tr) → Shape s'.worker (turns tr))
    (hcfg : s'.ctl.cfg = s.ctl.cfg) (hfw : s'.ctl.snap.fw = s.ctl.snap.fw)
    (hurl : s'.ctl.snap.url = s.ctl.snap.url)
    (hmidway : s'.worker.Midway → s'.ctl.unlicensed = false) : Books (tr ++ ev) s' := by
  have hturns : turns (tr ++ ev) = turns tr := by
    unfold turns
    rw [List.filterMap_append, hturn, List.append_nil]
  refine ⟨⟨?_, ?_, ?_⟩, ?_, ?_, hmidway⟩
  · rw [List.filterMap_append, h.begun, hturns, List.append_assoc, hbegun]
  · exact hturns ▸ hshape h.shape
  · rw [List.filterMap_append, h.sent, hturns, hcfg, List.append_assoc, hsent]
  · rw [hturns, hcfg, h.fw, hfw]
  · rw [hturns, hcfg, hurl]
    exact h.mounted

/-- A step that ends a turn. -/
theorem Books.turn (h : Books tr s) (t : Turn) (hhand : s.inHand = t.job?.toList)
    (hhand' : s'.inHand = [])
    (hsent : s.pending ++ out.filter Out.isSent =
      said t.world.takes (t.asks s.ctl.cfg.httpPort (known s.ctl.cfg.httpPort (turns tr))))
    (hpending : s'.pending = [])
    (hshape : Shape s.worker (turns tr) → Shape s'.worker (turns tr ++ [t]))
    (hcfg : s'.ctl.cfg = s.ctl.cfg)
    (hfw : (t.learn s.ctl.cfg.httpPort (known s.ctl.cfg.httpPort (turns tr))).fw =
      s'.ctl.snap.fw)
    (hmounted : (t.learn s.ctl.cfg.httpPort (known s.ctl.cfg.httpPort (turns tr))).mounted =
      true ↔ s'.ctl.snap.url ≠ [])
    (hmidway : ¬ s'.worker.Midway) : Books (tr ++ ([.turn t] ++ out.map .out)) s' := by
  have hturns : turns (tr ++ ([.turn t] ++ out.map .out)) = turns tr ++ [t] := by
    unfold turns
    rw [List.filterMap_append, List.filterMap_append, outs_turn]
    rfl
  have hbegun : ([Event.turn t] ++ out.map Event.out).filterMap Event.begun? = [] := outs_begun out
  have hcommands : ([Event.turn t] ++ out.map Event.out).filterMap Event.sent? =
      out.filter Out.isSent := outs_sent out
  refine ⟨⟨?_, ?_, ?_⟩, ?_, ?_, fun hm => absurd hm hmidway⟩
  · rw [List.filterMap_append, h.begun, hturns, hbegun, hhand, hhand', List.append_nil,
      List.append_nil, List.filterMap_append]
    cases hj : t.job? with
    | none => simp [hj]
    | some j => simp [hj]
  · exact hturns ▸ hshape h.shape
  · rw [List.filterMap_append, hcommands, h.sent, hturns, hcfg, sentBy_concat, hpending,
      List.append_nil, List.append_assoc, hsent]
  · rw [hturns, hcfg, known_concat, hfw]
  · rw [hturns, hcfg, known_concat]
    exact hmounted

theorem Books.step (h : Books tr s) (hstep : s.step a = some (s', out)) :
    Books (tr ++ report s a s' out) s' := by
  cases a with
  | push j =>
      cases hstep
      exact h.quiet rfl (List.append_nil _) (List.append_nil _) id rfl rfl rfl h.midway
  | begin w =>
      obtain ⟨hw, hstep⟩ := Machine.ite_some hstep
      cases hstep
      obtain ⟨halike, -⟩ := begin_spec w s.ctl
      refine h.turn (.begin w) (by simp [inHand, hw, Turn.job?]) rfl ?_ rfl ?_ halike.cfg ?_ ?_ id
      · rw [MediaControl.begin_sends]
        simp [pending, hw, said, Turn.asks, Turn.world]
      · rw [hw]
        intro hnone
        exact ⟨w, [], by rw [hnone]; rfl, List.forall_mem_nil _⟩
      · rw [Turn.learn, h.fw]
        exact (MediaControl.begin_fw w s.ctl).symm
      · exact h.mounted.trans (by rw [← halike.url]; rfl)
  | take =>
      obtain ⟨hw, -, j, queue, -, rfl, rfl⟩ := take_cases hstep
      refine h.quiet rfl ?_ ?_ ?_ rfl rfl rfl False.elim
      · unfold inHand
        rw [hw]
        rfl
      · unfold pending
        rw [hw]
        rfl
      · rw [hw]
        exact id
  | insert w =>
      obtain ⟨iso, url, hw, hoffer, -, rfl, rfl⟩ := insert_cases hstep
      obtain ⟨hlic, -, server, host, -, -, -, -, halike⟩ := MediaControl.offer_spec hoffer
      refine h.quiet (outs_turn _) ?_ ?_ ?_ halike.cfg rfl halike.url fun _ => hlic
      · rw [inHand, hw]
        exact congrArg _ (outs_begun _)
      · rw [pending, hw]
        exact outs_sent _
      · rw [hw]
        exact id
  | finish w =>
      rcases finish_cases hstep with ⟨j, hw, rfl, rfl⟩ | ⟨iso, url, hw, hurl, htakes, rfl, rfl⟩
      · have hhand : s.inHand = [j] := by rw [inHand, hw]
        obtain ⟨-, -, hcfg⟩ := doJob_keeps w j s.ctl
        rw [report, hhand]
        refine h.turn (.job j w) hhand rfl ?_ rfl ?_ hcfg ?_ ?_ id
        · rw [MediaControl.doJob_sends h.fw]
          simp [pending, hw, Turn.world]
        · rw [hw]
          exact fun hbegun => hbegun.add trivial
        · rw [Turn.learn_job_fw, h.fw]
          exact (MediaControl.doJob_fw w j s.ctl).symm
        · exact MediaControl.doJob_learns h.fw h.mounted w j
      · have hhand : s.inHand = [.mount iso] := by rw [inHand, hw]
        obtain ⟨halike, hout⟩ := s.ctl.note_spec w iso url
        have hknown : (known s.ctl.cfg.httpPort (turns tr)).url s.ctl.cfg.httpPort w iso =
            some url := by
          rw [MediaControl.known_url h.fw (h.midway (hw ▸ trivial)), hurl]
        rw [report, hhand]
        refine h.turn (.job (.mount iso) w) hhand rfl ?_ rfl ?_ halike.cfg ?_ ?_ id
        · dsimp only [Turn.asks]
          rw [hknown, hout]
          simp [pending, hw, said, Turn.world, htakes, Out.isSent, List.filter_cons]
        · rw [hw]
          exact fun hbegun => hbegun.add trivial
        · rw [Turn.learn_job_fw, h.fw]
          exact (s.ctl.note_fw w iso url).symm
        · dsimp only [Turn.learn]
          rw [hknown, if_pos ⟨rfl, htakes⟩]
          exact iff_of_true rfl (ne_of_eq_of_ne halike.url (MediaControl.imageUrl_ne hurl))
  | poll w =>
      obtain ⟨⟨hw, -⟩, hstep⟩ := Machine.ite_some hstep
      cases hstep
      obtain ⟨halike, hout⟩ := s.ctl.readStatus_spec w
      refine h.turn (.poll w) (by simp [inHand, hw, Turn.job?]) rfl ?_ rfl ?_ halike.cfg ?_ ?_ id
      · rw [hout]
        simp [pending, hw, said, Turn.asks, Turn.world, Out.isSent, List.filter_cons]
      · rw [hw]
        exact fun hbegun => hbegun.add trivial
      · exact h.fw.trans (MediaControl.readStatus_fw w s.ctl).symm
      · exact h.mounted.trans (by rw [← halike.url]; rfl)
  | leave =>
      obtain ⟨⟨hw, -⟩, hstep⟩ := Machine.ite_some hstep
      cases hstep
      refine h.quiet rfl (by simp [inHand, hw, report, Event.begun?])
        (by simp [pending, hw, report, Event.sent?, Out.isSent]) ?_ rfl rfl rfl False.elim
      rw [hw]
      exact id
  | last w =>
      obtain ⟨hw, hstep⟩ := Machine.ite_some hstep
      cases hstep
      obtain ⟨-, hout⟩ := s.ctl.finish_spec w
      obtain ⟨-, -, hcfg, hurl⟩ := finish_keeps w s.ctl
      refine h.turn (.last w) (by simp [inHand, hw, Turn.job?]) rfl ?_ rfl ?_ hcfg ?_ ?_ id
      · rw [MediaControl.finish_sends h.mounted s.ctl.cfg.httpPort]
        simp [pending, hw, Turn.world]
      · rw [hw]
        exact fun hbegun => Or.inr ⟨_, w, hbegun, rfl⟩
      · exact h.fw.trans (MediaControl.finish_fw w s.ctl).symm
      · exact h.mounted.trans (by rw [← hurl]; rfl)
  | stop | join =>
      obtain ⟨-, hstep⟩ := Machine.ite_some hstep
      cases hstep
      exact h.quiet rfl (List.append_nil _) (List.append_nil _) id rfl rfl rfl h.midway

/-! ### The lives -/

/-- No step of a life begins another. -/
theorem report_isOpened (s : Panel) (a : Action) (s' : Panel) (out : List Out) :
    ∀ e ∈ report s a s' out, e.isOpened = false := by
  intro e he
  rcases List.mem_append.mp he with he | he
  · cases a with
    | take | finish w =>
        obtain ⟨j, -, rfl⟩ := List.mem_map.mp he
        rfl
    | push j | begin w | poll w | stop | last w =>
        rw [List.mem_singleton.mp he]
        rfl
    | insert w | leave | join => cases he
  · obtain ⟨o, -, rfl⟩ := List.mem_map.mp he
    rfl

theorem Books.start {cfg : Config} (hstart : s.start cfg = some s') : Books [] s' := by
  obtain ⟨-, hstart⟩ := Machine.ite_some hstart
  cases hstart
  exact ⟨⟨rfl, rfl, rfl⟩, rfl, iff_of_false Bool.false_ne_true (not_not.mpr rfl), nofun⟩

end Panel

end Ilo2.Media
