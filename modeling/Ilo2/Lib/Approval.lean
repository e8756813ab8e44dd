import Ilo2.Lib.JobQueue
import Ilo2.Lib.TwoClick

/-!
# Jobs that need two clicks

A log in which some events are those of a queue of jobs, and some are those of buttons that take
two clicks.  A job of a certain kind is asked for only after a button was confirmed.  Whoever
opens the queue has nothing armed.

* `Account.append`, `Account.opened` - how the account of a log is kept.
* `Account.begun_prefix` - **a job of that kind that begins was confirmed**, once for each time.
-/

namespace Approval

open JobQueue (State)

universe u

variable {ε : Type*} {α : Type*} {β : Type u} [DecidableEq α] [DecidableEq β]

/-- What is read off a log: the events of the queue and the clicks; the job that a button is
for; and whether a job is of the kind that needs it. -/
structure View (ε : Type*) (α : Type*) (β : Type u) where
  job : ε → Option (JobQueue.Event α)
  click : ε → Option (TwoClick.Event β)
  of : β → α
  needs : α → Bool
  timeout : UInt64

namespace View

variable (v : View ε α β)

/-- The events since the queue was last opened. -/
def life (log : List ε) : List ε := Trace.since (fun e => v.job e = some .opened) log

/-- The jobs that were confirmed. -/
def confirmed (log : List ε) : List α := (TwoClick.confirmed (log.filterMap v.click)).map v.of

/-- The jobs of the kind that were asked for. -/
def asked (log : List ε) : List α := (JobQueue.asked (log.filterMap v.job)).filter v.needs

/-- The jobs of the kind that have begun. -/
def begun (log : List ε) : List α := (JobQueue.begun (log.filterMap v.job)).filter v.needs

end View

variable {v : View ε α β} {log out : List ε} {q q' : State α} {arm arm' : Option (β × UInt64)}
  {pending pending' : List α} {jobs : List (JobQueue.Event α)} {clicks : List (TwoClick.Event β)}

omit [DecidableEq β] in
theorem life_concat (log : List ε) (e : ε) :
    v.life (log ++ [e]) = if v.job e = some .opened then [] else v.life log ++ [e] := by
  unfold View.life
  rw [Trace.since_concat]
  simp only [decide_eq_true_eq]

omit [DecidableEq β] in
theorem life_append (hout : .opened ∉ out.filterMap v.job) :
    v.life (log ++ out) = v.life log ++ out := by
  induction out generalizing log with
  | nil => rw [List.append_nil, List.append_nil]
  | cons e out ih =>
      have he : v.job e ≠ some .opened := fun he =>
        hout (List.mem_filterMap.mpr ⟨e, List.mem_cons_self, he⟩)
      have hout : .opened ∉ out.filterMap v.job := fun hmem => by
        obtain ⟨e', he', hjob⟩ := List.mem_filterMap.mp hmem
        exact hout (List.mem_filterMap.mpr ⟨e', List.mem_cons_of_mem _ he', hjob⟩)
      rw [List.append_cons, ih hout, life_concat, if_neg he, ← List.append_cons]

omit [DecidableEq β] in
/-- The view of a life is the life of the queue. -/
theorem filterMap_life (log : List ε) :
    (v.life log).filterMap v.job = JobQueue.life (log.filterMap v.job) := by
  induction log using List.reverseRecOn with
  | nil => rfl
  | append_singleton log e ih =>
      rw [life_concat, List.filterMap_append]
      cases hview : v.job e with
      | none =>
          rw [if_neg nofun, List.filterMap_append, ih]
          simp [hview]
      | some e' =>
          rw [List.filterMap_cons_some hview, List.filterMap_nil, JobQueue.life_concat]
          by_cases he : e' = .opened
          · rw [if_pos he, if_pos (congrArg some he)]
            rfl
          · rw [if_neg he, if_neg fun h => he (Option.some.inj h), List.filterMap_append, ih,
              List.filterMap_cons_some hview, List.filterMap_nil]

/-- The account of a log: the queue and the buttons follow it, and in the last life those jobs
were asked for that were confirmed, in that order, but for those that are `pending`. -/
structure Account (v : View ε α β) (log : List ε) (q : State α) (arm : Option (β × UInt64))
    (pending : List α) : Prop where
  queue : (log.filterMap v.job).foldlM State.next {} = some q
  clicks : (log.filterMap v.click).foldlM (TwoClick.next v.timeout) none = some arm
  asked : v.confirmed (v.life log) = v.asked (v.life log) ++ pending

theorem Account.start : Account v [] {} none [] := ⟨rfl, rfl, rfl⟩

/-- Events that do not open the queue: what they confirm becomes pending, and what they ask for
is pending no longer. -/
theorem Account.append (h : Account v log q arm pending) (hjobs : out.filterMap v.job = jobs)
    (hclicks : out.filterMap v.click = clicks) (hopened : .opened ∉ jobs)
    (hq : jobs.foldlM State.next q = some q')
    (harm : clicks.foldlM (TwoClick.next v.timeout) arm = some arm')
    (hpending : pending ++ (TwoClick.confirmed clicks).map v.of =
      (JobQueue.asked jobs).filter v.needs ++ pending') :
    Account v (log ++ out) q' arm' pending' := by
  subst hjobs hclicks
  refine ⟨?_, ?_, ?_⟩
  · rw [List.filterMap_append, List.foldlM_append, h.queue]
    exact hq
  · rw [List.filterMap_append, List.foldlM_append, h.clicks]
    exact harm
  · have hasked : v.asked (v.life log ++ out) = v.asked (v.life log) ++ v.asked out := by
      simp [View.asked, JobQueue.asked]
    have hconfirmed :
        v.confirmed (v.life log ++ out) = v.confirmed (v.life log) ++ v.confirmed out := by
      simp [View.confirmed, TwoClick.confirmed]
    rw [life_append hopened, hasked, hconfirmed, h.asked, List.append_assoc, List.append_assoc]
    exact congrArg _ hpending

/-- The queue is opened while nothing is armed. -/
theorem Account.opened {e e' : ε} (h : Account v log q arm pending) (harm : arm = none)
    (hjob : v.job e = some .opened) (hclick : v.click e = none) (hjob' : v.job e' = none)
    (hclick' : v.click e' = some .renewed) :
    Account v (log ++ [e, e']) ⟨true, []⟩ none [] := by
  have hjobs : [e, e'].filterMap v.job = [.opened] := by simp [hjob, hjob']
  have hclicks : [e, e'].filterMap v.click = [.renewed] := by simp [hclick, hclick']
  refine ⟨?_, ?_, ?_⟩
  · rw [List.filterMap_append, List.foldlM_append, h.queue, hjobs]
    rfl
  · rw [List.filterMap_append, List.foldlM_append, h.clicks, hclicks, harm]
    rfl
  · rw [List.append_cons, life_concat, life_concat, if_pos hjob, hjob', if_neg nofun]
    simp [View.confirmed, View.asked, TwoClick.confirmed, TwoClick.Event.confirmed?, JobQueue.asked,
      hjob', hclick']

/-- **What has begun was confirmed**, in that order. -/
theorem Account.begun_prefix (h : Account v log q arm pending) :
    v.begun (v.life log) <+: v.confirmed (v.life log) := by
  have hasked : v.asked (v.life log) = v.begun (v.life log) ++ q.waiting.filter v.needs := by
    unfold View.asked View.begun
    rw [filterMap_life, JobQueue.asked_eq rfl h.queue, List.filter_append]
  rw [h.asked, hasked, List.append_assoc]
  exact List.prefix_append _ _

/-- A confirmation comes directly after the arming. -/
theorem Account.armed (h : Account v log q arm pending) {before after : List (TwoClick.Event β)}
    {b : β} {now : UInt64} (hclicks : log.filterMap v.click = before ++ .confirmed b now :: after) :
    ∃ before' t, before = before' ++ [.armed b t] ∧ now - t ≤ v.timeout :=
  TwoClick.armed_of_confirmed h.clicks hclicks

end Approval
