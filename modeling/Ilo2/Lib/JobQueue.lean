import Ilo2.Lib.Machine
import Ilo2.Lib.Trace
import Mathlib.Data.List.Basic

/-!
# Queues of jobs

A first-in first-out queue as it is seen from outside.  Anyone asks for a job; one worker
begins them.  The queue is opened, which empties it, and closed, which keeps what it holds but
begins nothing more.

`State.next` is a monitor for the events.  `life` is what has happened since the last opening.

* `asked_eq` - **what was asked for has begun, in that order, or is still waiting**.
* `isOpen_of_begun` - nothing begins while the queue is closed.
-/

namespace JobQueue

inductive Event (α : Type*) where
  | opened
  | closed
  | asked (j : α)
  | begun (j : α)
deriving DecidableEq

structure State (α : Type*) where
  isOpen : Bool := false
  waiting : List α := []
deriving DecidableEq

variable {α : Type*} [DecidableEq α]

/-- A job begins if the queue is open and the job is the first. -/
def State.next (q : State α) : Event α → Option (State α)
  | .opened => some ⟨true, []⟩
  | .closed => some { q with isOpen := false }
  | .asked j => some { q with waiting := q.waiting ++ [j] }
  | .begun j =>
      if q.isOpen = true ∧ q.waiting.head? = some j then
        some { q with waiting := q.waiting.tail }
      else none

/-- The events after the last opening. -/
def life (tr : List (Event α)) : List (Event α) := Trace.since (· = .opened) tr

def asked (tr : List (Event α)) : List α :=
  tr.filterMap fun
    | .asked j => some j
    | _ => none

def begun (tr : List (Event α)) : List α :=
  tr.filterMap fun
    | .begun j => some j
    | _ => none

/-- Whether a queue that was open or not is open after the events. -/
def isOpen (before : Bool) (tr : List (Event α)) : Bool :=
  tr.foldl (fun b e => if e = .opened then true else if e = .closed then false else b) before

variable {q q₀ : State α} {tr : List (Event α)}

theorem life_concat (tr : List (Event α)) (e : Event α) :
    life (tr ++ [e]) = if e = .opened then [] else life tr ++ [e] := by
  unfold life
  rw [Trace.since_concat]
  simp only [decide_eq_true_eq]

theorem isOpen_concat (b : Bool) (tr : List (Event α)) (e : Event α) :
    isOpen b (tr ++ [e]) =
      if e = .opened then true else if e = .closed then false else isOpen b tr := by
  unfold isOpen
  rw [List.foldl_append]
  rfl

/-- The last event of an accepted trace was possible. -/
theorem accepted_concat {e : Event α} :
    (tr ++ [e]).foldlM State.next q₀ = some q ↔
      ∃ q₁, tr.foldlM State.next q₀ = some q₁ ∧ q₁.next e = some q := by
  rw [List.foldlM_append]
  simp [Option.bind_eq_some_iff]

/-- **First in, first out.**  What was asked for since the last opening has begun, in that
order, or is waiting. -/
theorem asked_eq (h₀ : q₀.waiting = []) (h : tr.foldlM State.next q₀ = some q) :
    asked (life tr) = begun (life tr) ++ q.waiting := by
  induction tr using List.reverseRecOn generalizing q with
  | nil =>
      cases h
      exact h₀.symm
  | append_singleton tr e ih =>
      obtain ⟨q₁, htr, hnext⟩ := accepted_concat.mp h
      have ih := ih htr
      rw [life_concat]
      cases e with
      | opened =>
          cases hnext
          rfl
      | closed =>
          cases hnext
          simpa [asked, begun] using ih
      | asked j =>
          cases hnext
          simp only [asked, begun] at ih ⊢
          simp [ih]
      | begun j =>
          obtain ⟨⟨-, hhead⟩, hq⟩ := Machine.ite_some hnext
          subst hq
          have hwaiting : q₁.waiting = j :: q₁.waiting.tail := List.eq_cons_of_mem_head? hhead
          rw [hwaiting] at ih
          simp only [asked, begun] at ih ⊢
          simp [ih]

theorem isOpen_eq (h : tr.foldlM State.next q₀ = some q) : q.isOpen = isOpen q₀.isOpen tr := by
  induction tr using List.reverseRecOn generalizing q with
  | nil =>
      cases h
      rfl
  | append_singleton tr e ih =>
      obtain ⟨q₁, htr, hnext⟩ := accepted_concat.mp h
      have ih := ih htr
      rw [isOpen_concat]
      cases e with
      | opened | closed | asked j =>
          cases hnext
          first
            | rfl
            | exact ih
      | begun j =>
          obtain ⟨-, hq⟩ := Machine.ite_some hnext
          subst hq
          exact ih

/-- **Nothing begins while the queue is closed.** -/
theorem isOpen_of_begun (h : tr.foldlM State.next q₀ = some q) {before after : List (Event α)}
    {j : α} (htr : tr = before ++ .begun j :: after) : isOpen q₀.isOpen before = true := by
  subst htr
  rw [List.foldlM_append] at h
  obtain ⟨q₁, hbefore, h⟩ := Option.bind_eq_some_iff.mp h
  rw [List.foldlM_cons] at h
  obtain ⟨q₂, hnext, -⟩ := Option.bind_eq_some_iff.mp h
  obtain ⟨⟨hopen, -⟩, -⟩ := Machine.ite_some hnext
  rw [← isOpen_eq hbefore]
  exact hopen

end JobQueue
