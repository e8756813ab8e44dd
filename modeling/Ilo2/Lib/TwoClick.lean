import Ilo2.Lib.Machine
import Mathlib.Data.List.Basic

/-!
# Two clicks

Buttons that take two clicks: the first arms the button, the second, if it is the same button
and not too late, confirms.  Several buttons share one `Arm`; a click on another of them arms
that one instead.

`next` is a monitor for the clicks.  It knows the button that is armed, and since when.

* `buttons_follow` - **a row of different buttons follows the monitor**.
* `armed_of_confirmed` - a confirmation comes directly after the arming of the same button.
-/

namespace TwoClick

universe u

/-- `what` and `since` mean something only while `armed` is set. -/
structure Arm (β : Type u) where
  armed : Bool := false
  what : β
  since : UInt64 := 0
deriving DecidableEq

inductive Event (β : Type u) where
  | armed (b : β) (t : UInt64)
  | disarmed
  | confirmed (b : β) (now : UInt64)
  /-- The buttons now act on something else. -/
  | renewed
deriving DecidableEq

/-- What is confirmed. -/
def Event.confirmed? {β : Type u} : Event β → Option β
  | .confirmed b _ => some b
  | _ => none

def confirmed {β : Type u} (tr : List (Event β)) : List β := tr.filterMap Event.confirmed?

variable {β : Type u} [DecidableEq β]

namespace Arm

/-- The test for an arm that is too old. -/
def expire (timeout now : UInt64) (s : Arm β) : Arm β × List (Event β) :=
  if s.armed = true ∧ now - s.since > timeout then ({ s with armed := false }, [.disarmed])
  else (s, [])

/-- A button: `click` is the time of a click.  `now` is the time of the last test. -/
def button (now : UInt64) (b : β) (click : Option UInt64) (s : Arm β) : Arm β × List (Event β) :=
  match click with
  | none => (s, [])
  | some t =>
      if s.armed = true ∧ s.what = b then ({ s with armed := false }, [.confirmed b now])
      else (⟨true, b, t⟩, [.armed b t])

/-- One button after the other. -/
def buttons (now : UInt64) : List (β × Option UInt64) → Arm β → Arm β × List (Event β)
  | [], s => (s, [])
  | (b, click) :: bs, s =>
      let (s, out) := s.button now b click
      let (s, out') := buttons now bs s
      (s, out ++ out')

/-- The button that withdraws the arm, which is there only if there is one. -/
def cancel (click : Bool) (s : Arm β) : Arm β × List (Event β) :=
  if s.armed = true ∧ click = true then ({ s with armed := false }, [.disarmed]) else (s, [])

/-- What the monitor knows. -/
def pending (s : Arm β) : Option (β × UInt64) := if s.armed then some (s.what, s.since) else none

end Arm

/-- A confirmation needs an arm that is not too old; renewal needs that there is none. -/
def next (timeout : UInt64) (p : Option (β × UInt64)) : Event β → Option (Option (β × UInt64))
  | .armed b t => some (some (b, t))
  | .disarmed => some none
  | .confirmed b now =>
      match p with
      | some (b', t) => if b' = b ∧ now - t ≤ timeout then some none else none
      | none => none
  | .renewed => if p = none then some none else none

variable {timeout now : UInt64} {s : Arm β}

omit [DecidableEq β] in
theorem confirmed_append (tr tr' : List (Event β)) :
    confirmed (tr ++ tr') = confirmed tr ++ confirmed tr' := List.filterMap_append

omit [DecidableEq β] in
theorem confirmed_expire (timeout now : UInt64) (s : Arm β) :
    confirmed (s.expire timeout now).2 = [] := by
  unfold Arm.expire
  split <;> rfl

omit [DecidableEq β] in
theorem confirmed_cancel (click : Bool) (s : Arm β) : confirmed (s.cancel click).2 = [] := by
  unfold Arm.cancel
  split <;> rfl

/-- Only a button of the row is confirmed. -/
theorem mem_of_confirmed {bs : List (β × Option UInt64)} {b : β}
    (h : b ∈ confirmed (s.buttons now bs).2) : b ∈ bs.map Prod.fst := by
  induction bs generalizing s with
  | nil => cases h
  | cons head bs ih =>
      obtain ⟨b', click⟩ := head
      unfold Arm.buttons at h
      dsimp only at h
      rw [confirmed_append, List.mem_append] at h
      rcases h with h | h
      · refine List.mem_cons.mpr (Or.inl ?_)
        unfold Arm.button at h
        cases click with
        | none => cases h
        | some t =>
            dsimp only at h
            by_cases hsame : s.armed = true ∧ s.what = b'
            · rw [if_pos hsame] at h
              exact List.mem_singleton.mp h
            · rw [if_neg hsame] at h
              cases h
      · exact List.mem_cons_of_mem _ (ih h)

theorem expire_follows (timeout now : UInt64) (s : Arm β) :
    (s.expire timeout now).2.foldlM (next timeout) s.pending =
      some (s.expire timeout now).1.pending := by
  unfold Arm.expire
  split
  · rfl
  · rfl

omit [DecidableEq β] in
/-- After the test an arm is not too old. -/
theorem expire_fresh (timeout now : UInt64) (s : Arm β)
    (h : (s.expire timeout now).1.armed = true) :
    now - (s.expire timeout now).1.since ≤ timeout := by
  unfold Arm.expire at h ⊢
  split at h
  · cases h
  · rename_i hnot
    rw [if_neg hnot]
    exact UInt64.not_lt.mp fun hlt => hnot ⟨h, hlt⟩

theorem cancel_follows (click : Bool) (s : Arm β) :
    (s.cancel click).2.foldlM (next timeout) s.pending = some (s.cancel click).1.pending := by
  unfold Arm.cancel
  split
  · rfl
  · rfl

/-- **A row of different buttons** follows the monitor, if the arm is not too old, or is that of
a button that is not in the row: one that was armed just now, further up. -/
theorem buttons_follow {bs : List (β × Option UInt64)} (hnodup : (bs.map Prod.fst).Nodup)
    (hfresh : s.armed = true → now - s.since ≤ timeout ∨ s.what ∉ bs.map Prod.fst) :
    (s.buttons now bs).2.foldlM (next timeout) s.pending =
      some (s.buttons now bs).1.pending := by
  induction bs generalizing s with
  | nil => rfl
  | cons head bs ih =>
      obtain ⟨b, click⟩ := head
      rw [List.map_cons, List.nodup_cons] at hnodup
      obtain ⟨hb, hnodup⟩ := hnodup
      unfold Arm.buttons
      dsimp only
      rw [List.foldlM_append]
      unfold Arm.button
      cases click with
      | none =>
          refine ih hnodup fun harmed => ?_
          rcases hfresh harmed with hold | hnot
          · exact Or.inl hold
          · exact Or.inr fun hmem => hnot (List.mem_cons_of_mem _ hmem)
      | some t =>
          dsimp only
          by_cases hsame : s.armed = true ∧ s.what = b
          · rw [if_pos hsame]
            obtain ⟨harmed, rfl⟩ := hsame
            have hold : now - s.since ≤ timeout :=
              (hfresh harmed).resolve_right fun hnot => hnot List.mem_cons_self
            have hnext : next timeout s.pending (.confirmed s.what now) = some none := by
              unfold Arm.pending next
              rw [harmed]
              exact if_pos ⟨rfl, hold⟩
            dsimp only
            rw [List.foldlM_cons, hnext]
            exact ih (s := { s with armed := false }) hnodup nofun
          · rw [if_neg hsame]
            exact ih (s := ⟨true, b, t⟩) hnodup fun _ => Or.inr hb

/-- **A confirmation comes directly after the arming** of the same button, in time. -/
theorem armed_of_confirmed {tr : List (Event β)} {p : Option (β × UInt64)}
    (h : tr.foldlM (next timeout) none = some p) {before after : List (Event β)} {b : β}
    (htr : tr = before ++ .confirmed b now :: after) :
    ∃ before' t, before = before' ++ [.armed b t] ∧ now - t ≤ timeout := by
  subst htr
  rw [List.foldlM_append] at h
  obtain ⟨p₁, hbefore, h⟩ := Option.bind_eq_some_iff.mp h
  rw [List.foldlM_cons] at h
  obtain ⟨p₂, hnext, -⟩ := Option.bind_eq_some_iff.mp h
  have hp₁ : ∃ t, p₁ = some (b, t) ∧ now - t ≤ timeout := by
    unfold next at hnext
    cases p₁ with
    | none => cases hnext
    | some q =>
        obtain ⟨b', t⟩ := q
        obtain ⟨⟨rfl, ht⟩, -⟩ := Machine.ite_some hnext
        exact ⟨t, rfl, ht⟩
  obtain ⟨t, rfl, ht⟩ := hp₁
  -- the last event before is the one that armed
  rcases List.eq_nil_or_concat' before with rfl | ⟨before', e, rfl⟩
  · cases hbefore
  · rw [List.foldlM_append] at hbefore
    obtain ⟨p₀, -, hlast⟩ := Option.bind_eq_some_iff.mp hbefore
    rw [List.foldlM_cons] at hlast
    obtain ⟨p', hlast, hp'⟩ := Option.bind_eq_some_iff.mp hlast
    cases hp'
    refine ⟨before', t, ?_, ht⟩
    cases e with
    | armed b' t' =>
        cases hlast
        rfl
    | disarmed => cases hlast
    | confirmed b' now' =>
        unfold next at hlast
        cases p₀ with
        | none => cases hlast
        | some q =>
            obtain ⟨-, hq⟩ := Machine.ite_some hlast
            cases hq
    | renewed =>
        obtain ⟨-, hq⟩ := Machine.ite_some hlast
        cases hq

end TwoClick
