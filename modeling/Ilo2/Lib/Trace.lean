import Mathlib.Data.List.Basic
import Mathlib.Data.List.Induction

/-!
# Traces

A trace is a list of events, the newest last.

* `since` - the events after the last one of a kind.
* `latest` - what the newest event says that says anything.
-/

namespace Trace

variable {ε β : Type*}

/-- The events after the last one that `p` holds of. -/
def since (p : ε → Bool) (tr : List ε) : List ε :=
  tr.foldl (fun l e => if p e then [] else l ++ [e]) []

/-- What the newest event says of which `f` reads something. -/
def latest (f : ε → Option β) (tr : List ε) : Option β := tr.reverse.findSome? f

/-- What a view of a trace does not show. -/
theorem filterMap_map_none {α : Type*} {f : ε → Option β} {g : α → ε} (h : ∀ a, f (g a) = none)
    (l : List α) : (l.map g).filterMap f = [] := by
  rw [List.filterMap_map]
  exact List.filterMap_eq_nil_iff.mpr fun a _ => h a

/-- What it shows entirely. -/
theorem filterMap_map_some {f : ε → Option β} {g : β → ε} (h : ∀ b, f (g b) = some b)
    (l : List β) : (l.map g).filterMap f = l := by
  rw [List.filterMap_map, show f ∘ g = some from funext h, List.filterMap_some]

@[simp] theorem since_nil (p : ε → Bool) : since p [] = [] := rfl

theorem since_concat (p : ε → Bool) (tr : List ε) (e : ε) :
    since p (tr ++ [e]) = if p e then [] else since p tr ++ [e] := by
  unfold since
  rw [List.foldl_append]
  rfl

/-- Events of another kind. -/
theorem since_append {p : ε → Bool} {l : List ε} (h : ∀ e ∈ l, p e = false) (tr : List ε) :
    since p (tr ++ l) = since p tr ++ l := by
  induction l using List.reverseRecOn with
  | nil => rw [List.append_nil, List.append_nil]
  | append_singleton l e ih =>
      have he : p e = false := h e (List.mem_append_right _ (List.mem_singleton_self e))
      rw [← List.append_assoc, since_concat, he, if_neg Bool.false_ne_true,
        ih fun x hx => h x (List.mem_append_left _ hx), List.append_assoc]

/-- The newest event speaks, or the ones before it do. -/
theorem latest_concat (f : ε → Option β) (tr : List ε) (e : ε) :
    latest f (tr ++ [e]) = (f e).or (latest f tr) := by
  unfold latest
  rw [List.reverse_append, List.reverse_singleton, List.singleton_append, List.findSome?_cons]
  cases f e with
  | none => rfl
  | some b => rfl

/-- An event of a trace is the newest one, or one of those before it. -/
theorem split_concat {tr before after : List ε} {e x : ε} (h : tr ++ [e] = before ++ x :: after) :
    (tr = before ∧ e = x ∧ after = []) ∨ ∃ after', tr = before ++ x :: after' ∧
      after = after' ++ [e] := by
  rcases List.eq_nil_or_concat' after with rfl | ⟨after', y, rfl⟩
  · obtain ⟨rfl, hlast⟩ := List.append_inj' h rfl
    exact .inl ⟨rfl, (List.cons.inj hlast).1, rfl⟩
  · have hshift : tr ++ [e] = (before ++ x :: after') ++ [y] := by
      rw [h, List.append_assoc, List.cons_append]
    obtain ⟨rfl, hlast⟩ := List.append_inj' hshift rfl
    exact .inr ⟨after', rfl, by rw [(List.cons.inj hlast).1]⟩

/-- The last event of a kind, and those after it. -/
theorem since_split {p : ε → Bool} {before after : List ε} {e : ε} (he : p e = true)
    (hafter : ∀ x ∈ after, p x = false) : since p (before ++ e :: after) = after := by
  rw [List.append_cons, since_append hafter, since_concat, if_pos he, List.nil_append]

theorem latest_split {f : ε → Option β} {before after : List ε} {e : ε} {b : β}
    (he : f e = some b) (hafter : ∀ x ∈ after, f x = none) :
    latest f (before ++ e :: after) = some b := by
  induction after using List.reverseRecOn with
  | nil => rw [latest_concat, he, Option.some_or]
  | append_singleton after x ih =>
      have hx : f x = none := hafter x (List.mem_append_right _ (List.mem_singleton_self x))
      rw [← List.cons_append, ← List.append_assoc, latest_concat, hx, Option.none_or,
        ih fun x hx => hafter x (List.mem_append_left _ hx)]

end Trace
