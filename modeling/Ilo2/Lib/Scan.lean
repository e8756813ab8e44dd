import Mathlib.Tactic.Common
import Mathlib.Data.List.Basic
import Ilo2.Lib.Checked
import Ilo2.Lib.Text

/-!
# Scanning a text

Loops over a text, as programs that may fail: a read outside the text is a fault, and so is a
loop that does not end within its rounds.

* `loop_ok` - **the rule of loops**: an invariant, a measure that every round lowers, and what
  is known of the result.
* `skipWhile_ok`, `holds_ok` - the two ways to look at the characters from an index on;
  `skipWhile_span`, `holds_head` say the same of what stands there.
-/

namespace Scan

open Checked

universe u v

inductive Fault where
  | index (i : Nat)
  | rounds
deriving DecidableEq

/-! ### Loops -/

section Loop

variable {ε : Type u} {σ ρ : Type v}

/-- What a round leads to: another one, or the result. -/
inductive Round (σ ρ : Type v) where
  | next (s : σ)
  | done (r : ρ)

/-- The rounds of a loop, at most as many as the first number says. -/
def loop (fault : ε) (body : σ → Except ε (Round σ ρ)) : Nat → σ → Except ε ρ
  | 0, _ => .error fault
  | n + 1, s => do
      match ← body s with
      | .next s => loop fault body n s
      | .done r => .ok r

/-- A round from `s` that keeps `Inv` and lowers `measure`, or that ends as `Post` says. -/
inductive Round.Good (Inv : σ → Prop) (measure : σ → Nat) (Post : σ → ρ → Prop) (s : σ) :
    Round σ ρ → Prop
  | next {s' : σ} : Inv s' → measure s' < measure s → (∀ r, Post s' r → Post s r) →
      Good Inv measure Post s (.next s')
  | done {r : ρ} : Post s r → Good Inv measure Post s (.done r)

/-- **The rule of loops.** -/
theorem loop_ok (fault : ε) {body : σ → Except ε (Round σ ρ)} (Inv : σ → Prop)
    (measure : σ → Nat) (Post : σ → ρ → Prop)
    (hround : ∀ s, Inv s → ∃ t, body s = .ok t ∧ Round.Good Inv measure Post s t) :
    ∀ (n : Nat) {s : σ}, Inv s → measure s < n → ∃ r, loop fault body n s = .ok r ∧ Post s r := by
  intro n
  induction n with
  | zero => intro s _ hn; exact absurd hn (Nat.not_lt_zero _)
  | succ n ih =>
      intro s hs hn
      obtain ⟨t, hbody, hgood⟩ := hround s hs
      cases hgood with
      | next hs' hlt hpost =>
          obtain ⟨r, hloop, hr⟩ := ih hs' (by omega)
          exact ⟨r, by rw [loop, hbody, ok_bind]; exact hloop, hpost r hr⟩
      | done hr => exact ⟨_, by rw [loop, hbody, ok_bind], hr⟩

end Loop

/-! ### Characters -/

variable {α : Type}

/-- `s[i]`. -/
def charAt (s : List α) (i : Nat) : Except Fault α :=
  match s[i]? with
  | some c => .ok c
  | none => .error (.index i)

/-- `i < stop && f(s[i])`. -/
def holds (f : α → Bool) (s : List α) (stop i : Nat) : Except Fault Bool :=
  if i < stop then do
    let c ← charAt s i
    .ok (f c)
  else .ok false

def skipRound (f : α → Bool) (s : List α) (stop i : Nat) : Except Fault (Round Nat Nat) := do
  let go ← holds f s stop i
  if go then .ok (.next (i + 1)) else .ok (.done i)

/-- `while (i < stop && f(s[i])) ++i`. -/
def skipWhile (f : α → Bool) (s : List α) (stop rounds i : Nat) : Except Fault Nat :=
  loop .rounds (skipRound f s stop) rounds i

/-- `s.substr(i, n)`. -/
def substr (s : List α) (i n : Nat) : Except Fault (List α) :=
  if i ≤ s.length then .ok ((s.drop i).take n) else .error (.index i)

/-- The first index from `i` on, and before `stop`, at which `f` does not hold. -/
def skip (f : α → Bool) (s : List α) (stop i : Nat) : Nat :=
  i + (((s.take stop).drop i).takeWhile f).length

variable {f : α → Bool} {s : List α} {stop rounds i : Nat}

theorem charAt_of_lt (h : i < s.length) : charAt s i = .ok s[i] := by
  rw [charAt, List.getElem?_eq_getElem h]

theorem holds_ok (hstop : stop ≤ s.length) (i : Nat) :
    holds f s stop i = .ok (((s.take stop)[i]?).any f) := by
  rw [holds, List.getElem?_take]
  by_cases hi : i < stop
  · rw [if_pos hi, if_pos hi, charAt_of_lt (by omega), ok_bind,
      List.getElem?_eq_getElem (by omega), Option.any_some]
  · rw [if_neg hi, if_neg hi, Option.any_none]

theorem skip_next (h : ((s.take stop)[i]?).any f = true) :
    i < stop ∧ skip f s stop i = skip f s stop (i + 1) := by
  rcases hc : (s.take stop)[i]? with _ | c
  · rw [hc] at h
    cases h
  · rw [hc, Option.any_some] at h
    obtain ⟨hi, rfl⟩ := List.getElem?_eq_some_iff.mp hc
    constructor
    · rw [List.length_take] at hi
      omega
    · rw [skip, skip, List.drop_eq_getElem_cons hi, List.takeWhile_cons_of_pos h,
        List.length_cons]
      omega

theorem skip_stop (h : ((s.take stop)[i]?).any f = false) : skip f s stop i = i := by
  rw [skip]
  rcases hc : (s.take stop)[i]? with _ | c
  · rw [List.drop_eq_nil_of_le (List.getElem?_eq_none_iff.mp hc)]
    rfl
  · rw [hc, Option.any_some] at h
    obtain ⟨hi, rfl⟩ := List.getElem?_eq_some_iff.mp hc
    rw [List.drop_eq_getElem_cons hi, List.takeWhile_cons_of_neg (by rw [h]; decide)]
    rfl

theorem skipRound_good (hstop : stop ≤ s.length) (i : Nat) :
    ∃ t, skipRound f s stop i = .ok t ∧ Round.Good (fun _ => True) (fun i => stop - i)
      (fun i j => skip f s stop i = j) i t := by
  rw [skipRound, holds_ok hstop, ok_bind]
  cases hc : ((s.take stop)[i]?).any f with
  | true =>
      obtain ⟨hi, hskip⟩ := skip_next hc
      exact ⟨_, if_pos rfl, .next trivial (by omega) fun j hj => hskip.trans hj⟩
  | false => exact ⟨_, if_neg Bool.false_ne_true, .done (skip_stop hc)⟩

theorem skipWhile_ok (hstop : stop ≤ s.length) (hrounds : stop - i < rounds) :
    skipWhile f s stop rounds i = .ok (skip f s stop i) := by
  obtain ⟨j, hloop, hj⟩ := loop_ok Fault.rounds _ _ _
    (fun i _ => skipRound_good (f := f) hstop i) rounds trivial hrounds
  rw [skipWhile, hj]
  exact hloop

/-! ### Up to the end -/

variable {b r : List α}

theorem skipWhile_span (hrounds : s.length < rounds) (h : s.drop i = b ++ r)
    (hb : ∀ c ∈ b, f c = true) (hr : ∀ c ∈ r.head?, f c = false) :
    skipWhile f s s.length rounds i = .ok (i + b.length) ∧ s.drop (i + b.length) = r := by
  constructor
  · rw [skipWhile_ok (Nat.le_refl _) (by omega), skip, List.take_length, h, Text.takeWhile_left hb hr]
  · rw [← List.drop_drop, h, List.drop_left]

theorem holds_head (f : α → Bool) (h : s.drop i = r) : holds f s s.length i = .ok (r.head?.any f) := by
  rw [holds_ok (Nat.le_refl _), List.take_length, ← h, List.head?_drop]

end Scan
