import Mathlib.Tactic.Common
import Mathlib.Data.List.Basic

/-!
# Searching a text

A text is a list.  `find p s` is the first index at which `p` stands in `s`, and
`findFrom p s pos` the first such index from `pos` on.

* `find_eq_some` - what a search returns.
* `find_append` - what is found in a text is found at the same place in every longer text;
  `find_of_append` is the converse, as far as the text goes.
* `stands_concat` - what one character more completes.
-/

namespace Text

variable {α : Type*} [DecidableEq α]

/-- The first index at which `p` stands. -/
def find (p : List α) : List α → Option Nat
  | [] => if p = [] then some 0 else none
  | c :: s => if p <+: c :: s then some 0 else (find p s).map (· + 1)

def findFrom (p s : List α) (pos : Nat) : Option Nat := (find p (s.drop pos)).map (pos + ·)

/-- `p` stands in `s` at index `i`. -/
def Stands (p s : List α) (i : Nat) : Prop := p <+: s.drop i

variable {p s t : List α} {i j pos : Nat}

omit [DecidableEq α] in
theorem Stands.append (h : Stands p s i) (hi : i ≤ s.length) : Stands p (s ++ t) i := by
  unfold Stands at *
  rw [List.drop_append_of_le_length hi]
  exact h.trans (List.prefix_append _ _)

omit [DecidableEq α] in
theorem Stands.of_append (h : Stands p (s ++ t) i) (hi : i + p.length ≤ s.length) :
    Stands p s i := by
  unfold Stands at *
  rw [List.drop_append_of_le_length (by omega)] at h
  exact List.prefix_of_prefix_length_le h (List.prefix_append _ _) (by rw [List.length_drop]; omega)

omit [DecidableEq α] in
theorem Stands.le (h : Stands p s i) (hp : p ≠ []) : i + p.length ≤ s.length := by
  have hle := h.length_le
  rw [List.length_drop] at hle
  have := List.length_pos_iff.mpr hp
  omega

theorem find_eq_none (hp : p ≠ []) : find p s = none ↔ ∀ i, ¬ Stands p s i := by
  induction s with
  | nil => simp [find, Stands, hp]
  | cons c s ih =>
      rw [find]
      split
      · rename_i h
        simp only [reduceCtorEq, false_iff, not_forall, not_not]
        exact ⟨0, h⟩
      · rename_i h
        rw [Option.map_eq_none_iff, ih]
        constructor
        · intro hs i
          cases i with
          | zero => exact h
          | succ i => exact hs i
        · intro hs i
          exact hs (i + 1)

/-- **The first place**: `p` stands there, and nowhere before. -/
theorem find_eq_some (hp : p ≠ []) :
    find p s = some i ↔ Stands p s i ∧ ∀ j < i, ¬ Stands p s j := by
  induction s generalizing i with
  | nil => simp [find, Stands, hp]
  | cons c s ih =>
      rw [find]
      split
      · rename_i h
        constructor
        · intro h0
          cases h0
          exact ⟨h, fun j hj => absurd hj (Nat.not_lt_zero j)⟩
        · intro ⟨_, hi⟩
          cases i with
          | zero => rfl
          | succ i => exact absurd h (hi 0 (Nat.succ_pos i))
      · rename_i h
        cases i with
        | zero =>
            constructor
            · intro h0
              cases hf : find p s <;> simp [hf] at h0
            · intro ⟨h0, _⟩
              exact absurd h0 h
        | succ i =>
            rw [Option.map_eq_some_iff]
            simp only [Nat.succ.injEq, exists_eq_right]
            rw [ih]
            constructor
            · intro ⟨hs, hbefore⟩
              refine ⟨hs, fun j hj => ?_⟩
              cases j with
              | zero => exact h
              | succ j => exact hbefore j (Nat.lt_of_succ_lt_succ hj)
            · intro ⟨hs, hbefore⟩
              exact ⟨hs, fun j hj => hbefore (j + 1) (Nat.succ_lt_succ hj)⟩

theorem find_stands (hp : p ≠ []) (h : find p s = some i) : Stands p s i :=
  ((find_eq_some hp).mp h).1

theorem find_le (hp : p ≠ []) (h : find p s = some i) : i + p.length ≤ s.length :=
  (find_stands hp h).le hp

/-- Text that follows does not change where `p` is found. -/
theorem find_append (hp : p ≠ []) (h : find p s = some i) (t : List α) :
    find p (s ++ t) = some i := by
  have hle := find_le hp h
  obtain ⟨hs, hbefore⟩ := (find_eq_some hp).mp h
  refine (find_eq_some hp).mpr ⟨hs.append (by omega), fun j hj hst => ?_⟩
  exact hbefore j hj (hst.of_append (by omega))

/-- Nor does text that is taken away, if it stood behind `p`. -/
theorem find_of_append (hp : p ≠ []) (h : find p (s ++ t) = some i)
    (hi : i + p.length ≤ s.length) : find p s = some i := by
  obtain ⟨hs, hbefore⟩ := (find_eq_some hp).mp h
  refine (find_eq_some hp).mpr ⟨hs.of_append hi, fun j hj hst => ?_⟩
  exact hbefore j hj (hst.append (by omega))

theorem find_of_prefix (h : p <+: s) : find p s = some 0 := by
  cases s with
  | nil => rw [find, if_pos (List.prefix_nil.mp h)]
  | cons c s => rw [find, if_pos h]

/-- One character: the first of its kind. -/
theorem find_singleton {c : α} (h : c ∉ s) (t : List α) :
    find [c] (s ++ c :: t) = some s.length := by
  induction s with
  | nil => exact find_of_prefix ⟨t, rfl⟩
  | cons d s ih =>
      rw [List.mem_cons, not_or] at h
      rw [List.cons_append, find, if_neg, ih h.2]
      · rfl
      · rintro ⟨u, hu⟩
        exact h.1 (List.cons.inj hu).1

/-- A text without the character is passed over. -/
theorem find_singleton_append {c : α} (h : c ∉ s) (t : List α) :
    find [c] (s ++ t) = (find [c] t).map (s.length + ·) := by
  induction s with
  | nil =>
      have hid : ((([] : List α).length + ·) : Nat → Nat) = id := funext Nat.zero_add
      rw [List.nil_append, hid, Option.map_id, id]
  | cons d s ih =>
      rw [List.mem_cons, not_or] at h
      rw [List.cons_append, find, if_neg, ih h.2, Option.map_map]
      · congr 1
        funext k
        rw [Function.comp_apply, List.length_cons]
        omega
      · rintro ⟨u, hu⟩
        exact h.1 (List.cons.inj hu).1

theorem find_singleton_none {c : α} (h : c ∉ s) : find [c] s = none := by
  rw [find_eq_none (List.cons_ne_nil c [])]
  rintro i ⟨t, ht⟩
  have hmem : c ∈ s.drop i := by
    rw [← ht]
    exact List.mem_cons_self
  exact h (List.mem_of_mem_drop hmem)

/-- A text without the character, or the part before its first place and the part behind. -/
theorem find_singleton_cases (c : α) (s : List α) :
    (c ∉ s ∧ find [c] s = none) ∨ ∃ t u, s = t ++ c :: u ∧ c ∉ t ∧ find [c] s = some t.length := by
  by_cases h : c ∈ s
  · obtain ⟨t, u, rfl, ht⟩ := List.eq_append_cons_of_mem h
    exact Or.inr ⟨t, u, rfl, ht, find_singleton ht u⟩
  · exact Or.inl ⟨h, find_singleton_none h⟩

omit [DecidableEq α] in
/-- **Lines**: the last one, or one that `c` ends and the text behind. -/
@[elab_as_elim]
theorem line_induction (c : α) {motive : List α → Prop} (hlast : ∀ s, c ∉ s → motive s)
    (hline : ∀ t u, c ∉ t → motive u → motive (t ++ c :: u)) (s : List α) : motive s := by
  induction hn : s.length using Nat.strongRecOn generalizing s with
  | ind n ih =>
      by_cases h : c ∈ s
      · obtain ⟨t, u, rfl, ht⟩ := List.eq_append_cons_of_mem h
        simp only [List.length_append, List.length_cons] at hn
        exact hline t u ht (ih u.length (by omega) u rfl)
      · exact hlast s h

/-! ### From a position on -/

theorem findFrom_stands (hp : p ≠ []) (h : findFrom p s pos = some i) :
    pos ≤ i ∧ Stands p s i ∧ i + p.length ≤ s.length := by
  obtain ⟨k, hk, rfl⟩ := Option.map_eq_some_iff.mp h
  have hst := find_stands hp hk
  have hle := find_le hp hk
  rw [List.length_drop] at hle
  have := List.length_pos_iff.mpr hp
  refine ⟨Nat.le_add_right _ _, ?_, by omega⟩
  rwa [Stands, List.drop_drop] at hst

/-- It is the first place from `pos` on. -/
theorem findFrom_first (hp : p ≠ []) (h : findFrom p s pos = some i) (hj : pos ≤ j)
    (hji : j < i) : ¬ Stands p s j := by
  obtain ⟨k, hk, rfl⟩ := Option.map_eq_some_iff.mp h
  intro hst
  refine ((find_eq_some hp).mp hk).2 (j - pos) (by omega) ?_
  rw [Stands, List.drop_drop, Nat.add_sub_cancel' hj]
  exact hst

theorem findFrom_eq_none (hp : p ≠ []) (h : findFrom p s pos = none) (hj : pos ≤ j) :
    ¬ Stands p s j := by
  intro hst
  refine (find_eq_none hp).mp (Option.map_eq_none_iff.mp h) (j - pos) ?_
  rw [Stands, List.drop_drop, Nat.add_sub_cancel' hj]
  exact hst

theorem findFrom_singleton {c : α} (before : List α) (h : c ∉ s) (t : List α) :
    findFrom [c] (before ++ (s ++ t)) before.length =
      findFrom [c] (before ++ (s ++ t)) (before ++ s).length := by
  rw [findFrom, findFrom, List.drop_left, ← List.append_assoc, List.drop_left,
    find_singleton_append h, Option.map_map, List.length_append]
  congr 1
  funext k
  rw [Function.comp_apply]
  omega

theorem findFrom_append (hp : p ≠ []) (h : findFrom p s pos = some i) (t : List α) :
    findFrom p (s ++ t) pos = some i := by
  have hle := findFrom_stands hp h
  obtain ⟨k, hk, rfl⟩ := Option.map_eq_some_iff.mp h
  rw [findFrom, List.drop_append_of_le_length (by omega), find_append hp hk]
  rfl

/-- A text that is cut has the first place left, if it is before the cut. -/
theorem findFrom_take (hp : p ≠ []) (s : List α) (pos stop : Nat) :
    findFrom p (s.take stop) pos =
      (findFrom p s pos).filter fun i => decide (i + p.length ≤ stop) := by
  have hlonger {i : Nat} (h : findFrom p (s.take stop) pos = some i) :
      findFrom p s pos = some i ∧ i + p.length ≤ stop := by
    have hle := (findFrom_stands hp h).2.2
    rw [List.length_take] at hle
    have happend := findFrom_append hp h (s.drop stop)
    rw [List.take_append_drop] at happend
    exact ⟨happend, by omega⟩
  rcases hs : findFrom p s pos with _ | i
  · rcases hcut : findFrom p (s.take stop) pos with _ | j
    · rfl
    · exact absurd ((hlonger hcut).1.symm.trans hs) (by simp)
  · by_cases hi : i + p.length ≤ stop
    · obtain ⟨k, hk, rfl⟩ := Option.map_eq_some_iff.mp hs
      have hle := findFrom_stands hp hs
      have hdrop : s.drop pos = (s.take stop).drop pos ++ s.drop stop := by
        rw [← List.drop_append_of_le_length (by rw [List.length_take]; omega),
          List.take_append_drop]
      rw [hdrop] at hk
      have hcut := find_of_append hp hk (by rw [List.length_drop, List.length_take]; omega)
      rw [findFrom, hcut, Option.map_some, Option.filter_some, if_pos (decide_eq_true hi)]
    · rcases hcut : findFrom p (s.take stop) pos with _ | j
      · rw [Option.filter_some, if_neg (by simpa using hi)]
      · obtain ⟨hj, hle⟩ := hlonger hcut
        rw [hs] at hj
        cases hj
        exact absurd hle hi

/-! ### Spans -/

section Span

variable {β : Type*} {f : β → Bool} {b b' r r' : List β}

theorem takeWhile_left (hb : ∀ c ∈ b, f c = true) (hr : ∀ c ∈ r.head?, f c = false) :
    (b ++ r).takeWhile f = b := by
  have hnil : r.takeWhile f = [] := by
    cases r with
    | nil => rfl
    | cons c r => rw [List.takeWhile_cons_of_neg (by simp [hr c rfl])]
  rw [List.takeWhile_append_of_pos hb, hnil, List.append_nil]

/-- What stands at the start of a text, and what follows it. -/
theorem exists_span (f : β → Bool) (s : List β) : ∃ b r, s = b ++ r ∧ (∀ c ∈ b, f c = true) ∧
    ∀ c ∈ r.head?, f c = false := by
  refine ⟨s.takeWhile f, s.dropWhile f, (List.takeWhile_append_dropWhile ..).symm, ?_, ?_⟩
  · exact fun c hc => List.all_eq_true.mp List.all_takeWhile c hc
  · intro c hc
    have hhead := List.head?_dropWhile_not f s
    rw [Option.mem_def.mp hc] at hhead
    simpa using hhead

theorem span_unique (hb : ∀ c ∈ b, f c = true) (hr : ∀ c ∈ r.head?, f c = false)
    (hb' : ∀ c ∈ b', f c = true) (hr' : ∀ c ∈ r'.head?, f c = false)
    (h : b ++ r = b' ++ r') : b = b' ∧ r = r' := by
  have hspan := takeWhile_left hb hr
  rw [h, takeWhile_left hb' hr'] at hspan
  subst hspan
  exact ⟨rfl, List.append_cancel_left h⟩

end Span

/-! ### One character more -/

omit [DecidableEq α] in
theorem suffix_concat {b c : α} : p ++ [b] <:+ s ++ [c] ↔ p <:+ s ∧ b = c := by
  rw [List.suffix_concat_iff]
  constructor
  · rintro (h | ⟨t, ht, hs⟩)
    · simp at h
    · obtain ⟨rfl, hb⟩ := List.append_inj' ht rfl
      exact ⟨hs, by simpa using hb⟩
  · rintro ⟨hs, rfl⟩
    exact Or.inr ⟨p, rfl, hs⟩

omit [DecidableEq α] in
/-- What stands in a text with one character more stood there before, or ends with it. -/
theorem stands_concat {b c : α} : Stands (p ++ [b]) (s ++ [c]) i ↔
    Stands (p ++ [b]) s i ∨ (p <:+ s ∧ b = c ∧ i + p.length = s.length) := by
  constructor
  · intro h
    have hle := h.le (by simp)
    simp only [List.length_append, List.length_singleton] at hle
    rcases Nat.lt_or_ge (i + p.length) s.length with hlt | hge
    · exact Or.inl (h.of_append (by simp; omega))
    · obtain ⟨t, ht⟩ := h
      have hlen := congrArg List.length ht
      simp only [List.length_append, List.length_drop, List.length_singleton] at hlen
      have hnil : t = [] := List.length_eq_zero_iff.mp (by omega)
      rw [hnil, List.append_nil] at ht
      have hsuf : p ++ [b] <:+ s ++ [c] := ht ▸ List.drop_suffix _ _
      exact Or.inr ⟨(suffix_concat.mp hsuf).1, (suffix_concat.mp hsuf).2, by omega⟩
  · rintro (h | ⟨⟨t, rfl⟩, rfl, hi⟩)
    · have hle := h.le (by simp)
      simp only [List.length_append, List.length_singleton] at hle
      exact h.append (by omega)
    · have hlen : t.length = i := by
        simp only [List.length_append] at hi
        omega
      have hdrop : (t ++ p ++ [b]).drop i = p ++ [b] := by
        rw [List.append_assoc, ← hlen, List.drop_left]
      exact hdrop ▸ List.prefix_rfl

end Text
