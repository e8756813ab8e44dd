import Mathlib.Tactic.Common

/-!
# Checked arrays

An array access either stays inside the array or stops the program with a
fault.  `rd` and `wr` read and write a `Vector` at a `Nat` index; the first
argument turns the offending index into the fault.  A program written with them
is free of out-of-range accesses exactly when it never returns `Except.error`,
so the proofs about it need the in-range facts `rd_of_lt` and `wr_of_lt` and
nothing else.

A program that may also refuse its input is a `Guarded` computation: `Yields` says
that it neither faults nor refuses, and what it returns.
-/

namespace Checked

universe u v

variable {ε : Type u} {α β : Type v} {n : Nat}

/-- Read `v[i]`. -/
def rd (fault : Nat → ε) (v : Vector α n) (i : Nat) : Except ε α :=
  if h : i < n then .ok v[i] else .error (fault i)

/-- Write `v[i] := a`. -/
def wr (fault : Nat → ε) (v : Vector α n) (i : Nat) (a : α) : Except ε (Vector α n) :=
  if h : i < n then .ok (v.set i a) else .error (fault i)

@[simp] theorem ok_bind (a : α) (f : α → Except ε β) : (Except.ok a >>= f) = f a := rfl

@[simp] theorem pure_eq_ok (a : α) : (pure a : Except ε α) = Except.ok a := rfl

theorem rd_of_lt {fault : Nat → ε} {v : Vector α n} {i : Nat} (h : i < n) :
    rd fault v i = .ok v[i] := dif_pos h

theorem wr_of_lt {fault : Nat → ε} {v : Vector α n} {i : Nat} {a : α} (h : i < n) :
    wr fault v i a = .ok (v.set i a) := dif_pos h

/-- A computation that succeeds went through its first part. -/
theorem bind_eq_ok {x : Except ε α} {f : α → Except ε β} {b : β} :
    (x >>= f) = .ok b ↔ ∃ a, x = .ok a ∧ f a = .ok b := by
  cases x with
  | ok a => simp
  | error e =>
    constructor
    · intro h; cases h
    · rintro ⟨a, h, _⟩; cases h

/-- A pair that was returned, part by part. -/
theorem ok_pair {x : α × β} {a : α} {b : β}
    (h : (Except.ok x : Except ε (α × β)) = .ok (a, b)) : x.1 = a ∧ x.2 = b :=
  ⟨congrArg Prod.fst (Except.ok.inj h), congrArg Prod.snd (Except.ok.inj h)⟩

theorem ok_of_toOption {x : Except ε α} {a : α} (h : x.toOption = some a) : x = .ok a := by
  cases x with
  | ok b =>
    cases h
    rfl
  | error e => cases h

/-- A loop over a list of which no round fails. -/
theorem mapM_ok {γ : Type*} {f : γ → Except ε β} {g : γ → β} {l : List γ}
    (h : ∀ x ∈ l, f x = .ok (g x)) : l.mapM f = .ok (l.map g) := by
  induction l with
  | nil => rfl
  | cons x l ih =>
      rw [List.mapM_cons, h x List.mem_cons_self, ok_bind,
        ih fun y hy => h y (List.mem_cons_of_mem x hy), ok_bind]
      rfl

/-! ### Reading without a check -/

/-- The entry at `i`, or `d` past the end: what a checked program is about, once it is
known to stay in range. -/
def look (d : α) (v : Vector α n) (i : Nat) : α := v[i]?.getD d

theorem look_of_lt {d : α} {v : Vector α n} {i : Nat} (h : i < n) : look d v i = v[i] := by
  simp [look, h]

theorem rd_eq_look {fault : Nat → ε} (d : α) {v : Vector α n} {i : Nat} (h : i < n) :
    rd fault v i = .ok (look d v i) := by rw [rd_of_lt h, look_of_lt h]

theorem look_set {d : α} {v : Vector α n} {i : Nat} {a : α} (h : i < n) (j : Nat) :
    look d (v.set i a) j = if j = i then a else look d v j := by
  by_cases hj : j = i
  · subst hj
    simp [look, h]
  · rw [look, Vector.getElem?_set h, if_neg (Ne.symm hj), if_neg hj, look]

/-- Exchange `v[i]` and `v[j]`. -/
def swap (fault : Nat → ε) (v : Vector α n) (i j : Nat) : Except ε (Vector α n) := do
  let t ← rd fault v i
  let w ← wr fault v i (← rd fault v j)
  wr fault w j t

theorem swap_of_lt {fault : Nat → ε} {v : Vector α n} {i j : Nat} (hi : i < n) (hj : j < n) :
    swap fault v i j = .ok (v.swap i j hi hj) := by
  rw [swap, rd_of_lt hi, rd_of_lt hj, ok_bind, ok_bind, wr_of_lt hi, ok_bind, wr_of_lt hj]
  rfl

/-! ### Loops -/

/-- **The rule of loops**: if every round succeeds where `Inv` holds, and keeps it, then so does
the whole loop. -/
theorem foldlM_ok {σ : Type v} {f : σ → α → Except ε σ} {g : σ → α → σ} (Inv : σ → Prop)
    {l : List α} (hround : ∀ s, ∀ a ∈ l, Inv s → f s a = .ok (g s a) ∧ Inv (g s a)) :
    ∀ {s : σ}, Inv s → l.foldlM f s = .ok (l.foldl g s) ∧ Inv (l.foldl g s) := by
  induction l with
  | nil => intro s hs; exact ⟨rfl, hs⟩
  | cons a l ih =>
      intro s hs
      obtain ⟨hf, hg⟩ := hround s a List.mem_cons_self hs
      rw [List.foldlM_cons, hf, ok_bind, List.foldl_cons]
      exact ih (fun s b hb => hround s b (List.mem_cons_of_mem a hb)) hg

/-- Two loops in one. -/
theorem foldlM_prod {σ τ : Type v} {f : σ → α → Except ε σ} {g : τ → α → Except ε τ} {l : List α} :
    ∀ {s s' : σ} {t t' : τ}, l.foldlM f s = .ok s' → l.foldlM g t = .ok t' →
      l.foldlM (fun p a => do .ok (← f p.1 a, ← g p.2 a)) (s, t) = .ok (s', t') := by
  induction l with
  | nil => intro s s' t t' hs ht; cases hs; cases ht; rfl
  | cons a l ih =>
      intro s s' t t' hs ht
      rw [List.foldlM_cons] at hs ht ⊢
      obtain ⟨s₁, hs₁, hs⟩ := bind_eq_ok.mp hs
      obtain ⟨t₁, ht₁, ht⟩ := bind_eq_ok.mp ht
      rw [hs₁, ht₁]
      exact ih hs ht

/-- A loop that writes entry `k` in round `k`. -/
theorem foldlM_wr (fault : Nat → ε) (f : Nat → α) (d : α) {l : List Nat} (hl : ∀ k ∈ l, k < n) :
    ∀ v : Vector α n, ∃ w, l.foldlM (fun w k => wr fault w k (f k)) v = .ok w ∧
      ∀ k, look d w k = if k ∈ l then f k else look d v k := by
  induction l with
  | nil => intro v; exact ⟨v, rfl, fun k => (if_neg List.not_mem_nil).symm⟩
  | cons a l ih =>
      intro v
      have ha : a < n := hl a List.mem_cons_self
      obtain ⟨w, hw, hlook⟩ := ih (fun k hk => hl k (List.mem_cons_of_mem a hk)) (v.set a (f a))
      refine ⟨w, by rw [List.foldlM_cons, wr_of_lt ha, ok_bind, hw], fun k => ?_⟩
      rw [hlook, look_set ha]
      by_cases hk : k ∈ l
      · rw [if_pos hk, if_pos (List.mem_cons_of_mem a hk)]
      · by_cases hka : k = a
        · rw [if_neg hk, if_pos hka, if_pos (hka ▸ List.mem_cons_self), hka]
        · rw [if_neg hk, if_neg hka, if_neg (by simp [hk, hka])]

/-! ### Programs that may refuse -/

/-- A computation that returns a value, refuses, or stops with a fault. -/
abbrev Guarded (ε : Type u) : Type v → Type (max u v) := OptionT (Except ε)

namespace Guarded

/-- The computation returns `a`. -/
def Yields (x : Guarded ε α) (a : α) : Prop := x.run = .ok (some a)

@[simp] theorem yields_pure {a b : α} : Yields (pure a : Guarded ε α) b ↔ a = b := by
  simp [Yields]

@[simp] theorem yields_failure {b : α} : Yields (failure : Guarded ε α) b ↔ False := by
  simp [Yields]

/-- A computation that returns went through its first part. -/
@[simp] theorem yields_bind {x : Guarded ε α} {f : α → Guarded ε β} {b : β} :
    Yields (x >>= f) b ↔ ∃ a, Yields x a ∧ Yields (f a) b := by
  unfold Yields
  rw [OptionT.run_bind]
  rcases hx : x.run with e | o
  · simp only [Option.elimM, reduceCtorEq, false_and, exists_false, iff_false]
    intro h
    cases h
  · cases o with
    | none => simp [Option.elimM]
    | some a => simp [Option.elimM]

@[simp] theorem yields_guard {p : Prop} [Decidable p] {u : Unit} :
    Yields (guard p : Guarded ε Unit) u ↔ p := by
  by_cases hp : p
  · simp [guard, hp]
  · simp [guard, hp]

/-- Whatever the computation returns satisfies `P`. -/
def Ensures (x : Guarded ε α) (P : α → Prop) : Prop := ∀ a, Yields x a → P a

theorem Ensures.failure {P : α → Prop} : Ensures (failure : Guarded ε α) P :=
  fun _ h => (yields_failure.mp h).elim

theorem Ensures.bind {x : Guarded ε α} {f : α → Guarded ε β} {P : β → Prop}
    (h : ∀ a, Ensures (f a) P) : Ensures (x >>= f) P := by
  intro b hb
  obtain ⟨a, -, ha⟩ := yields_bind.mp hb
  exact h a b ha

theorem Ensures.orElse {x y : Guarded ε α} {P : α → Prop} (hx : Ensures x P)
    (hy : Ensures y P) : Ensures (x <|> y) P := by
  intro a h
  unfold Yields at h
  rw [OptionT.run_orElse] at h
  rcases hx' : x.run with e | o
  · rw [hx'] at h
    cases h
  · rw [hx'] at h
    cases o with
    | none => exact hy a h
    | some b => exact hx a (hx'.trans h)

/-- What follows a computation only matters for what it returns. -/
theorem bind_congr {x : Guarded ε α} {f g : α → Guarded ε β}
    (h : ∀ a, Yields x a → f a = g a) : x >>= f = x >>= g := by
  apply OptionT.ext
  rw [OptionT.run_bind, OptionT.run_bind]
  rcases hx : x.run with e | o
  · rfl
  · cases o with
    | none => rfl
    | some a => exact congrArg OptionT.run (h a hx)

theorem bind_of_yields {x : Guarded ε α} {f : α → Guarded ε β} {a : α} (h : Yields x a) :
    x >>= f = f a := by
  apply OptionT.ext
  rw [OptionT.run_bind, show x.run = .ok (some a) from h]
  rfl

theorem guard_bind {γ : Type} {p : Prop} [Decidable p] {f : Unit → Guarded ε γ} :
    ((guard p : Guarded ε Unit) >>= f) = if p then f () else failure := by
  unfold guard
  split
  · rw [pure_bind]
  · rfl

/-- The computation does not stop with a fault. -/
def Safe (x : Guarded ε α) : Prop := ∃ o, x.run = .ok o

theorem safe_pure (a : α) : Safe (pure a : Guarded ε α) := ⟨some a, rfl⟩

theorem safe_failure : Safe (failure : Guarded ε α) := ⟨none, rfl⟩

theorem safe_guard (p : Prop) [Decidable p] : Safe (guard p : Guarded ε Unit) := by
  unfold guard
  split
  · exact safe_pure ()
  · exact safe_failure

theorem Safe.bind {x : Guarded ε α} {f : α → Guarded ε β} (hx : Safe x)
    (hf : ∀ a, Yields x a → Safe (f a)) : Safe (x >>= f) := by
  obtain ⟨o, ho⟩ := hx
  cases o with
  | none => exact ⟨none, by rw [OptionT.run_bind, ho]; rfl⟩
  | some a => rw [bind_of_yields ho]; exact hf a ho

theorem Safe.orElse {x y : Guarded ε α} (hx : Safe x) (hy : Safe y) : Safe (x <|> y) := by
  obtain ⟨o, ho⟩ := hx
  cases o with
  | none => exact ⟨hy.choose, by rw [OptionT.run_orElse, ho]; exact hy.choose_spec⟩
  | some a => exact ⟨some a, by rw [OptionT.run_orElse, ho]; rfl⟩

end Guarded

end Checked
