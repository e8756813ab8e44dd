import Mathlib.Tactic.Common

/-!
# Computations that keep their state

An `Attempt` reads and changes a state, and either returns a value or fails; what it
changed before it failed stays changed.  `Returns m s a s'` says that from `s` it returns
`a` and leaves `s'`.  The `returns` lemmas take a program apart step by step, and put one
together in the same way; `Fails` is the other outcome.
-/

def Attempt (σ ε α : Type) : Type := σ → Except ε α × σ

namespace Attempt

variable {σ ε α β : Type}

instance : Monad (Attempt σ ε) where
  pure a := fun s => (.ok a, s)
  bind m f := fun s =>
    match m s with
    | (.ok a, s) => f a s
    | (.error e, s) => (.error e, s)

def get : Attempt σ ε σ := fun s => (.ok s, s)

def modify (f : σ → σ) : Attempt σ ε Unit := fun s => (.ok (), f s)

def fail (e : ε) : Attempt σ ε α := fun s => (.error e, s)

/-- Fail unless `p` holds. -/
def demand (p : Prop) [Decidable p] (e : ε) : Attempt σ ε Unit := if p then pure () else fail e

def ofOption (e : ε) : Option α → Attempt σ ε α
  | some a => pure a
  | none => fail e

/-- From `s` the computation returns `a`, and leaves `s'`. -/
def Returns (m : Attempt σ ε α) (s : σ) (a : α) (s' : σ) : Prop := m s = (.ok a, s')

variable {s s' : σ} {a b : α}

@[simp] theorem returns_pure : (pure a : Attempt σ ε α).Returns s b s' ↔ a = b ∧ s = s' := by
  simp [Returns, pure]

/-- A sequence returns if both parts do. -/
@[simp] theorem returns_bind {m : Attempt σ ε α} {f : α → Attempt σ ε β} {b : β} :
    (m >>= f).Returns s b s' ↔ ∃ a t, m.Returns s a t ∧ (f a).Returns t b s' := by
  unfold Returns
  show (match m s with
    | (.ok a, s) => f a s
    | (.error e, s) => (.error e, s)) = _ ↔ _
  rcases m s with ⟨e | a, t⟩ <;> simp

@[simp] theorem returns_get {t : σ} : (get : Attempt σ ε σ).Returns s t s' ↔ s = t ∧ s = s' := by
  simp [Returns, get]

@[simp] theorem returns_modify {f : σ → σ} {u : Unit} :
    (modify f : Attempt σ ε Unit).Returns s u s' ↔ f s = s' := by
  simp [Returns, modify]

@[simp] theorem returns_fail {e : ε} : (fail e : Attempt σ ε α).Returns s a s' ↔ False := by
  simp [Returns, fail]

@[simp] theorem returns_demand {p : Prop} [Decidable p] {e : ε} {u : Unit} :
    (demand p e : Attempt σ ε Unit).Returns s u s' ↔ p ∧ s = s' := by
  unfold demand
  split <;> rename_i hp <;> simp [hp]

@[simp] theorem returns_ofOption {e : ε} {o : Option α} :
    (ofOption e o : Attempt σ ε α).Returns s a s' ↔ o = some a ∧ s = s' := by
  cases o <;> simp [ofOption]

/-- From `s` the computation fails with `e`, and leaves `s'`. -/
def Fails (m : Attempt σ ε α) (s : σ) (e : ε) (s' : σ) : Prop := m s = (.error e, s')

variable {e e' : ε}

/-- A sequence fails in its first part or in its second. -/
@[simp] theorem fails_bind {m : Attempt σ ε α} {f : α → Attempt σ ε β} :
    (m >>= f).Fails s e s' ↔ m.Fails s e s' ∨ ∃ a t, m.Returns s a t ∧ (f a).Fails t e s' := by
  unfold Fails Returns
  show (match m s with
    | (.ok a, s) => f a s
    | (.error e, s) => (.error e, s)) = _ ↔ _
  rcases m s with ⟨e' | a, t⟩ <;> simp

/-! ### Putting a run together -/

theorem pure_returns (a : α) : (pure a : Attempt σ ε α).Returns s a s := rfl

theorem get_returns : (get : Attempt σ ε σ).Returns s s s := rfl

theorem modify_returns (f : σ → σ) : (modify f : Attempt σ ε Unit).Returns s () (f s) := rfl

theorem demand_returns {p : Prop} [Decidable p] (h : p) :
    (demand p e : Attempt σ ε Unit).Returns s () s := returns_demand.mpr ⟨h, rfl⟩

theorem ofOption_returns {o : Option α} (h : o = some a) :
    (ofOption e o : Attempt σ ε α).Returns s a s := returns_ofOption.mpr ⟨h, rfl⟩

/-- After a part that returns, a run is a run of the rest. -/
theorem Returns.run_bind {m : Attempt σ ε α} {f : α → Attempt σ ε β} {t : σ}
    (h : m.Returns s a t) : (m >>= f) s = f a t := by
  show (match m s with
    | (.ok a, s) => f a s
    | (.error e, s) => (.error e, s)) = _
  rw [h]

theorem Returns.bind {m : Attempt σ ε α} {f : α → Attempt σ ε β} {t : σ} {b : β}
    (h : m.Returns s a t) (g : (f a).Returns t b s') : (m >>= f).Returns s b s' :=
  returns_bind.mpr ⟨a, t, h, g⟩

theorem Returns.bind_fails {m : Attempt σ ε α} {f : α → Attempt σ ε β} {t : σ}
    (h : m.Returns s a t) (g : (f a).Fails t e s') : (m >>= f).Fails s e s' :=
  fails_bind.mpr (Or.inr ⟨a, t, h, g⟩)

theorem Fails.bind {m : Attempt σ ε α} {f : α → Attempt σ ε β} (h : m.Fails s e s') :
    (m >>= f).Fails s e s' := fails_bind.mpr (Or.inl h)

/-! ### What a run keeps -/

/-- Whether it returns or fails, the computation keeps this property of the state. -/
def Keeps (I : σ → Prop) (m : Attempt σ ε α) : Prop := ∀ s, I s → I (m s).2

variable {I : σ → Prop}

@[simp] theorem keeps_pure : Keeps I (pure a : Attempt σ ε α) := fun _ h => h

@[simp] theorem keeps_get : Keeps I (get : Attempt σ ε σ) := fun _ h => h

@[simp] theorem keeps_fail : Keeps I (fail e : Attempt σ ε α) := fun _ h => h

theorem keeps_modify {f : σ → σ} (h : ∀ s, I s → I (f s)) :
    Keeps I (modify f : Attempt σ ε Unit) := h

@[simp] theorem keeps_demand {p : Prop} [Decidable p] :
    Keeps I (demand p e : Attempt σ ε Unit) := by
  unfold demand
  split <;> simp

@[simp] theorem keeps_ofOption {o : Option α} : Keeps I (ofOption e o : Attempt σ ε α) := by
  cases o <;> exact fun _ h => h

theorem Keeps.bind {m : Attempt σ ε α} {f : α → Attempt σ ε β} (h : m.Keeps I)
    (g : ∀ a, (f a).Keeps I) : (m >>= f).Keeps I := by
  intro s hs
  have hm := h s hs
  show I (match m s with
    | (.ok a, s) => f a s
    | (.error e, s) => (.error e, s)).2
  rcases hrun : m s with ⟨e | a, t⟩ <;> rw [hrun] at hm
  · exact hm
  · exact g a t hm

theorem Keeps.ite {p : Prop} [Decidable p] {m n : Attempt σ ε α} (h : m.Keeps I) (g : n.Keeps I) :
    (if p then m else n).Keeps I := by
  split <;> assumption

theorem Keeps.returns {m : Attempt σ ε α} (h : m.Keeps I) (hr : m.Returns s a s') (hs : I s) :
    I s' := by
  have hm := h s hs
  rw [hr] at hm
  exact hm

end Attempt
