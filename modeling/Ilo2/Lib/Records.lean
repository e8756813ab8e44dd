import Mathlib.Data.List.Forall2

/-!
# Records that are read from a stream of events

A loop that fills a list of records: one kind of event opens a record, others set a field of the
last one, and the rest is passed over.

* `Reads.whole` - **the events of a list of records** give this list.
* `Reads.begun` - if only the first of these events come, only the last record may lack fields.
-/

namespace Records

universe u v w

/-- A field: the events that carry it for a record, and the assignment from a record to another. -/
structure Field (α : Type u) (τ : Type v) where
  Carries : α → τ → Prop
  copy : α → α → α

/-- How a record is written: the events that open it, what it is then, and its fields in order.
`known` are the events that are not passed over. -/
structure Shape (α : Type u) (τ : Type v) where
  Opens : α → τ → Prop
  first : α → α
  fields : List (Field α τ)
  known : τ → Bool

variable {α : Type u} {τ : Type v} {β : Type w}

/-- Each of the fields `fs` of `x`, put into `y`. -/
def copyAll (fs : List (Field α τ)) (x y : α) : α := fs.foldl (fun y f => f.copy x y) y

/-- `x` with its first `k` fields only. -/
def Shape.start (s : Shape α τ) (x : α) (k : Nat) : α := copyAll (s.fields.take k) x (s.first x)

/-- The events of a list of records. -/
inductive Shape.Writes (s : Shape α τ) : List α → List τ → Prop
  | nil : Shape.Writes s [] []
  | cons {x : α} {t : τ} {fs : List τ} {xs : List α} {ts : List τ} : s.Opens x t →
      List.Forall₂ (fun f t => f.Carries x t) s.fields fs → Shape.Writes s xs ts →
      Shape.Writes s (x :: xs) (t :: (fs ++ ts))

/-- `ys` are the first records of `xs`; only the last may lack fields. -/
def Shape.Partly (s : Shape α τ) (xs ys : List α) : Prop :=
  ys = [] ∨ ∃ front x back k, xs = front ++ x :: back ∧ ys = front ++ [s.start x k]

/-- The body of the loop does what the shape says. -/
structure Shape.Reads (s : Shape α τ) (step : List α → τ → List α) : Prop where
  opens : ∀ {x t}, s.Opens x t → ∀ xs, step xs t = xs ++ [s.first x]
  carries : ∀ f ∈ s.fields, ∀ {x t}, f.Carries x t →
    ∀ xs y, step (xs ++ [y]) t = xs ++ [f.copy x y]
  passes : ∀ {t}, s.known t = false → ∀ xs, step xs t = xs
  copied : ∀ x, copyAll s.fields x (s.first x) = x

/-- The start of a list in two parts. -/
theorem prefix_split {p a b : List τ} (h : p <+: a ++ b) :
    p <+: a ∨ ∃ q, p = a ++ q ∧ q <+: b := by
  rcases List.prefix_or_prefix_of_prefix h (List.prefix_append a b) with ha | ⟨q, rfl⟩
  · exact Or.inl ha
  · exact Or.inr ⟨q, rfl, (List.prefix_append_right_inj a).mp h⟩

/-! ### The fields of one record -/

variable {step : β → τ → β} (put : α → β) {x : α} {fs : List (Field α τ)} {p ts : List τ}

theorem foldl_copy (h : List.Forall₂ (fun f t => f.Carries x t) fs ts)
    (hstep : ∀ f ∈ fs, ∀ t, f.Carries x t → ∀ y, step (put y) t = put (f.copy x y)) (y : α) :
    ts.foldl step (put y) = put (copyAll fs x y) := by
  induction h generalizing y with
  | nil => rfl
  | @cons f t fs ts hf _ ih =>
      rw [List.foldl_cons, hstep f List.mem_cons_self t hf y]
      exact ih (fun g hg => hstep g (List.mem_cons_of_mem f hg)) _

/-- The first events of a record carry its first fields. -/
theorem foldl_start (h : List.Forall₂ (fun f t => f.Carries x t) fs ts)
    (hstep : ∀ f ∈ fs, ∀ t, f.Carries x t → ∀ y, step (put y) t = put (f.copy x y))
    (hp : p <+: ts) (y : α) : ∃ k, p.foldl step (put y) = put (copyAll (fs.take k) x y) := by
  refine ⟨p.length, ?_⟩
  have htake := List.forall₂_take p.length h
  rw [← List.prefix_iff_eq_take.mp hp] at htake
  exact foldl_copy put htake (fun f hf => hstep f (List.mem_of_mem_take hf)) y

/-- What is passed over can be left out. -/
theorem foldl_known {known : τ → Bool} (h : ∀ t, known t = false → ∀ b, step b t = b)
    (ts : List τ) (b : β) : ts.foldl step b = (ts.filter known).foldl step b := by
  induction ts generalizing b with
  | nil => rfl
  | cons t ts ih =>
      cases hk : known t with
      | true => rw [List.filter_cons_of_pos hk, List.foldl_cons, List.foldl_cons, ih]
      | false =>
          rw [List.filter_cons_of_neg (by simp [hk]), List.foldl_cons, h t hk, ih]

/-! ### Lists of records -/

namespace Shape

variable {s : Shape α τ} {step : List α → τ → List α} {xs : List α}

theorem Reads.foldl_writes (h : s.Reads step) (hw : s.Writes xs ts) (ys : List α) :
    ts.foldl step ys = ys ++ xs := by
  induction hw generalizing ys with
  | nil => exact (List.append_nil ys).symm
  | @cons x t fs xs ts ho hf _ ih =>
      rw [List.foldl_cons, h.opens ho, List.foldl_append,
        foldl_copy (ys ++ [·]) hf (fun f hf t ht => h.carries f hf ht ys), h.copied, ih, List.append_assoc,
        List.singleton_append]

theorem Reads.foldl_prefix (h : s.Reads step) (hw : s.Writes xs ts) (hp : p <+: ts)
    (ys : List α) : ∃ zs, s.Partly xs zs ∧ p.foldl step ys = ys ++ zs := by
  induction hw generalizing p ys with
  | nil =>
      rw [List.prefix_nil.mp hp]
      exact ⟨[], Or.inl rfl, (List.append_nil ys).symm⟩
  | @cons x t fs xs ts ho hf hw ih =>
      rcases List.prefix_cons_iff.mp hp with rfl | ⟨p, rfl, hrest⟩
      · exact ⟨[], Or.inl rfl, (List.append_nil ys).symm⟩
      rw [List.foldl_cons, h.opens ho]
      rcases prefix_split hrest with hpf | ⟨q, rfl, hq⟩
      · -- the record is not complete
        obtain ⟨k, hk⟩ := foldl_start (ys ++ [·]) hf
          (fun f hf t ht => h.carries f hf ht ys) hpf (s.first x)
        exact ⟨[s.start x k], Or.inr ⟨[], x, xs, k, rfl, rfl⟩, hk⟩
      · -- it is, and there are more
        obtain ⟨zs, hzs, hfold⟩ := ih hq (ys ++ [x])
        refine ⟨x :: zs, ?_, ?_⟩
        · rcases hzs with rfl | ⟨front, z, back, k, rfl, rfl⟩
          · refine Or.inr ⟨[], x, xs, s.fields.length, rfl, ?_⟩
            rw [start, List.take_length, h.copied, List.nil_append]
          · exact Or.inr ⟨x :: front, z, back, k, rfl, rfl⟩
        · rw [List.foldl_append,
            foldl_copy (ys ++ [·]) hf (fun f hf t ht => h.carries f hf ht ys), h.copied, hfold,
            List.append_assoc, List.singleton_append]

/-- **The events of a list of records**, whatever else comes between them. -/
theorem Reads.whole (h : s.Reads step) (hw : s.Writes xs (ts.filter s.known)) :
    ts.foldl step [] = xs := by
  rw [foldl_known (fun _ ht => h.passes ht) ts, h.foldl_writes hw, List.nil_append]

/-- **The first of these events** give the first records. -/
theorem Reads.begun (h : s.Reads step) (hw : s.Writes xs (ts.filter s.known)) (hp : p <+: ts) :
    s.Partly xs (p.foldl step []) := by
  obtain ⟨zs, hzs, hfold⟩ := h.foldl_prefix hw (hp.filter s.known) []
  rw [foldl_known (fun _ ht => h.passes ht) p, hfold, List.nil_append]
  exact hzs

end Shape

end Records
