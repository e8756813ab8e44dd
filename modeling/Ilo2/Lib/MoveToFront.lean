import Mathlib.Data.Fintype.EquivFin
import Mathlib.Data.List.InsertIdx
import Mathlib.Data.List.Nodup
import Mathlib.Tactic.Common

/-!
# Move-to-front lists with marks

A *marked list* is a list of distinct keys, most recently used first, each key
carrying a mark that says whether it was used since the last sweep.  `touch`
looks a key up and moves it to the front (pushing it, within a capacity, when it
is new), `pick` does the same by position, and `sweep` keeps the marked keys.

The second half is about an implementation of such a list that never moves
anything: the keys sit in slots, and a second array holds the rank of each slot.
`Ranked n key rank mark L` says that the slots `0 .. n - 1` hold the list `L` in
rank order.  `Ranked.promote` is the only way a rank changes, `Ranked.push` the
only way a slot is added, and `Sweeping` is the invariant of a sweep that fills
each hole with the last slot and renumbers nothing.
-/

namespace MoveToFront

universe u

variable {α : Type u}

/-! ### The list operations -/

section Operations

variable [DecidableEq α]

/-- Look `a` up and move it to the front; a new key pushes the last one out of a
full list. The flag says whether `a` was present. -/
def touch (cap : Nat) (L : List (α × Bool)) (a : α) : Bool × List (α × Bool) :=
  if a ∈ L.map Prod.fst then (true, (a, true) :: L.eraseP (fun p => p.1 = a))
  else (false, (a, true) :: (if L.length = cap then L.dropLast else L))

end Operations

/-- The key at position `r`, moved to the front. -/
def pick (L : List (α × Bool)) (r : Nat) : Option α × List (α × Bool) :=
  match L[r]? with
  | some p => (some p.1, (p.1, true) :: L.eraseIdx r)
  | none => (none, L)

/-- Keep the marked keys and clear their marks. -/
def sweep (L : List (α × Bool)) : List (α × Bool) :=
  (L.filter Prod.snd).map fun p => (p.1, false)

/-- Every marked key stands before every unmarked one. -/
def MarkedFirst (L : List (α × Bool)) : Prop :=
  L.Pairwise fun p q => q.2 = true → p.2 = true

/-! ### Marks come first -/

theorem MarkedFirst.cons {a : α} {L : List (α × Bool)} (h : MarkedFirst L) :
    MarkedFirst ((a, true) :: L) :=
  List.pairwise_cons.mpr ⟨fun _ _ _ => rfl, h⟩

theorem MarkedFirst.sublist {L M : List (α × Bool)} (h : MarkedFirst L) (hs : List.Sublist M L) :
    MarkedFirst M := List.Pairwise.sublist hs h

theorem markedFirst_sweep (L : List (α × Bool)) : MarkedFirst (sweep L) := by
  unfold MarkedFirst sweep
  rw [List.pairwise_map]
  exact List.pairwise_of_forall (fun _ _ h => h)

/-- When marks come first, the marked entries are a prefix. -/
theorem MarkedFirst.filter_eq_take {L : List (α × Bool)} (h : MarkedFirst L) :
    L.filter Prod.snd = L.take (L.filter Prod.snd).length := by
  induction L with
  | nil => rfl
  | cons p L ih =>
      obtain ⟨hp, hL⟩ := List.pairwise_cons.mp h
      by_cases hm : p.2 = true
      · rw [List.filter_cons_of_pos hm, List.length_cons, List.take_succ_cons, ← ih hL]
      · have hnil : L.filter Prod.snd = [] := by
          rw [List.filter_eq_nil_iff]
          intro q hq hqm
          exact hm (hp q hq hqm)
        rw [List.filter_cons_of_neg hm, hnil]
        rfl

/-- Position `r` is marked exactly when it is one of the first `t`, where `t`
counts the marked entries. -/
theorem MarkedFirst.marked_iff {L : List (α × Bool)} (h : MarkedFirst L) {r : Nat} {p : α × Bool}
    (hp : L[r]? = some p) : p.2 = true ↔ r < (L.filter Prod.snd).length := by
  induction L generalizing r with
  | nil => simp at hp
  | cons q L ih =>
      obtain ⟨hq, hL⟩ := List.pairwise_cons.mp h
      by_cases hm : q.2 = true
      · rw [List.filter_cons_of_pos hm, List.length_cons]
        cases r with
        | zero =>
            have he : q = p := by simpa using hp
            subst he
            simp [hm]
        | succ r =>
            rw [ih hL (by simpa using hp)]
            omega
      · have hnil : (q :: L).filter Prod.snd = [] := by
          rw [List.filter_eq_nil_iff]
          intro s hs hsm
          rcases List.mem_cons.mp hs with rfl | hs
          · exact hm hsm
          · exact hm (hq s hs hsm)
        rw [hnil]
        simp only [List.length_nil, Nat.not_lt_zero, iff_false]
        intro hpm
        have hmem : p ∈ q :: L := List.mem_of_getElem? hp
        have : p ∈ (q :: L).filter Prod.snd := List.mem_filter.mpr ⟨hmem, hpm⟩
        rw [hnil] at this
        exact absurd this (List.not_mem_nil)

/-! ### No operation makes up a key -/

theorem pick_fst_mem {L : List (α × Bool)} {r : Nat} {a : α} (h : (pick L r).1 = some a) :
    a ∈ L.map Prod.fst := by
  unfold pick at h
  cases hp : L[r]? with
  | none => rw [hp] at h; cases h
  | some p =>
      rw [hp] at h
      cases h
      exact List.mem_map.mpr ⟨p, List.mem_of_getElem? hp, rfl⟩

theorem forall_keys_pick {P : α → Prop} {L : List (α × Bool)} (h : ∀ p ∈ L, P p.1) (r : Nat) :
    ∀ p ∈ (pick L r).2, P p.1 := by
  unfold pick
  cases hp : L[r]? with
  | none => exact h
  | some q =>
      intro p hmem
      rcases List.mem_cons.mp hmem with rfl | hmem
      · exact h q (List.mem_of_getElem? hp)
      · exact h p (List.mem_of_mem_eraseIdx hmem)

theorem forall_keys_touch [DecidableEq α] {P : α → Prop} {L : List (α × Bool)}
    (h : ∀ p ∈ L, P p.1) (cap : Nat) {a : α} (ha : P a) : ∀ p ∈ (touch cap L a).2, P p.1 := by
  intro p hmem
  unfold touch at hmem
  split at hmem
  · rcases List.mem_cons.mp hmem with rfl | hmem
    · exact ha
    · exact h p (List.mem_of_mem_eraseP hmem)
  · rcases List.mem_cons.mp hmem with rfl | hmem
    · exact ha
    · split at hmem
      · exact h p (List.mem_of_mem_dropLast hmem)
      · exact h p hmem

theorem forall_keys_sweep {P : α → Prop} {L : List (α × Bool)} (h : ∀ p ∈ L, P p.1) :
    ∀ p ∈ sweep L, P p.1 := by
  intro p hmem
  obtain ⟨q, hq, rfl⟩ := List.mem_map.mp hmem
  exact h q (List.mem_filter.mp hq).1

/-! ### Keys stay distinct -/

theorem nodup_keys_promote {L : List (α × Bool)} (h : (L.map Prod.fst).Nodup) {r : Nat}
    {p : α × Bool} (hp : L[r]? = some p) :
    (((p.1, true) :: L.eraseIdx r).map Prod.fst).Nodup := by
  obtain ⟨hr, rfl⟩ := List.getElem?_eq_some_iff.mp hp
  rw [List.map_cons, List.nodup_cons, ← List.eraseIdx_map]
  refine ⟨?_, h.eraseIdx r⟩
  intro hmem
  obtain ⟨j, hj, hne, he⟩ := (List.mem_eraseIdx_iff_getElem).mp hmem
  have hr' : r < (L.map Prod.fst).length := by rwa [List.length_map]
  have hget : (L.map Prod.fst)[j] = (L.map Prod.fst)[r] := by
    rw [he, List.getElem_map]
  exact hne (h.getElem_inj_iff.mp hget)

theorem nodup_keys_push {L M : List (α × Bool)} (h : (L.map Prod.fst).Nodup) {a : α}
    (ha : a ∉ L.map Prod.fst) (hs : List.Sublist M L) :
    (((a, true) :: M).map Prod.fst).Nodup := by
  rw [List.map_cons, List.nodup_cons]
  exact ⟨fun hm => ha ((hs.map _).subset hm), h.sublist (hs.map _)⟩

theorem nodup_keys_sweep {L : List (α × Bool)} (h : (L.map Prod.fst).Nodup) :
    ((sweep L).map Prod.fst).Nodup := by
  have he : (sweep L).map Prod.fst = (L.filter Prod.snd).map Prod.fst := by
    simp [sweep, Function.comp_def]
  rw [he]
  exact h.sublist ((List.filter_sublist (p := Prod.snd) (l := L)).map _)

/-- Removing a key is removing its position. -/
theorem eraseP_eq_eraseIdx [DecidableEq α] {L : List (α × Bool)} (h : (L.map Prod.fst).Nodup)
    {r : Nat} {p : α × Bool} (hp : L[r]? = some p) :
    L.eraseP (fun q => q.1 = p.1) = L.eraseIdx r := by
  induction L generalizing r with
  | nil => simp at hp
  | cons q L ih =>
      rw [List.map_cons, List.nodup_cons] at h
      cases r with
      | zero =>
          have he : q = p := by simpa using hp
          rw [List.eraseP_cons_of_pos (by simp [he]), List.eraseIdx_cons_zero]
      | succ r =>
          have hp' : L[r]? = some p := by simpa using hp
          have hne : q.1 ≠ p.1 := fun he =>
            h.1 (he ▸ List.mem_map.mpr ⟨p, List.mem_of_getElem? hp', rfl⟩)
          rw [List.eraseP_cons_of_neg (by simp [hne]), List.eraseIdx_cons_succ, ih h.2 hp']

/-- What every operation keeps: distinct keys, at most `cap` of them, marks first. -/
structure WellFormed (cap : Nat) (L : List (α × Bool)) : Prop where
  nodup : (L.map Prod.fst).Nodup
  length_le : L.length ≤ cap
  markedFirst : MarkedFirst L

theorem wellFormed_nil (cap : Nat) : WellFormed cap ([] : List (α × Bool)) where
  nodup := by simp
  length_le := Nat.zero_le cap
  markedFirst := List.Pairwise.nil

namespace WellFormed

variable {cap : Nat} {L : List (α × Bool)}

theorem promote (h : WellFormed cap L) {r : Nat} {p : α × Bool} (hp : L[r]? = some p) :
    WellFormed cap ((p.1, true) :: L.eraseIdx r) where
  nodup := nodup_keys_promote h.nodup hp
  length_le := by
    obtain ⟨hr, _⟩ := List.getElem?_eq_some_iff.mp hp
    have := h.length_le
    rw [List.length_cons, List.length_eraseIdx_of_lt hr]
    omega
  markedFirst := (h.markedFirst.sublist (List.eraseIdx_sublist L r)).cons

theorem touch [DecidableEq α] (h : WellFormed cap L) (hcap : 0 < cap) (a : α) :
    WellFormed cap (touch cap L a).2 := by
  unfold MoveToFront.touch
  split
  · rename_i ha
    obtain ⟨p, hp, rfl⟩ := List.mem_map.mp ha
    obtain ⟨r, hr⟩ := List.mem_iff_getElem?.mp hp
    rw [eraseP_eq_eraseIdx h.nodup hr]
    exact h.promote hr
  · rename_i ha
    have hs : List.Sublist (if L.length = cap then L.dropLast else L) L := by
      split
      · exact List.dropLast_sublist L
      · exact List.Sublist.refl L
    refine ⟨nodup_keys_push h.nodup ha hs, ?_, (h.markedFirst.sublist hs).cons⟩
    have := h.length_le
    rw [List.length_cons]
    split
    · rw [List.length_dropLast]; omega
    · omega

theorem sweep (h : WellFormed cap L) : WellFormed cap (sweep L) where
  nodup := nodup_keys_sweep h.nodup
  length_le := by
    rw [MoveToFront.sweep, List.length_map]
    exact (List.length_filter_le _ _).trans h.length_le
  markedFirst := markedFirst_sweep L

end WellFormed

/-! ### Slots and ranks -/

/-- The slots `0 .. n - 1` hold the marked list `L` in rank order. -/
structure Ranked (n : Nat) (key : Nat → α) (rank : Nat → Nat) (mark : Nat → Bool)
    (L : List (α × Bool)) : Prop where
  len : L.length = n
  entry : ∀ k < n, L[rank k]? = some (key k, mark k)
  inj : ∀ j < n, ∀ k < n, rank j = rank k → j = k

namespace Ranked

variable {n : Nat} {key : Nat → α} {rank : Nat → Nat} {mark : Nat → Bool} {L : List (α × Bool)}

theorem rank_lt (h : Ranked n key rank mark L) {k : Nat} (hk : k < n) : rank k < n := by
  obtain ⟨hlt, _⟩ := List.getElem?_eq_some_iff.mp (h.entry k hk)
  rw [h.len] at hlt
  exact hlt

/-- Ranks have no gap. -/
theorem exists_rank (h : Ranked n key rank mark L) {r : Nat} (hr : r < n) :
    ∃ k < n, rank k = r := by
  let f : Fin n → Fin n := fun k => ⟨rank k, h.rank_lt k.2⟩
  have hf : Function.Injective f := by
    intro j k hjk
    exact Fin.ext (h.inj j j.2 k k.2 (congrArg Fin.val hjk))
  obtain ⟨k, hk⟩ := (Finite.injective_iff_surjective.mp hf) ⟨r, hr⟩
  exact ⟨k, k.2, congrArg Fin.val hk⟩

theorem congr {key' : Nat → α} {rank' : Nat → Nat} {mark' : Nat → Bool}
    (h : Ranked n key rank mark L) (hkey : ∀ k < n, key' k = key k)
    (hrank : ∀ k < n, rank' k = rank k) (hmark : ∀ k < n, mark' k = mark k) :
    Ranked n key' rank' mark' L where
  len := h.len
  entry k hk := by rw [hkey k hk, hrank k hk, hmark k hk]; exact h.entry k hk
  inj j hj k hk hjk := h.inj j hj k hk (by rw [← hrank j hj, ← hrank k hk]; exact hjk)

theorem zero : Ranked 0 key rank mark [] where
  len := rfl
  entry k hk := absurd hk (Nat.not_lt_zero k)
  inj j hj := absurd hj (Nat.not_lt_zero j)

/-- A key is in the list exactly when some slot holds it. -/
theorem mem_keys_iff (h : Ranked n key rank mark L) {a : α} :
    a ∈ L.map Prod.fst ↔ ∃ k < n, key k = a := by
  constructor
  · intro ha
    obtain ⟨p, hp, rfl⟩ := List.mem_map.mp ha
    obtain ⟨r, hr⟩ := List.mem_iff_getElem?.mp hp
    obtain ⟨hlt, _⟩ := List.getElem?_eq_some_iff.mp hr
    obtain ⟨k, hk, hkr⟩ := h.exists_rank (h.len ▸ hlt)
    have he := h.entry k hk
    rw [hkr, hr] at he
    exact ⟨k, hk, by rw [Option.some.inj he]⟩
  · rintro ⟨k, hk, rfl⟩
    exact List.mem_map.mpr ⟨_, List.mem_of_getElem? (h.entry k hk), rfl⟩

/-- Distinct slots hold distinct keys when the list has distinct keys. -/
theorem key_inj (h : Ranked n key rank mark L) (hd : (L.map Prod.fst).Nodup) {j k : Nat}
    (hj : j < n) (hk : k < n) (he : key j = key k) : j = k := by
  have hj' : (L.map Prod.fst)[rank j]? = some (key k) := by
    rw [List.getElem?_map, h.entry j hj, Option.map_some, he]
  have hk' : (L.map Prod.fst)[rank k]? = some (key k) := by
    rw [List.getElem?_map, h.entry k hk, Option.map_some]
  obtain ⟨hjl, hje⟩ := List.getElem?_eq_some_iff.mp hj'
  obtain ⟨hkl, hke⟩ := List.getElem?_eq_some_iff.mp hk'
  exact h.inj j hj k hk ((List.Nodup.getElem_inj_iff hd).mp (hje.trans hke.symm))

/-- Marked slots rank before unmarked ones when marks come first. -/
theorem rank_lt_of_marked (h : Ranked n key rank mark L) (hm : MarkedFirst L) {j k : Nat}
    (hj : j < n) (hk : k < n) (hmj : mark j = true) (hmk : mark k = false) : rank j < rank k := by
  have h1 := (hm.marked_iff (h.entry j hj)).mp hmj
  have h2 := mt (hm.marked_iff (h.entry k hk)).mpr (by simp [hmk])
  omega

/-- **Promotion.** Giving slot `s` the key `a`, a mark and rank `0`, and ageing
the slots ranked before it by one, moves that entry to the front. -/
theorem promote (h : Ranked n key rank mark L) {s : Nat} (hs : s < n) (a : α) :
    Ranked n (fun k => if k = s then a else key k)
      (fun k => if k = s then 0 else if rank k < rank s then rank k + 1 else rank k)
      (fun k => if k = s then true else mark k) ((a, true) :: L.eraseIdx (rank s)) where
  len := by
    have := h.rank_lt hs
    rw [List.length_cons, List.length_eraseIdx_of_lt (by rw [h.len]; exact this), h.len]
    omega
  entry k hk := by
    by_cases hks : k = s
    · simp [hks]
    · have hne : rank k ≠ rank s := fun he => hks (h.inj k hk s hs he)
      simp only [if_neg hks]
      by_cases hlt : rank k < rank s
      · rw [if_pos hlt, List.getElem?_cons_succ, List.getElem?_eraseIdx, if_pos hlt]
        exact h.entry k hk
      · obtain ⟨m, hm⟩ : ∃ m, rank k = m + 1 := ⟨rank k - 1, by omega⟩
        rw [if_neg hlt, hm, List.getElem?_cons_succ, List.getElem?_eraseIdx, if_neg (by omega),
          ← hm]
        exact h.entry k hk
  inj j hj k hk hjk := by
    have hi := h.inj j hj k hk
    have hjs := h.inj j hj s hs
    have hks := h.inj k hk s hs
    split_ifs at hjk <;> omega

/-- **Pushing.** Slot `n` takes the key `a` with rank `0` and every other slot
ages by one. -/
theorem push (h : Ranked n key rank mark L) (a : α) :
    Ranked (n + 1) (fun k => if k = n then a else key k)
      (fun k => if k = n then 0 else rank k + 1)
      (fun k => if k = n then true else mark k) ((a, true) :: L) where
  len := by rw [List.length_cons, h.len]
  entry k hk := by
    by_cases hkn : k = n
    · simp [hkn]
    · simp only [if_neg hkn, List.getElem?_cons_succ]
      exact h.entry k (by omega)
  inj j hj k hk hjk := by
    have hi := h.inj j
    split_ifs at hjk
    · omega
    · exact hi (by omega) k (by omega) (by omega)

end Ranked

/-! ### Sweeping in place -/

/-- The state of a sweep over slots that held `L`, of which the first `t` entries
are marked.  Slots `0 .. k - 1` are done, slots `k .. k + m - 1` still hold what
they held, and every marked rank is in one of them. -/
structure Sweeping (L : List (α × Bool)) (t k m : Nat) (key : Nat → α) (rank : Nat → Nat)
    (mark : Nat → Bool) : Prop where
  done : ∀ j < k, mark j = false ∧ rank j < t ∧ L[rank j]? = some (key j, true)
  todo : ∀ j, k ≤ j → j < k + m → L[rank j]? = some (key j, mark j)
  inj : ∀ i < k + m, ∀ j < k + m, rank i = rank j → i = j
  cover : ∀ r < t, ∃ j < k + m, rank j = r

namespace Sweeping

variable {L : List (α × Bool)} {t k m : Nat} {key : Nat → α} {rank : Nat → Nat} {mark : Nat → Bool}

theorem start {n : Nat} (h : Ranked n key rank mark L) :
    Sweeping L (L.filter Prod.snd).length 0 n key rank mark where
  done j hj := absurd hj (Nat.not_lt_zero j)
  todo j _ hj := h.entry j (by omega)
  inj i hi j hj := h.inj i (by omega) j (by omega)
  cover r hr := by
    obtain ⟨j, hj, he⟩ := h.exists_rank (r := r)
      (by rw [← h.len]; exact lt_of_lt_of_le hr (List.length_filter_le _ _))
    exact ⟨j, by omega, he⟩

/-- A marked slot is kept and its mark cleared. -/
theorem keep (h : Sweeping L (L.filter Prod.snd).length k (m + 1) key rank mark)
    (hL : MarkedFirst L) (hk : mark k = true) :
    Sweeping L (L.filter Prod.snd).length (k + 1) m key rank
      (fun j => if j = k then false else mark j) where
  done j hj := by
    by_cases hjk : j = k
    · have he := h.todo k (Nat.le_refl k) (by omega)
      subst hjk
      rw [hk] at he
      exact ⟨by simp, (hL.marked_iff he).mp rfl, he⟩
    · simp only [if_neg hjk]
      exact h.done j (by omega)
  todo j h1 h2 := by
    simp only [if_neg (show j ≠ k by omega)]
    exact h.todo j (by omega) (by omega)
  inj i hi j hj := h.inj i (by omega) j (by omega)
  cover r hr := by
    obtain ⟨j, hj, he⟩ := h.cover r hr
    exact ⟨j, by omega, he⟩

/-- An unmarked slot is overwritten with the last one. -/
theorem drop (h : Sweeping L (L.filter Prod.snd).length k (m + 1) key rank mark)
    (hL : MarkedFirst L) (hk : mark k = false) :
    Sweeping L (L.filter Prod.snd).length k m (fun j => if j = k then key (k + m) else key j)
      (fun j => if j = k then rank (k + m) else rank j)
      (fun j => if j = k then mark (k + m) else mark j) where
  done j hj := by
    simp only [if_neg (show j ≠ k by omega)]
    exact h.done j hj
  todo j h1 h2 := by
    by_cases hjk : j = k
    · simp only [if_pos hjk]
      exact h.todo (k + m) (by omega) (by omega)
    · simp only [if_neg hjk]
      exact h.todo j h1 (by omega)
  inj i hi j hj hij := by
    have h1 := h.inj i (by omega) j (by omega)
    have h2 := h.inj (k + m) (by omega) j (by omega)
    have h3 := h.inj i (by omega) (k + m) (by omega)
    split_ifs at hij
    · omega
    · have := h2 hij; omega
    · have := h3 hij; omega
    · exact h1 hij
  cover r hr := by
    obtain ⟨j, hj, he⟩ := h.cover r hr
    by_cases hjk : j = k
    · -- the slot that goes holds an unmarked rank, so it cannot be `r`
      subst hjk
      have hn := mt (hL.marked_iff (h.todo j (Nat.le_refl j) (by omega))).mpr (by simp [hk])
      exact absurd hr (he ▸ hn)
    · by_cases hjl : j = k + m
      · exact ⟨k, by omega, by simp [← hjl, he]⟩
      · exact ⟨j, by omega, by simp [hjk, he]⟩

/-- **A finished sweep** leaves exactly the marked entries, in order. -/
theorem finish (h : Sweeping L (L.filter Prod.snd).length k 0 key rank mark)
    (hL : MarkedFirst L) : Ranked k key rank mark (sweep L) := by
  have hlen : (sweep L).length = k := by
    have hle : k ≤ (L.filter Prod.snd).length := by
      let f : Fin k → Fin (L.filter Prod.snd).length := fun j => ⟨rank j, (h.done j j.2).2.1⟩
      have hf : Function.Injective f := by
        intro i j hij
        exact Fin.ext (h.inj i (by omega) j (by omega) (congrArg Fin.val hij))
      simpa using Fintype.card_le_of_injective f hf
    have hge : (L.filter Prod.snd).length ≤ k := by
      choose g hg using fun r : Fin (L.filter Prod.snd).length => h.cover r r.2
      let f : Fin (L.filter Prod.snd).length → Fin k := fun r => ⟨g r, by have := (hg r).1; omega⟩
      have hf : Function.Injective f := by
        intro r s hrs
        have he : g r = g s := congrArg Fin.val hrs
        exact Fin.ext ((hg r).2.symm.trans ((congrArg rank he).trans (hg s).2))
      simpa using Fintype.card_le_of_injective f hf
    simp only [sweep, List.length_map]
    omega
  refine ⟨hlen, ?_, fun i hi j hj => h.inj i (by omega) j (by omega)⟩
  intro j hj
  obtain ⟨hm, hr, he⟩ := h.done j hj
  rw [sweep, List.getElem?_map, hL.filter_eq_take, List.getElem?_take_of_lt hr, he, hm]
  rfl

end Sweeping

end MoveToFront
