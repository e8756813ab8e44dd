import Ilo2.Ribcl.Reply

/-!
# Where the attribute scan finds its values

`ribcl_attr_values` cuts its values out of the document.  Here the scan returns the places, that
is where each value starts and how long it is; and what it makes of one place is read off the text
that begins there, and the character before it.

* `attrLoop_eq` - the values are what stands at the places.
* `places_next` - **a place at which nothing is assigned to the name is passed over**.
* `places_value`, `places_stop` - a place at which a quoted text is assigned to it.
-/

namespace Ilo2.Ribcl

open Text
open Tls (ascii)

/-! ### The scan -/

/-- What the scan makes of a place at which the name stands. -/
inductive Look where
  | no
  | stop
  | value (start len : Nat)
deriving DecidableEq

/-- The body of the loop of `ribcl_attr_values`. -/
def look (doc name : List UInt8) (start : Nat) : Look :=
  let pos := start + name.length
  if start > 0 ∧ at? doc (start - 1) isNameChar then .no
  else if at? doc pos isNameChar then .no
  else
    let i := skipSpace doc pos
    if ¬ at? doc i (· = 0x3D) then .no
    else
      let i := skipSpace doc (i + 1)
      match doc[i]? with
      | none => .stop
      | some q =>
          if q ≠ 0x22 ∧ q ≠ 0x27 then .no
          else
            match findFrom [q] doc (i + 1) with
            | none => .stop
            | some close => .value (i + 1) (close - i - 1)

/-- The loop, with places for values. -/
def placeLoop (doc name : List UInt8) : (rounds pos : Nat) → List (Nat × Nat)
  | 0, _ => []
  | rounds + 1, pos =>
      match findFrom name doc pos with
      | none => []
      | some start =>
          match look doc name start with
          | .no => placeLoop doc name rounds (start + name.length)
          | .stop => []
          | .value i n => (i, n) :: placeLoop doc name rounds (i + n + 1)

/-- The places from `pos` on. -/
def places (doc name : List UInt8) (pos : Nat) : List (Nat × Nat) :=
  placeLoop doc name (doc.length + 1 - pos) pos

/-- What stands at a place. -/
def standing (doc : List UInt8) (p : Nat × Nat) : List UInt8 := (doc.drop p.1).take p.2

variable {doc name before b₁ b₂ r s t v : List UInt8} {q : UInt8} {pos start i n : Nat}

/-- **The values are what stands at the places.** -/
theorem attrLoop_eq (doc name : List UInt8) (rounds : Nat) : ∀ pos,
    attrLoop doc name rounds pos = (placeLoop doc name rounds pos).map (standing doc) := by
  induction rounds with
  | zero => intro pos; rfl
  | succ rounds ih =>
      intro pos
      rw [attrLoop, placeLoop]
      cases findFrom name doc pos with
      | none => rfl
      | some start =>
          dsimp only
          rw [look]
          dsimp only
          by_cases hbefore : start > 0 ∧ at? doc (start - 1) isNameChar = true
          · rw [if_pos hbefore, if_pos hbefore]
            exact ih _
          rw [if_neg hbefore, if_neg hbefore]
          by_cases hafter : at? doc (start + name.length) isNameChar = true
          · rw [if_pos hafter, if_pos hafter]
            exact ih _
          rw [if_neg hafter, if_neg hafter]
          by_cases hassign : ¬ at? doc (skipSpace doc (start + name.length)) (· = 0x3D) = true
          · rw [if_pos hassign, if_pos hassign]
            exact ih _
          rw [if_neg hassign, if_neg hassign]
          generalize skipSpace doc (skipSpace doc (start + name.length) + 1) = i
          cases doc[i]? with
          | none => rfl
          | some q =>
              dsimp only
              by_cases hquote : q ≠ 0x22 ∧ q ≠ 0x27
              · rw [if_pos hquote, if_pos hquote]
                exact ih _
              rw [if_neg hquote, if_neg hquote]
              cases hclose : findFrom [q] doc (i + 1) with
              | none => rfl
              | some close =>
                  have hle := (findFrom_stands (List.cons_ne_nil q []) hclose).1
                  have hnext : i + 1 + (close - i - 1) + 1 = close + 1 := by omega
                  dsimp only
                  rw [List.map_cons, hnext, ih]
                  rfl

theorem attrValues_eq (doc name : List UInt8) :
    ribclAttrValues doc name = (places doc name 0).map (standing doc) := attrLoop_eq doc name _ 0

/-! ### One round -/

/-- A value starts behind its name. -/
theorem lt_of_look (h : look doc name start = .value i n) : start + name.length < i := by
  rw [look] at h
  have h₁ := le_skipSpace doc (start + name.length)
  have h₂ := le_skipSpace doc (skipSpace doc (start + name.length) + 1)
  dsimp only at h
  split at h
  · cases h
  split at h
  · cases h
  split at h
  · cases h
  split at h
  · cases h
  split at h
  · cases h
  split at h
  · cases h
  · cases h
    omega

/-- Behind the end of the text nothing is found. -/
theorem findFrom_end (hname : name ≠ []) (h : doc.length < pos) : findFrom name doc pos = none := by
  cases hf : findFrom name doc pos with
  | none => rfl
  | some k =>
      obtain ⟨hle, -, hlen⟩ := findFrom_stands hname hf
      omega

/-- Every round advances, so there is a number of rounds that is enough. -/
theorem placeLoop_rounds (hname : name ≠ []) (m : Nat) : ∀ (n pos : Nat),
    doc.length < m + pos → doc.length < n + pos →
      placeLoop doc name m pos = placeLoop doc name n pos := by
  have hpos := List.length_pos_iff.mpr hname
  induction m with
  | zero =>
      intro n pos hm _
      cases n with
      | zero => rfl
      | succ n =>
          rw [placeLoop, placeLoop, findFrom_end hname (by omega)]
  | succ m ih =>
      intro n pos hm hn
      cases n with
      | zero => rw [placeLoop, placeLoop, findFrom_end hname (by omega)]
      | succ n =>
          rw [placeLoop, placeLoop]
          cases hf : findFrom name doc pos with
          | none => rfl
          | some start =>
              have hle := (findFrom_stands hname hf).1
              dsimp only
              cases hlook : look doc name start with
              | no => exact ih n _ (by omega) (by omega)
              | stop => rfl
              | value i len =>
                  have hlt := lt_of_look hlook
                  dsimp only
                  rw [ih n _ (by omega) (by omega)]

theorem places_eq (hname : name ≠ []) (doc : List UInt8) (pos : Nat) :
    places doc name pos =
      match findFrom name doc pos with
      | none => []
      | some start =>
          match look doc name start with
          | .no => places doc name (start + name.length)
          | .stop => []
          | .value i n => (i, n) :: places doc name (i + n + 1) := by
  have hpos := List.length_pos_iff.mpr hname
  rw [places, placeLoop_rounds hname _ (doc.length + 1) pos (by omega) (by omega), placeLoop]
  cases hf : findFrom name doc pos with
  | none => rfl
  | some start =>
      have hle := (findFrom_stands hname hf).1
      dsimp only
      cases hlook : look doc name start with
      | no => exact placeLoop_rounds hname _ _ _ (by omega) (by omega)
      | stop => rfl
      | value i len =>
          have hlt := lt_of_look hlook
          dsimp only
          rw [places, placeLoop_rounds hname _ (doc.length + 1 - (i + len + 1)) _ (by omega)
            (by omega)]

/-! ### What stands at a place -/

def Blank (b : List UInt8) : Prop := ∀ c ∈ b, isSpace c = true

theorem blank_nil : Blank [] := by
  rintro c ⟨⟩

/-- The last character belongs to a name. -/
def EndsInName (before : List UInt8) : Prop := before.getLast?.any isNameChar = true

instance (before : List UInt8) : Decidable (EndsInName before) :=
  inferInstanceAs (Decidable (_ = true))

def IsQuote (q : UInt8) : Prop := q = 0x22 ∨ q = 0x27

instance (q : UInt8) : Decidable (IsQuote q) := inferInstanceAs (Decidable (_ ∨ _))

theorem isQuote_double : IsQuote 0x22 := Or.inl rfl

theorem isQuote_single : IsQuote 0x27 := Or.inr rfl

/-- `s` begins with the name, `=` and a quote; or ends where the quote should be. -/
def Opens (name s : List UInt8) : Prop := ∃ b₁ b₂ r, Blank b₁ ∧ Blank b₂ ∧
  s = name ++ (b₁ ++ 0x3D :: (b₂ ++ r)) ∧ ∀ q ∈ r.head?, IsQuote q

theorem endsInName_of_chars (before : List UInt8) {u : List UInt8} (hne : u ≠ [])
    (hu : ∀ c ∈ u, isNameChar c = true) : EndsInName (before ++ u) := by
  rw [EndsInName, List.getLast?_append_of_ne_nil _ hne, List.getLast?_eq_some_getLast hne,
    Option.any_some]
  exact hu _ (List.getLast_mem hne)

theorem before_iff (before s : List UInt8) :
    (before.length > 0 ∧ at? (before ++ s) (before.length - 1) isNameChar = true) ↔
      EndsInName before := by
  rw [EndsInName, List.getLast?_eq_getElem?]
  constructor
  · rintro ⟨hpos, h⟩
    rwa [at?, List.getElem?_append_left (by omega)] at h
  · intro h
    have hpos : before.length > 0 := by
      cases before with
      | nil => cases h
      | cons c before => exact Nat.succ_pos _
    refine ⟨hpos, ?_⟩
    rwa [at?, List.getElem?_append_left (by omega)]

theorem at?_left (before s : List UInt8) (f : UInt8 → Bool) :
    at? (before ++ s) before.length f = s.head?.any f := by
  rw [at?, List.getElem?_append_right (Nat.le_refl _), Nat.sub_self, List.head?_eq_getElem?]

/-- Blanks are passed over. -/
theorem skipSpace_blank (before : List UInt8) (hb : Blank b₁)
    (hr : ∀ c ∈ r.head?, isSpace c = false) :
    skipSpace (before ++ (b₁ ++ r)) before.length = (before ++ b₁).length := by
  rw [skipSpace, List.drop_left, takeWhile_left hb hr, List.length_append]

/-- Blanks, and what follows them. -/
theorem exists_blank (s : List UInt8) : ∃ b r, Blank b ∧ s = b ++ r ∧
    ∀ c ∈ r.head?, isSpace c = false := by
  obtain ⟨b, r, hs, hb, hr⟩ := exists_span isSpace s
  exact ⟨b, r, hb, hs, hr⟩

theorem blank_notNameChar {c : UInt8} (h : isSpace c = true) : isNameChar c = false := by
  cases hn : isNameChar c with
  | false => rfl
  | true =>
      rw [not_isSpace hn] at h
      cases h

/-- **The name, with `=` and more behind it.** -/
theorem look_assigned (hbefore : ¬ EndsInName before) (h₁ : Blank b₁) (h₂ : Blank b₂)
    (hr : ∀ c ∈ r.head?, isSpace c = false)
    (hdoc : doc = before ++ (name ++ (b₁ ++ 0x3D :: (b₂ ++ r))))
    (hi : i = (before ++ (name ++ (b₁ ++ 0x3D :: b₂))).length) :
    look doc name before.length =
      match r.head? with
      | none => .stop
      | some q =>
          if q ≠ 0x22 ∧ q ≠ 0x27 then .no
          else
            match findFrom [q] doc (i + 1) with
            | none => .stop
            | some close => .value (i + 1) (close - i - 1) := by
  have hpos : before.length + name.length = (before ++ name).length := List.length_append.symm
  have hafter : ∀ f, at? doc (before ++ name).length f =
      (b₁ ++ 0x3D :: (b₂ ++ r)).head?.any f := by
    intro f
    rw [hdoc, ← List.append_assoc]
    exact at?_left _ _ _
  have hname : at? doc (before ++ name).length isNameChar = false := by
    rw [hafter]
    cases b₁ with
    | nil => rfl
    | cons c b => exact blank_notNameChar (h₁ c List.mem_cons_self)
  have hequals : skipSpace doc (before ++ name).length = (before ++ name ++ b₁).length := by
    rw [hdoc, ← List.append_assoc]
    exact skipSpace_blank _ h₁ (by rintro c ⟨⟩; decide)
  have hassign : at? doc (before ++ name ++ b₁).length (· = 0x3D) = true := by
    have hsplit : doc = (before ++ name ++ b₁) ++ 0x3D :: (b₂ ++ r) := by
      rw [hdoc]
      simp only [List.append_assoc]
    rw [hsplit, at?_left]
    rfl
  have hquote : skipSpace doc ((before ++ name ++ b₁).length + 1) = i := by
    have hsplit : doc = (before ++ name ++ b₁ ++ [0x3D]) ++ (b₂ ++ r) := by
      rw [hdoc]
      simp only [List.append_assoc, List.cons_append, List.nil_append]
    have hone : (before ++ name ++ b₁).length + 1 = (before ++ name ++ b₁ ++ [0x3D]).length := by
      simp only [List.length_append, List.length_singleton]
    rw [hsplit, hone, skipSpace_blank _ h₂ hr, hi]
    simp only [List.append_assoc, List.cons_append, List.nil_append]
  have hhead : doc[i]? = r.head? := by
    have hsplit : doc = (before ++ (name ++ (b₁ ++ 0x3D :: b₂))) ++ r := by
      rw [hdoc]
      simp only [List.append_assoc, List.cons_append]
    rw [hsplit, hi, List.getElem?_append_right (Nat.le_refl _), Nat.sub_self,
      List.head?_eq_getElem?]
  rw [look, hpos]
  dsimp only
  rw [if_neg (by rw [hdoc, before_iff]; exact hbefore), hname, if_neg (by decide), hequals, hassign,
    if_neg (by decide), hquote, hhead]

/-- What stands behind the quote. -/
theorem drop_quote (hdoc : doc = before ++ (name ++ (b₁ ++ 0x3D :: (b₂ ++ q :: r)))) :
    doc.drop ((before ++ (name ++ (b₁ ++ 0x3D :: b₂))).length + 1) = r := by
  have hsplit : doc = (before ++ (name ++ (b₁ ++ 0x3D :: b₂)) ++ [q]) ++ r := by
    rw [hdoc]
    simp only [List.append_assoc, List.cons_append, List.nil_append]
  have hone : (before ++ (name ++ (b₁ ++ 0x3D :: b₂))).length + 1 =
      (before ++ (name ++ (b₁ ++ 0x3D :: b₂)) ++ [q]).length := by
    simp only [List.length_append, List.length_singleton]
  rw [hone, hsplit, List.drop_left]

/-- **A value.** -/
theorem look_value (hbefore : ¬ EndsInName before) (h₁ : Blank b₁) (h₂ : Blank b₂) (hq : IsQuote q)
    (hv : q ∉ v) (hdoc : doc = before ++ (name ++ (b₁ ++ 0x3D :: (b₂ ++ q :: (v ++ q :: r))))) :
    look doc name before.length =
      .value ((before ++ (name ++ (b₁ ++ 0x3D :: b₂))).length + 1) v.length := by
  have hspace : isSpace q = false := by rcases hq with rfl | rfl <;> rfl
  have hplace : findFrom [q] doc ((before ++ (name ++ (b₁ ++ 0x3D :: b₂))).length + 1) =
      some ((before ++ (name ++ (b₁ ++ 0x3D :: b₂))).length + 1 + v.length) := by
    rw [findFrom, drop_quote hdoc, find_singleton hv]
    rfl
  rw [look_assigned hbefore h₁ h₂ (by rintro c ⟨⟩; exact hspace) hdoc rfl, List.head?_cons]
  dsimp only
  rw [if_neg (by rcases hq with rfl | rfl <;> decide), hplace]
  dsimp only
  congr 1
  omega

/-- A value that never ends. -/
theorem look_stop (hbefore : ¬ EndsInName before) (h₁ : Blank b₁) (h₂ : Blank b₂) (hq : IsQuote q)
    (hr : q ∉ r) (hdoc : doc = before ++ (name ++ (b₁ ++ 0x3D :: (b₂ ++ q :: r)))) :
    look doc name before.length = .stop := by
  have hspace : isSpace q = false := by rcases hq with rfl | rfl <;> rfl
  have hplace : findFrom [q] doc ((before ++ (name ++ (b₁ ++ 0x3D :: b₂))).length + 1) = none := by
    rw [findFrom, drop_quote hdoc, find_singleton_none hr]
    rfl
  rw [look_assigned hbefore h₁ h₂ (by rintro c ⟨⟩; exact hspace) hdoc rfl, List.head?_cons]
  dsimp only
  rw [if_neg (by rcases hq with rfl | rfl <;> decide), hplace]

/-- **The name, with nothing assigned to it.** -/
theorem look_no (hdoc : doc = before ++ (name ++ t))
    (h : EndsInName before ∨ ¬ Opens name (name ++ t)) : look doc name before.length = .no := by
  by_cases hbefore : EndsInName before
  · rw [look]
    dsimp only
    rw [if_pos (by rw [hdoc, before_iff]; exact hbefore)]
  have hopens : ¬ Opens name (name ++ t) := h.resolve_left hbefore
  obtain ⟨b₁, t₁, h₁, rfl, ht₁⟩ := exists_blank t
  cases t₁ with
  | nil =>
      rw [look]
      dsimp only
      rw [if_neg (by rw [hdoc, before_iff]; exact hbefore)]
      split
      · rfl
      have hend : skipSpace doc (before ++ name).length = (before ++ name ++ b₁).length := by
        rw [hdoc, ← List.append_assoc]
        exact skipSpace_blank (r := []) _ h₁ (by rintro c ⟨⟩)
      have hassign : at? doc (before ++ name ++ b₁).length (· = 0x3D) = false := by
        have hsplit : doc = (before ++ name ++ b₁) ++ [] := by
          rw [hdoc]
          simp only [List.append_assoc]
        rw [hsplit, at?_left]
        rfl
      rw [← List.length_append, hend, hassign, if_pos (by decide)]
  | cons c t₁ =>
      by_cases hc : c = 0x3D
      · subst hc
        obtain ⟨b₂, r, h₂, rfl, hr⟩ := exists_blank t₁
        rw [look_assigned hbefore h₁ h₂ hr hdoc rfl]
        cases r with
        | nil => exact absurd ⟨b₁, b₂, [], h₁, h₂, rfl, by rintro c ⟨⟩⟩ hopens
        | cons q r =>
            have hquote : ¬ IsQuote q := fun hq =>
              hopens ⟨b₁, b₂, q :: r, h₁, h₂, rfl, by rintro c ⟨⟩; exact hq⟩
            rw [List.head?_cons]
            dsimp only
            rw [if_pos (not_or.mp hquote)]
      · rw [look]
        dsimp only
        rw [if_neg (by rw [hdoc, before_iff]; exact hbefore)]
        split
        · rfl
        have hassign : at? (before ++ name ++ b₁ ++ c :: t₁) (before ++ name ++ b₁).length
            (· = 0x3D) = false := by
          rw [at?_left]
          simpa using hc
        rw [← List.length_append, hdoc, ← List.append_assoc,
          skipSpace_blank _ h₁ (by rintro d ⟨⟩; exact ht₁ c rfl), ← List.append_assoc, hassign,
          if_pos (by decide)]

/-! ### The scan from one place on -/

/-- **A place at which nothing is assigned to the name is passed over.**  By strong induction on
what is left of the text: if the name stands here, the search goes on behind it, and at the places
between there is a character of a name in front. -/
theorem places_next (hname : IsName name) (n : Nat) : ∀ (before : List UInt8) (c : UInt8)
    (s : List UInt8), s.length = n → doc = before ++ c :: s →
      (EndsInName before ∨ ¬ Opens name (c :: s)) →
      places doc name before.length = places doc name (before.length + 1) := by
  induction n using Nat.strongRecOn with
  | ind n ih =>
      intro before c s hn hdoc h
      have hdrop : doc.drop before.length = c :: s := by rw [hdoc, List.drop_left]
      by_cases hst : Stands name doc before.length
      · obtain ⟨t, ht⟩ := hst
        rw [hdrop] at ht
        have hfind : findFrom name doc before.length = some before.length := by
          rw [findFrom, hdrop, find_of_prefix ⟨t, ht⟩]
          rfl
        have hlook : look doc name before.length = .no := by
          apply look_no (t := t) (by rw [hdoc, ht])
          rwa [ht]
        rw [places_eq hname.ne, hfind]
        dsimp only
        rw [hlook]
        dsimp only
        obtain ⟨c', more, rfl⟩ := List.exists_cons_of_ne_nil hname.ne
        rw [List.cons_append, List.cons.injEq] at ht
        obtain ⟨rfl, ht⟩ := ht
        -- the rest of the name, character by character
        have hrest : ∀ w u : List UInt8, u ++ w = more →
            places doc (c' :: more) (before ++ (c' :: u)).length =
              places doc (c' :: more) (before.length + (c' :: more).length) := by
          intro w
          induction w with
          | nil =>
              intro u hu
              rw [List.append_nil] at hu
              rw [hu, List.length_append]
          | cons d w ihw =>
              intro u hu
              have hends : EndsInName (before ++ (c' :: u)) := by
                refine endsInName_of_chars before (List.cons_ne_nil _ _) ?_
                intro x hx
                apply hname.chars
                rw [← hu, ← List.cons_append]
                exact List.mem_append_left _ hx
              have hstep := ih (w ++ t).length (by rw [← hn, ← ht, ← hu]; simp; omega)
                (before ++ (c' :: u)) d (w ++ t) rfl (by rw [hdoc, ← ht, ← hu]; simp)
                (Or.inl hends)
              rw [hstep]
              have hnext := ihw (u ++ [d]) (by rw [← hu]; simp)
              rw [← hnext]
              simp [Nat.add_assoc]
        have hfirst := hrest more [] rfl
        rw [List.length_append] at hfirst
        exact hfirst.symm
      · have hfind : findFrom name doc before.length = findFrom name doc (before.length + 1) := by
          rw [findFrom, findFrom, ← List.drop_drop, hdrop]
          rw [find, if_neg (by rwa [Stands, hdrop] at hst)]
          cases hk : find name s with
          | none => simp [hk]
          | some k => simp [hk, Nat.add_comm, Nat.add_left_comm]
        rw [places_eq hname.ne, places_eq hname.ne doc (before.length + 1), hfind]

/-- **A stretch of such places.** -/
theorem places_skip (hname : IsName name) : ∀ (s before t : List UInt8), doc = before ++ (s ++ t) →
    (∀ u c w, s = u ++ c :: w → EndsInName (before ++ u) ∨ ¬ Opens name (c :: (w ++ t))) →
    places doc name before.length = places doc name (before ++ s).length := by
  intro s
  induction s with
  | nil => intro before t _ _; rw [List.append_nil]
  | cons c s ih =>
      intro before t hdoc h
      have hfirst := h [] c s rfl
      rw [List.append_nil] at hfirst
      rw [places_next hname _ before c (s ++ t) rfl hdoc hfirst]
      have hnext := ih (before ++ [c]) t (by rw [hdoc]; simp) (by
        intro u d w hs
        have hmiss := h (c :: u) d w (by rw [hs]; rfl)
        rwa [← List.singleton_append, ← List.append_assoc] at hmiss)
      rw [List.length_append, List.length_singleton] at hnext
      rw [hnext]
      simp

theorem findFrom_left (h : name <+: s) (before : List UInt8) :
    findFrom name (before ++ s) before.length = some before.length := by
  rw [findFrom, List.drop_left, find_of_prefix h]
  rfl

/-- **A value** is found, and the scan goes on behind it. -/
theorem places_value (hname : IsName name) (hbefore : ¬ EndsInName before) (h₁ : Blank b₁)
    (h₂ : Blank b₂) (hq : IsQuote q) (hv : q ∉ v)
    (hdoc : doc = before ++ (name ++ (b₁ ++ 0x3D :: (b₂ ++ q :: (v ++ q :: r))))) :
    places doc name before.length =
      ((before ++ (name ++ (b₁ ++ 0x3D :: b₂))).length + 1, v.length) ::
        places doc name (before ++ (name ++ (b₁ ++ 0x3D :: (b₂ ++ q :: (v ++ [q]))))).length := by
  have hfind : findFrom name doc before.length = some before.length := by
    rw [hdoc]
    exact findFrom_left ⟨_, rfl⟩ before
  rw [places_eq hname.ne, hfind]
  dsimp only
  rw [look_value hbefore h₁ h₂ hq hv hdoc]
  dsimp only
  congr 2
  simp only [List.length_append, List.length_cons, List.length_nil]
  omega

/-- A value that never ends ends the scan. -/
theorem places_stop (hname : IsName name) (hbefore : ¬ EndsInName before) (h₁ : Blank b₁)
    (h₂ : Blank b₂) (hq : IsQuote q) (hr : q ∉ r)
    (hdoc : doc = before ++ (name ++ (b₁ ++ 0x3D :: (b₂ ++ q :: r)))) :
    places doc name before.length = [] := by
  have hfind : findFrom name doc before.length = some before.length := by
    rw [hdoc]
    exact findFrom_left ⟨_, rfl⟩ before
  rw [places_eq hname.ne, hfind]
  dsimp only
  rw [look_stop hbefore h₁ h₂ hq hr hdoc]

theorem places_end (hname : IsName name) (doc : List UInt8) : places doc name doc.length = [] := by
  have hfind : findFrom name doc doc.length = none := by
    cases hf : findFrom name doc doc.length with
    | none => rfl
    | some k =>
        have hpos := List.length_pos_iff.mpr hname.ne
        obtain ⟨hle, -, hlen⟩ := findFrom_stands hname.ne hf
        omega
  rw [places_eq hname.ne, hfind]

end Ilo2.Ribcl
