import Ilo2.Ribcl.Places

/-!
# Quoted values that hold text

A document is made of attributes here: what stands before a name, the name, `=`, and a value in
quotes that holds any text without its own delimiter, as `MESSAGE` does when it quotes a request.
`ribcl_attr_values` looks for the bare name, also in the values of other attributes.

* `mimic` - the first place in a value that looks like an attribute with the name.
* `quoted_iff` - **when the scan returns the values of the attributes so named**: no other value
  looks like one, or the first that does has no end and nothing of the name comes after it.
* `quoted_hits` - a message that quotes a status.
-/

namespace Ilo2.Ribcl

open Text Strtol
open Tls (ascii)

/-! ### Documents -/

/-- An attribute, with what stands before it: the end of the attribute or tag before, text, and
the name of its tag. -/
structure Attr where
  gap : List UInt8
  name : List UInt8
  before : List UInt8
  after : List UInt8
  quote : UInt8
  value : List UInt8
  gap_plain : 0x3D ∉ gap
  gap_end : ¬ EndsInName gap
  isName : IsName name
  before_blank : Blank before
  after_blank : Blank after
  isQuote : IsQuote quote
  delimited : quote ∉ value

def Attr.text (a : Attr) : List UInt8 :=
  a.gap ++ (a.name ++ (a.before ++ 0x3D :: (a.after ++ a.quote :: (a.value ++ [a.quote]))))

/-- Where the value starts in the text. -/
def Attr.offset (a : Attr) : Nat := (a.gap ++ (a.name ++ (a.before ++ 0x3D :: a.after))).length + 1

structure Document where
  attrs : List Attr
  tail : List UInt8
  tail_plain : 0x3D ∉ tail

def Document.text (d : Document) : List UInt8 := d.attrs.flatMap Attr.text ++ d.tail

/-- The places of the values of the attributes so named, where the text of the first attribute
starts at `pos`. -/
def namedPlaces (name : List UInt8) : (pos : Nat) → List Attr → List (Nat × Nat)
  | _, [] => []
  | pos, a :: as =>
      let rest := namedPlaces name (pos + a.text.length) as
      if a.name = name then (pos + a.offset, a.value.length) :: rest else rest

/-- The values of the attributes so named. -/
def Document.values (d : Document) (name : List UInt8) : List (List UInt8) :=
  (d.attrs.filter fun a => a.name = name).map (·.value)

/-- **Quoted values are opaque**: the scan finds the values of the attributes so named and nothing
else, at their places and in their order; and the result of a reply is that of its `STATUS`
attributes. -/
structure Exact (d : Document) (name : List UInt8) : Prop where
  places : places d.text name 0 = namedPlaces name 0 d.attrs
  values : ribclAttrValues d.text name = d.values name
  ok : name = ascii "STATUS" → ((ribclParse d.text).ok = true ↔
    d.values name ≠ [] ∧ ∀ s ∈ d.values name, strtoul 0 s = 0)

/-! ### Text that looks like an attribute -/

/-- The name, `=` and a quote at the start of a text: the quote, and what follows it. -/
def assigned (name s : List UInt8) : Option (UInt8 × List UInt8) :=
  if name <+: s then
    match (s.drop name.length).dropWhile isSpace with
    | [] => none
    | c :: r =>
        if c = 0x3D then
          match r.dropWhile isSpace with
          | [] => none
          | q :: r => if IsQuote q then some (q, r) else none
        else none
  else none

/-- The first such place in a text; `inName` says whether a character of a name stands before. -/
def mimic (name : List UInt8) : (inName : Bool) → List UInt8 → Option (UInt8 × List UInt8)
  | _, [] => none
  | inName, c :: s =>
      match if inName then none else assigned name (c :: s) with
      | some m => some m
      | none => mimic name (isNameChar c) s

/-- No other value looks like an attribute with the name; or the first that does opens a quote
that is never closed, and there is no attribute with the name behind it. -/
def harmless (name tail : List UInt8) : List Attr → Bool
  | [] => true
  | a :: as =>
      if a.name = name then harmless name tail as
      else
        match mimic name false (a.value ++ [a.quote]) with
        | none => harmless name tail as
        | some (q, r) =>
            q ∉ r ++ (as.flatMap Attr.text ++ tail) ∧ ∀ b ∈ as, b.name ≠ name

variable {name s t x y z u v w b₁ b₂ c₁ c₂ r before doc tail : List UInt8} {q : UInt8} {b : Bool}

theorem not_isQuote {c : UInt8} (h : isNameChar c = true ∨ isSpace c = true ∨ c = 0x3D) :
    ¬ IsQuote c := by
  rintro (rfl | rfl)
  · exact absurd h (by decide)
  · exact absurd h (by decide)

/-- What is assigned, in terms of the text. -/
theorem assigned_iff : assigned name s = some (q, r) ↔
    ∃ b₁ b₂, Blank b₁ ∧ Blank b₂ ∧ IsQuote q ∧ s = name ++ (b₁ ++ 0x3D :: (b₂ ++ q :: r)) := by
  have hquote : IsQuote q → isSpace q = false := by
    rintro (rfl | rfl)
    · rfl
    · rfl
  constructor
  · intro h
    rw [assigned] at h
    split at h
    · rename_i hst
      obtain ⟨t, rfl⟩ := hst
      rw [List.drop_left] at h
      obtain ⟨b₁, t₁, h₁, rfl, ht₁⟩ := exists_blank t
      have hdrop₁ : (b₁ ++ t₁).dropWhile isSpace = t₁ := by
        rw [List.dropWhile_append_of_pos h₁]
        cases t₁ with
        | nil => rfl
        | cons c t₁ => rw [List.dropWhile_cons_of_neg (by simp [ht₁ c rfl])]
      rw [hdrop₁] at h
      cases t₁ with
      | nil => cases h
      | cons c t₁ =>
          dsimp only at h
          split at h
          · rename_i hc
            subst hc
            obtain ⟨b₂, t₂, h₂, rfl, ht₂⟩ := exists_blank t₁
            have hdrop₂ : (b₂ ++ t₂).dropWhile isSpace = t₂ := by
              rw [List.dropWhile_append_of_pos h₂]
              cases t₂ with
              | nil => rfl
              | cons c t₂ => rw [List.dropWhile_cons_of_neg (by simp [ht₂ c rfl])]
            rw [hdrop₂] at h
            cases t₂ with
            | nil => cases h
            | cons c t₂ =>
                dsimp only at h
                split at h
                · rename_i hq
                  cases h
                  exact ⟨b₁, b₂, h₁, h₂, hq, rfl⟩
                · cases h
          · cases h
    · cases h
  · rintro ⟨b₁, b₂, h₁, h₂, hq, rfl⟩
    have hequals : isSpace 0x3D = false := rfl
    rw [assigned, if_pos ⟨_, rfl⟩, List.drop_left, List.dropWhile_append_of_pos h₁,
      List.dropWhile_cons_of_neg (by simp [hequals])]
    dsimp only
    rw [if_pos rfl, List.dropWhile_append_of_pos h₂,
      List.dropWhile_cons_of_neg (by simp [hquote hq])]
    dsimp only
    rw [if_pos hq]

theorem endsInName_concat (before : List UInt8) (c : UInt8) :
    EndsInName (before ++ [c]) ↔ isNameChar c = true := by
  rw [EndsInName, List.getLast?_concat, Option.any_some]

theorem endsInName_append (before : List UInt8) (hs : s ≠ []) :
    EndsInName (before ++ s) ↔ EndsInName s := by
  rw [EndsInName, EndsInName, List.getLast?_append_of_ne_nil _ hs]

/-- A text without such a place. -/
theorem mimic_none : ∀ {s before : List UInt8} {b : Bool}, (EndsInName before ↔ b = true) →
    mimic name b s = none → ∀ u c w, s = u ++ c :: w →
      EndsInName (before ++ u) ∨ assigned name (c :: w) = none := by
  intro s
  induction s with
  | nil =>
      intro before b _ _ u c w h
      simp at h
  | cons d s ih =>
      intro before b hb h u c w hs
      rw [mimic] at h
      split at h
      · cases h
      · rename_i hnone
        cases u with
        | nil =>
            rw [List.nil_append, List.cons.injEq] at hs
            obtain ⟨rfl, rfl⟩ := hs
            rw [List.append_nil]
            cases b with
            | true => exact Or.inl (hb.mpr rfl)
            | false => exact Or.inr (by simpa using hnone)
        | cons e u =>
            rw [List.cons_append, List.cons.injEq] at hs
            obtain ⟨rfl, rfl⟩ := hs
            have hrest := ih (endsInName_concat before d) h u c w rfl
            rwa [List.append_assoc, List.singleton_append] at hrest

/-- A text with such a place, and none before it. -/
theorem mimic_some : ∀ {s before : List UInt8} {b : Bool}, (EndsInName before ↔ b = true) →
    mimic name b s = some (q, r) → ∃ u x, s = u ++ x ∧ ¬ EndsInName (before ++ u) ∧
      assigned name x = some (q, r) ∧ ∀ u' c w, u = u' ++ c :: w →
        EndsInName (before ++ u') ∨ assigned name (c :: (w ++ x)) = none := by
  intro s
  induction s with
  | nil => intro before b _ h; cases h
  | cons d s ih =>
      intro before b hb h
      rw [mimic] at h
      split at h
      · rename_i m hm
        cases h
        cases b with
        | true => cases hm
        | false =>
            refine ⟨[], d :: s, rfl, ?_, hm, ?_⟩
            · rw [List.append_nil, hb]
              decide
            · intro u' c w hu
              simp at hu
      · rename_i hnone
        obtain ⟨u, x, rfl, hends, hx, hbefore⟩ := ih (endsInName_concat before d) h
        refine ⟨d :: u, x, rfl, ?_, hx, ?_⟩
        · rwa [List.append_assoc, List.singleton_append] at hends
        · intro u' c w hu
          cases u' with
          | nil =>
              rw [List.nil_append, List.cons.injEq] at hu
              obtain ⟨rfl, rfl⟩ := hu
              rw [List.append_nil]
              cases b with
              | true => exact Or.inl (hb.mpr rfl)
              | false => exact Or.inr (by simpa using hnone)
          | cons e u' =>
              rw [List.cons_append, List.cons.injEq] at hu
              obtain ⟨rfl, rfl⟩ := hu
              have hrest := hbefore u' c w rfl
              rwa [List.append_assoc, List.singleton_append] at hrest

/-! ### Cutting a text -/

/-- Two cuts at the first character of a kind. -/
theorem split_first {α : Type} {a : α} {x x' y y' : List α} (h : a ∉ x) (h' : a ∉ x')
    (heq : x ++ a :: y = x' ++ a :: y') : x = x' ∧ y = y' := by
  induction x generalizing x' with
  | nil =>
      cases x' with
      | nil => exact ⟨rfl, (List.cons.inj heq).2⟩
      | cons c x' => exact absurd ((List.cons.inj heq).1 ▸ List.mem_cons_self) h'
  | cons c x ih =>
      cases x' with
      | nil => exact absurd ((List.cons.inj heq).1.symm ▸ List.mem_cons_self) h
      | cons c' x' =>
          obtain ⟨rfl, hrest⟩ := List.cons.inj heq
          obtain ⟨rfl, rfl⟩ := ih (fun hx => h (List.mem_cons_of_mem _ hx))
            (fun hx => h' (List.mem_cons_of_mem _ hx)) hrest
          exact ⟨rfl, rfl⟩

/-- Two cuts between a name and blanks. -/
theorem split_blank (h₁ : Blank b₁) (h₂ : Blank b₂) (hx : EndsInName x) (hy : EndsInName y)
    (heq : x ++ b₁ = y ++ b₂) : x = y := by
  have hlonger : ∀ {x y b₁ b₂ : List UInt8}, Blank b₂ → EndsInName x → ∀ z, x = y ++ z →
      b₂ = z ++ b₁ → x = y := by
    intro x y b₁ b₂ h₂ hx z hz hb
    cases hlast : z.getLast? with
    | none => rw [hz, List.getLast?_eq_none_iff.mp hlast, List.append_nil]
    | some c =>
        have hne : z ≠ [] := by
          rintro rfl
          cases hlast
        rw [hz, endsInName_append _ hne, EndsInName, hlast, Option.any_some] at hx
        have hspace := h₂ c (hb ▸ List.mem_append_left _ (List.mem_of_getLast? hlast))
        rw [blank_notNameChar hspace] at hx
        cases hx
  rcases List.append_eq_append_iff.mp heq with ⟨z, hz, hb⟩ | ⟨z, hz, hb⟩
  · exact (hlonger h₁ hy z hz hb).symm
  · exact hlonger h₂ hx z hz hb

theorem IsName.ends (hname : IsName name) : EndsInName name :=
  endsInName_of_chars [] hname.ne hname.chars

/-- There is no `=` in a name and the blanks behind it. -/
theorem plain_name (hname : IsName name) (hb : Blank b₁) : 0x3D ∉ name ++ b₁ := by
  intro hmem
  rcases List.mem_append.mp hmem with h | h
  · exact absurd (hname.chars _ h) (by decide)
  · exact absurd (hb _ h) (by decide)

/-- The text of an attribute up to its value assigns to no name but its own. -/
theorem opens_iff_name (hname : IsName name) (hx : EndsInName x) (hplain : 0x3D ∉ x)
    (hb : Blank c₁) (h : Opens name (x ++ (c₁ ++ 0x3D :: y))) : name = x := by
  obtain ⟨b₁, b₂, r, h₁, -, heq, -⟩ := h
  have hblank : 0x3D ∉ x ++ c₁ := by
    intro hmem
    rcases List.mem_append.mp hmem with h | h
    · exact hplain h
    · exact absurd (hb _ h) (by decide)
  rw [← List.append_assoc, ← List.append_assoc] at heq
  obtain ⟨hfront, -⟩ := split_first hblank (plain_name hname h₁) heq
  exact (split_blank hb h₁ hx hname.ends hfront).symm

/-- Where no character of a name stands, no name does. -/
theorem not_opens_of_head (hname : IsName name) {c : UInt8} (hc : isNameChar c = false) :
    ¬ Opens name (c :: s) := by
  rintro ⟨b₁, b₂, r, -, -, heq, -⟩
  obtain ⟨d, more, rfl⟩ := List.exists_cons_of_ne_nil hname.ne
  rw [List.cons_append, List.cons.injEq] at heq
  rw [heq.1, hname.chars d List.mem_cons_self] at hc
  cases hc

/-- A quote ends what can be assigned: what comes behind it makes no difference. -/
theorem not_opens_append (hname : IsName name) (hq : IsQuote q)
    (h : assigned name (x ++ [q]) = none) (more : List UInt8) :
    ¬ Opens name (x ++ q :: more) := by
  rintro ⟨b₁, b₂, r, h₁, h₂, heq, hr⟩
  have hfront : ∀ c ∈ name ++ (b₁ ++ 0x3D :: b₂), ¬ IsQuote c := by
    intro c hc
    apply not_isQuote
    rcases List.mem_append.mp hc with hc | hc
    · exact Or.inl (hname.chars c hc)
    rcases List.mem_append.mp hc with hc | hc
    · exact Or.inr (Or.inl (h₁ c hc))
    rcases List.mem_cons.mp hc with hc | hc
    · exact Or.inr (Or.inr hc)
    · exact Or.inr (Or.inl (h₂ c hc))
  have hnone : ∀ p z, IsQuote p → x ++ [q] = name ++ (b₁ ++ 0x3D :: (b₂ ++ p :: z)) → False := by
    intro p z hp hx
    have hsome := assigned_iff.mpr ⟨b₁, b₂, h₁, h₂, hp, hx⟩
    rw [h] at hsome
    cases hsome
  have hcut : x ++ q :: more = (name ++ (b₁ ++ 0x3D :: b₂)) ++ r := by
    rw [heq]
    simp only [List.append_assoc, List.cons_append]
  rcases List.append_eq_append_iff.mp hcut with ⟨z, hz, hrest⟩ | ⟨z, hz, hrest⟩
  · cases z with
    | nil => exact hnone q [] hq (by rw [← List.append_nil x, ← hz]; simp)
    | cons c z =>
        have hc : q = c := (List.cons.inj hrest).1
        exact hfront q (by rw [hz, hc]; simp) hq
  · cases z with
    | nil => exact hnone q [] hq (by rw [hz]; simp)
    | cons c z =>
        have hc : IsQuote c := hr c (by rw [hrest]; rfl)
        exact hnone c (z ++ [q]) hc (by rw [hz]; simp)

/-! ### The attributes, one by one -/

section Walk

variable {a : Attr} {as : List Attr}

theorem text_append (a : Attr) (t : List UInt8) : a.text ++ t =
    a.gap ++ (a.name ++ (a.before ++ 0x3D :: (a.after ++ a.quote :: (a.value ++ a.quote :: t)))) := by
  rw [Attr.text]
  simp only [List.append_assoc, List.cons_append, List.nil_append]

theorem not_endsInName_gap (hbefore : ¬ EndsInName before) (a : Attr) :
    ¬ EndsInName (before ++ a.gap) := by
  cases hg : a.gap with
  | nil => rwa [List.append_nil]
  | cons c g =>
      rw [endsInName_append _ (List.cons_ne_nil c g), ← hg]
      exact a.gap_end

theorem not_isNameChar_quote (a : Attr) : isNameChar a.quote = false := by
  rcases a.isQuote with h | h
  · rw [h]
    rfl
  · rw [h]
    rfl

/-- **Before the name** nothing is found: what is assigned there is assigned to a name that ends
as this one does, and it would begin in the gap. -/
theorem places_gap (hname : IsName name) (hdoc : doc = before ++ (a.text ++ t)) :
    places doc name before.length = places doc name (before ++ a.gap).length := by
  rw [text_append] at hdoc
  apply places_skip hname a.gap before _ hdoc
  intro u c w hu
  refine Or.inr fun hopens => a.gap_end ?_
  have hplain : 0x3D ∉ c :: w ++ a.name := by
    intro hmem
    rcases List.mem_append.mp hmem with h | h
    · exact a.gap_plain (hu ▸ List.mem_append_right u h)
    · exact absurd (a.isName.chars _ h) (by decide)
  have hends : EndsInName (c :: w ++ a.name) :=
    (endsInName_append _ a.isName.ne).mpr a.isName.ends
  have hself : name = c :: w ++ a.name := by
    apply opens_iff_name (y := a.after ++ a.quote :: (a.value ++ a.quote :: t)) hname hends hplain
      a.before_blank
    rw [List.append_assoc]
    exact hopens
  rw [hu]
  refine endsInName_of_chars _ (List.cons_ne_nil c w) ?_
  intro d hd
  apply hname.chars
  rw [hself]
  exact List.mem_append_left _ hd

/-- **Up to the value of another attribute** nothing is found. -/
theorem places_head (hname : IsName name) (hne : a.name ≠ name)
    (hdoc : doc = before ++ (a.text ++ t)) :
    places doc name before.length = places doc name (before.length + a.offset) := by
  have htext := hdoc
  rw [text_append] at htext
  -- the name
  have hone := @places_skip doc name hname a.name (before ++ a.gap) (a.before ++ 0x3D ::
      (a.after ++ a.quote :: (a.value ++ a.quote :: t)))
    (by rw [htext]; simp only [List.append_assoc]) (by
      intro u c w hu
      cases u with
      | nil =>
          refine Or.inr fun hopens => hne ?_
          rw [List.nil_append] at hu
          have hself := opens_iff_name hname (hu ▸ a.isName.ends) (fun hmem =>
            absurd (a.isName.chars _ (hu ▸ hmem)) (by decide)) a.before_blank hopens
          rw [hu, hself]
      | cons d u =>
          refine Or.inl (endsInName_of_chars _ (List.cons_ne_nil d u) ?_)
          intro e he
          apply a.isName.chars
          rw [hu]
          exact List.mem_append_left _ he)
  -- `=`, blanks and the quote
  have htwo := @places_skip doc name hname (a.before ++ 0x3D :: (a.after ++ [a.quote]))
    (before ++ a.gap ++ a.name) (a.value ++ a.quote :: t)
    (by rw [htext]; simp only [List.append_assoc, List.cons_append, List.nil_append]) (by
      intro u c w hu
      refine Or.inr (not_opens_of_head hname ?_)
      have hmem : c ∈ a.before ++ 0x3D :: (a.after ++ [a.quote]) := by rw [hu]; simp
      simp only [List.mem_append, List.mem_cons, List.not_mem_nil, or_false] at hmem
      rcases hmem with h | rfl | h | rfl
      · exact blank_notNameChar (a.before_blank c h)
      · rfl
      · exact blank_notNameChar (a.after_blank c h)
      · exact not_isNameChar_quote a)
  rw [places_gap hname hdoc, hone, htwo, Attr.offset]
  congr 1
  simp only [List.length_append, List.length_cons, List.length_nil]
  omega

/-- **An attribute with the name.** -/
theorem places_named (hname : IsName name) (hbefore : ¬ EndsInName before) (heq : a.name = name)
    (hdoc : doc = before ++ (a.text ++ t)) :
    places doc name before.length = (before.length + a.offset, a.value.length) ::
      places doc name (before ++ a.text).length := by
  have htext : doc = (before ++ a.gap) ++ (name ++ (a.before ++ 0x3D :: (a.after ++ a.quote ::
      (a.value ++ a.quote :: t)))) := by
    rw [hdoc, text_append, heq, List.append_assoc]
  rw [places_gap hname hdoc, places_value hname (not_endsInName_gap hbefore a) a.before_blank
    a.after_blank a.isQuote a.delimited htext, Attr.offset, Attr.text, heq]
  congr 2
  · simp only [List.length_append]
    omega
  · simp only [List.append_assoc]

/-- The text of an attribute, up to its value and from there on. -/
theorem text_split (a : Attr) : ∃ head, a.text = head ++ (a.value ++ [a.quote]) ∧
    head.length = a.offset ∧ ¬ EndsInName head := by
  refine ⟨a.gap ++ (a.name ++ (a.before ++ 0x3D :: (a.after ++ [a.quote]))), ?_, ?_, ?_⟩
  · rw [Attr.text]
    simp only [List.append_assoc, List.cons_append, List.nil_append]
  · rw [Attr.offset]
    simp only [List.length_append, List.length_cons, List.length_nil]
    omega
  · have hlast : a.gap ++ (a.name ++ (a.before ++ 0x3D :: (a.after ++ [a.quote]))) =
        (a.gap ++ (a.name ++ (a.before ++ 0x3D :: a.after))) ++ [a.quote] := by
      simp only [List.append_assoc, List.cons_append]
    rw [hlast, endsInName_concat, not_isNameChar_quote]
    decide

theorem not_endsInName_text (before : List UInt8) (a : Attr) : ¬ EndsInName (before ++ a.text) := by
  obtain ⟨head, htext, -, -⟩ := text_split a
  rw [htext, ← List.append_assoc, ← List.append_assoc, endsInName_concat, not_isNameChar_quote]
  decide

/-- All places are behind the start. -/
theorem lt_namedPlaces : ∀ {as : List Attr} {pos : Nat}, ∀ p ∈ namedPlaces name pos as,
    pos < p.1 := by
  intro as
  induction as with
  | nil => intro pos p hp; cases hp
  | cons a as ih =>
      intro pos p hp
      have hrest : p ∈ namedPlaces name (pos + a.text.length) as → pos < p.1 := by
        intro h
        exact Nat.lt_of_le_of_lt (Nat.le_add_right _ _) (ih p h)
      rw [namedPlaces] at hp
      split at hp
      · rcases List.mem_cons.mp hp with rfl | hp
        · show pos < pos + a.offset
          rw [Attr.offset]
          omega
        · exact hrest hp
      · exact hrest hp

theorem namedPlaces_eq_nil : ∀ {as : List Attr} {pos : Nat},
    namedPlaces name pos as = [] ↔ ∀ b ∈ as, b.name ≠ name := by
  intro as
  induction as with
  | nil => intro pos; simp [namedPlaces]
  | cons a as ih =>
      intro pos
      rw [namedPlaces, List.forall_mem_cons]
      split
      · rename_i h
        simp [h]
      · rename_i h
        rw [ih]
        exact ⟨fun hall => ⟨h, hall⟩, fun hall => hall.2⟩

/-- What is assigned at a place in a value is assigned within the value. -/
theorem not_opens_value (hname : IsName name) {u w : List UInt8} {c : UInt8} (t : List UInt8)
    (hu : a.value ++ [a.quote] = u ++ c :: w) (hnone : assigned name (c :: w) = none) :
    ¬ Opens name (c :: (w ++ t)) := by
  obtain ⟨x, hx⟩ : ∃ x, c :: w = x ++ [a.quote] := by
    have hlast : (c :: w).getLast? = some a.quote := by
      rw [← List.getLast?_append_of_ne_nil u (List.cons_ne_nil c w), ← hu, List.getLast?_concat]
    exact ⟨_, (List.dropLast_append_getLast? a.quote hlast).symm⟩
  rw [hx] at hnone
  have hnot := not_opens_append hname a.isQuote hnone t
  rwa [← List.singleton_append, ← List.append_assoc, ← hx] at hnot

/-- **A value in which nothing is assigned** is passed over. -/
theorem places_quiet (hname : IsName name) (hbefore : ¬ EndsInName before)
    (hm : mimic name false (a.value ++ [a.quote]) = none)
    (hdoc : doc = before ++ ((a.value ++ [a.quote]) ++ t)) :
    places doc name before.length = places doc name (before ++ (a.value ++ [a.quote])).length := by
  have hfalse : EndsInName before ↔ false = true := by simpa using hbefore
  refine places_skip hname (a.value ++ [a.quote]) before t hdoc ?_
  intro u c w hu
  exact (mimic_none hfalse hm u c w hu).imp_right (not_opens_value hname t hu)

/-- **A value in which something is assigned**: the scan stops there, or finds a place in it. -/
theorem places_mimic (hname : IsName name) (hbefore : ¬ EndsInName before) {q : UInt8}
    {r : List UInt8} (hm : mimic name false (a.value ++ [a.quote]) = some (q, r))
    (hdoc : doc = before ++ ((a.value ++ [a.quote]) ++ t)) :
    (q ∉ r ++ t → places doc name before.length = []) ∧
      (q ∈ r ++ t → ∃ p ps, places doc name before.length = p :: ps ∧
        p.1 ≤ (before ++ (a.value ++ [a.quote])).length) := by
  have hfalse : EndsInName before ↔ false = true := by simpa using hbefore
  obtain ⟨u, x, hux, hu, hx, hnone⟩ := mimic_some hfalse hm
  obtain ⟨b₁, b₂, h₁, h₂, hq, rfl⟩ := assigned_iff.mp hx
  have hvalue := hdoc
  rw [hux] at hvalue
  have hskip := @places_skip doc name hname u before _
    (by rw [hvalue, List.append_assoc u]) (by
      intro u' c w hu'
      have hsuffix := hnone u' c w hu'
      have hin := @not_opens_value name a hname u' (w ++ (name ++ (b₁ ++ 0x3D :: (b₂ ++ q :: r)))) c
        t (by rw [hux, hu', List.append_assoc, List.cons_append])
      rw [List.append_assoc w] at hin
      exact hsuffix.imp_right hin)
  have hplace : doc = (before ++ u) ++ (name ++ (b₁ ++ 0x3D :: (b₂ ++ q :: (r ++ t)))) := by
    rw [hvalue]
    simp only [List.append_assoc, List.cons_append]
  rw [hskip]
  constructor
  · intro hopen
    exact places_stop hname hu h₁ h₂ hq hopen hplace
  · intro hclosed
    obtain ⟨v, rest, hv, hqv⟩ := List.eq_append_cons_of_mem hclosed
    rw [hv] at hplace
    refine ⟨_, _, places_value hname hu h₁ h₂ hq hqv hplace, ?_⟩
    rw [hux]
    simp only [List.length_append, List.length_cons]
    omega

/-- **The scan of the attributes**, from one of them on.  By induction on the attributes; the text
before them does not end in a name, since a value's quote ends it. -/
theorem places_iff (hname : IsName name) (htail : 0x3D ∉ tail) : ∀ (as : List Attr)
    (before : List UInt8), doc = before ++ (as.flatMap Attr.text ++ tail) → ¬ EndsInName before →
      (places doc name before.length = namedPlaces name before.length as ↔
        harmless name tail as = true) := by
  intro as
  induction as with
  | nil =>
      intro before hdoc _
      have hskip := @places_skip doc name hname tail before [] (by rw [hdoc]; simp) (by
        intro u c w hu
        refine Or.inr ?_
        rintro ⟨b₁, b₂, r, -, -, heq, -⟩
        rw [List.append_nil] at heq
        apply htail
        rw [hu, heq]
        simp)
      have hend : (before ++ tail).length = doc.length := by rw [hdoc]; simp
      rw [hskip, hend, places_end hname]
      simp [namedPlaces, harmless]
  | cons a as ih =>
      intro before hdoc hbefore
      rw [List.flatMap_cons, List.append_assoc] at hdoc
      have hrest := ih (before ++ a.text) (by rw [hdoc, List.append_assoc])
        (not_endsInName_text before a)
      rw [namedPlaces, harmless, ← List.length_append]
      by_cases heq : a.name = name
      · rw [if_pos heq, if_pos heq, places_named hname hbefore heq hdoc, List.cons_inj_right]
        exact hrest
      · rw [if_neg heq, if_neg heq, places_head hname heq hdoc]
        obtain ⟨head, htext, hoffset, hends⟩ := text_split a
        have hstart : before.length + a.offset = (before ++ head).length := by
          rw [List.length_append, hoffset]
        have hhead : ¬ EndsInName (before ++ head) := by
          intro h
          cases head with
          | nil => exact hbefore (by rwa [List.append_nil] at h)
          | cons c g => exact hends ((endsInName_append _ (List.cons_ne_nil c g)).mp h)
        have hvalue : doc = (before ++ head) ++ ((a.value ++ [a.quote]) ++
            (as.flatMap Attr.text ++ tail)) := by
          rw [hdoc, htext]
          simp only [List.append_assoc]
        have hend : (before ++ head) ++ (a.value ++ [a.quote]) = before ++ a.text := by
          rw [htext, List.append_assoc]
        rw [hstart]
        cases hm : mimic name false (a.value ++ [a.quote]) with
        | none =>
            rw [places_quiet hname hhead hm hvalue, hend]
            exact hrest
        | some m =>
            obtain ⟨q, r⟩ := m
            obtain ⟨hstop, hfound⟩ := places_mimic hname hhead hm hvalue
            rw [hend] at hfound
            dsimp only
            rw [decide_eq_true_eq]
            by_cases hclosed : q ∈ r ++ (as.flatMap Attr.text ++ tail)
            · -- the text is returned, or a part of the document
              obtain ⟨p, ps, hplaces, hle⟩ := hfound hclosed
              rw [hplaces]
              refine ⟨fun h => ?_, fun h => absurd hclosed h.1⟩
              have hlt := lt_namedPlaces p (h ▸ List.mem_cons_self)
              exact absurd hlt (Nat.not_lt_of_le hle)
            · rw [hstop hclosed, eq_comm, namedPlaces_eq_nil]
              exact ⟨fun h => ⟨hclosed, h⟩, fun h => h.2⟩

/-- What stands at the places of the values. -/
theorem map_standing (name tail : List UInt8) : ∀ (as : List Attr) (before : List UInt8),
    (namedPlaces name before.length as).map (standing (before ++ (as.flatMap Attr.text ++ tail))) =
      (as.filter fun a => a.name = name).map (·.value) := by
  intro as
  induction as with
  | nil => intro before; rfl
  | cons a as ih =>
      intro before
      have hrest := ih (before ++ a.text)
      rw [List.append_assoc, ← List.append_assoc a.text, ← List.flatMap_cons] at hrest
      obtain ⟨head, htext, hoffset, -⟩ := text_split a
      have hvalue : standing (before ++ ((a :: as).flatMap Attr.text ++ tail))
          (before.length + a.offset, a.value.length) = a.value := by
        have hsplit : before ++ ((a :: as).flatMap Attr.text ++ tail) =
            (before ++ head) ++ (a.value ++ ([a.quote] ++ (as.flatMap Attr.text ++ tail))) := by
          rw [List.flatMap_cons, htext]
          simp only [List.append_assoc]
        rw [standing, hsplit, ← hoffset, ← List.length_append, List.drop_left, List.take_left]
      rw [namedPlaces, ← List.length_append]
      by_cases heq : a.name = name
      · rw [if_pos heq, List.filter_cons_of_pos (by simpa using heq), List.map_cons, List.map_cons,
          hvalue, hrest]
      · rw [if_neg heq, List.filter_cons_of_neg (by simpa using heq), hrest]

end Walk

/-- **When quoted values are opaque**: exactly if no value of another attribute looks like an
attribute with the name, or the first that does is never closed and hides none. -/
theorem quoted_iff (d : Document) {name : List UInt8} (hname : IsName name) :
    Exact d name ↔ harmless name d.tail d.attrs = true := by
  have hiff := places_iff hname d.tail_plain d.attrs [] rfl (by rw [EndsInName]; decide)
  constructor
  · intro h
    exact hiff.mp h.places
  · intro h
    have hplaces : places d.text name 0 = namedPlaces name 0 d.attrs := hiff.mpr h
    have hvalues : ribclAttrValues d.text name = d.values name := by
      rw [attrValues_eq, hplaces]
      exact map_standing name d.tail d.attrs []
    refine ⟨hplaces, hvalues, ?_⟩
    rintro rfl
    rw [ribclParse, ← hvalues]
    simp

/-- An attribute `STATUS` with four digits, after a gap. -/
def statusAttr (gap digits : List UInt8) (hplain : 0x3D ∉ gap) (hend : ¬ EndsInName gap)
    (hdigits : 0x22 ∉ digits) : Attr where
  gap := gap
  name := ascii "STATUS"
  before := []
  after := []
  quote := 0x22
  value := digits
  gap_plain := hplain
  gap_end := hend
  isName := ⟨by decide, by decide +kernel⟩
  before_blank := blank_nil
  after_blank := blank_nil
  isQuote := isQuote_double
  delimited := hdigits

/-- An attribute `MESSAGE`, in single quotes. -/
def messageAttr (text : List UInt8) (htext : 0x27 ∉ text) : Attr where
  gap := [0x20]
  name := ascii "MESSAGE"
  before := []
  after := []
  quote := 0x27
  value := text
  gap_plain := by decide
  gap_end := by decide
  isName := ⟨by decide, by decide +kernel⟩
  before_blank := blank_nil
  after_blank := blank_nil
  isQuote := isQuote_single
  delimited := htext

/-- A response that quotes the line it could not read. -/
theorem quoted_iff_line : Exact
    ⟨[statusAttr (ascii "<RESPONSE ") (ascii "0x0001") (by decide) (by decide) (by decide),
      messageAttr (ascii "syntax error near \"STATUS\" in the line: \"<A B=\"1\"/>\"") (by decide)],
      ascii "/>", by decide⟩ (ascii "STATUS") :=
  (quoted_iff _ ⟨by decide, by decide +kernel⟩).mpr (by decide +kernel)

/-- **A message that quotes a status**: the status of the response is 0, and the reply is read as
a failure. -/
theorem quoted_hits : ¬ Exact
    ⟨[statusAttr (ascii "<RESPONSE ") (ascii "0x0000") (by decide) (by decide) (by decide),
      messageAttr (ascii "near STATUS=\"0x0001\"") (by decide)], ascii "/>", by decide⟩
    (ascii "STATUS") := by
  intro h
  exact absurd h.values (by decide +kernel)

end Ilo2.Ribcl
