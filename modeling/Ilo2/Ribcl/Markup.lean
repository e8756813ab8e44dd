import Ilo2.Ribcl.Health
import Ilo2.Ribcl.Places

/-!
# Documents that are made of tags

Text, prologs and tags, with blanks wherever the firmware puts them; a value may be in either kind
of quotes.  What `xml_next_tag` returns one after the other are the tags, as they were written.

* `attrsLoop_write`, `tagAt_write` - the attributes of a tag, and the tag.
* `tags_write` - **the tags of a document**, also if the document is cut within a tag.
* `tagsOf_simple` - tags whose values fit into quotes can be written.
-/

namespace Ilo2.Ribcl

open Text
open Tls (ascii)

/-! ### Markup -/

/-- An attribute of a tag, with the blanks before it. -/
structure TagAttr where
  gap : List UInt8
  name : List UInt8
  before : List UInt8
  after : List UInt8
  quote : UInt8
  value : List UInt8
  gap_ne : gap ≠ []
  gap_blank : Blank gap
  isName : IsName name
  before_blank : Blank before
  after_blank : Blank after
  isQuote : IsQuote quote
  delimited : quote ∉ value
  inside : 0x3E ∉ value

def TagAttr.write (a : TagAttr) : List UInt8 :=
  a.gap ++ (a.name ++ (a.before ++ 0x3D :: (a.after ++ a.quote :: (a.value ++ [a.quote]))))

/-- A tag; `slash` says whether it ends in `/>`, after the blanks `tail`. -/
structure TagText where
  closing : Bool
  name : List UInt8
  attrs : List TagAttr
  tail : List UInt8
  slash : Bool
  isName : IsName name
  tail_blank : Blank tail

/-- What stands between `<` and `>`. -/
def TagText.body (t : TagText) : List UInt8 :=
  (if t.closing then [0x2F] else []) ++ (t.name ++ (t.attrs.flatMap TagAttr.write ++
    (t.tail ++ if t.slash then [0x2F] else [])))

def TagText.write (t : TagText) : List UInt8 := 0x3C :: (t.body ++ [0x3E])

/-- The tag that is read. -/
def TagText.tag (t : TagText) : XmlTag :=
  { name := t.name, closing := t.closing, attrs := t.attrs.map fun a => (a.name, a.value) }

/-- A part of a document.  A prolog is what begins with `<?` or `<!`. -/
inductive Item where
  | text (s : List UInt8) (h : 0x3C ∉ s)
  | prolog (c : UInt8) (s : List UInt8) (hc : c = 0x3F ∨ c = 0x21) (hs : 0x3E ∉ s)
  | tag (t : TagText)

def Item.write : Item → List UInt8
  | .text s _ => s
  | .prolog c s _ _ => 0x3C :: c :: (s ++ [0x3E])
  | .tag t => t.write

def Item.tag? : Item → Option XmlTag
  | .tag t => some t.tag
  | _ => none

/-- The tags among the parts of a document. -/
def tagsOf (items : List Item) : List XmlTag := items.filterMap Item.tag?

variable {tag before s t b r rest : List UInt8} {f : UInt8 → Bool} {pos : Nat}

/-! ### Places -/

theorem skip_left (htag : tag = before ++ (b ++ r)) (hb : ∀ c ∈ b, f c = true)
    (hr : ∀ c ∈ r.head?, f c = false) : skip f tag before.length = (before ++ b).length := by
  rw [htag, skip, List.drop_left, takeWhile_left hb hr, List.length_append]

theorem slice_left (htag : tag = before ++ (b ++ r)) :
    slice tag before.length (before ++ b).length = b := by
  rw [htag, slice, List.drop_left, List.length_append, Nat.add_sub_cancel_left, List.take_left]

theorem at?_here (htag : tag = before ++ r) (f : UInt8 → Bool) :
    at? tag before.length f = r.head?.any f := by
  rw [htag, at?_left]

theorem length_add_one (before : List UInt8) (c : UInt8) :
    before.length + 1 = (before ++ [c]).length := by
  rw [List.length_append, List.length_singleton]

theorem isTagName_of_isNameChar {c : UInt8} (h : isNameChar c = true) : isTagName c = true := by
  have hspace := not_isSpace h
  have hother : c ≠ 0x3D ∧ c ≠ 0x2F ∧ c ≠ 0x3E ∧ c ≠ 0x22 ∧ c ≠ 0x27 := by
    refine ⟨?_, ?_, ?_, ?_, ?_⟩
    all_goals
      rintro rfl
      exact absurd h (by decide)
  rw [isTagName]
  simp only [hspace, hother, Bool.false_eq_true, not_false_eq_true, ne_eq, and_self, decide_true]

theorem isTagName_of_isSpace {c : UInt8} (h : isSpace c = true) : isTagName c = false := by
  rw [isTagName]
  simp only [h, not_true_eq_false, false_and, decide_false]

theorem IsQuote.not_isSpace {q : UInt8} (h : IsQuote q) : isSpace q = false := by
  rcases h with rfl | rfl
  · rfl
  · rfl

/-! ### The attributes of a tag -/

/-- What comes behind the key of an attribute. -/
def TagAttr.assign (a : TagAttr) : List UInt8 :=
  a.before ++ 0x3D :: (a.after ++ a.quote :: (a.value ++ [a.quote]))

theorem TagAttr.write_eq (a : TagAttr) : a.write = a.gap ++ (a.name ++ a.assign) := rfl

/-- The key of an attribute starts behind the blanks and ends where the name does. -/
theorem skip_key (a : TagAttr) (htag : tag = before ++ (a.write ++ rest)) :
    skip isSpace tag before.length = (before ++ a.gap).length ∧
      skip isTagName tag (before ++ a.gap).length = (before ++ a.gap ++ a.name).length ∧
      slice tag (before ++ a.gap).length (before ++ a.gap ++ a.name).length = a.name := by
  have hkey : tag = (before ++ a.gap) ++ (a.name ++ (a.assign ++ rest)) := by
    rw [htag, TagAttr.write_eq]
    simp only [List.append_assoc]
  refine ⟨?_, ?_, slice_left hkey⟩
  · rw [List.append_assoc] at hkey
    refine skip_left hkey a.gap_blank ?_
    obtain ⟨c, more, hname⟩ := List.exists_cons_of_ne_nil a.isName.ne
    rw [hname]
    rintro d ⟨⟩
    exact not_isSpace (a.isName.chars c (hname ▸ List.mem_cons_self))
  · refine skip_left hkey (fun d hd => isTagName_of_isNameChar (a.isName.chars d hd)) ?_
    rw [TagAttr.assign]
    cases hb : a.before with
    | nil =>
        rintro d ⟨⟩
        decide
    | cons d b =>
        rintro e ⟨⟩
        exact isTagName_of_isSpace (a.before_blank d (hb ▸ List.mem_cons_self))

/-- Behind the key come blanks, `=`, blanks and a quote. -/
theorem skip_assign (a : TagAttr) (htag : tag = before ++ (a.assign ++ rest)) :
    skip isSpace tag before.length = (before ++ a.before).length ∧
      at? tag (before ++ a.before).length (· = 0x3D) = true ∧
      skip isSpace tag ((before ++ a.before).length + 1) =
        (before ++ a.before ++ [0x3D] ++ a.after).length ∧
      tag[(before ++ a.before ++ [0x3D] ++ a.after).length]? = some a.quote := by
  have hequals : tag = (before ++ a.before) ++ 0x3D :: (a.after ++ a.quote :: (a.value ++
      [a.quote]) ++ rest) := by
    rw [htag, TagAttr.assign]
    simp only [List.append_assoc, List.cons_append]
  have hafter : tag = (before ++ a.before ++ [0x3D]) ++ (a.after ++ a.quote :: (a.value ++
      [a.quote] ++ rest)) := by
    rw [hequals]
    simp only [List.append_assoc, List.cons_append, List.nil_append]
  refine ⟨?_, ?_, ?_, ?_⟩
  · rw [List.append_assoc] at hequals
    refine skip_left hequals a.before_blank ?_
    rintro d ⟨⟩
    decide
  · rw [at?_here hequals]
    rfl
  · rw [length_add_one _ 0x3D]
    refine skip_left hafter a.after_blank ?_
    rintro d ⟨⟩
    exact a.isQuote.not_isSpace
  · rw [hafter, ← List.append_assoc, List.getElem?_append_right (Nat.le_refl _), Nat.sub_self]
    rfl

/-- The value ends at its quote. -/
theorem find_value (a : TagAttr) (htag : tag = before ++ a.quote :: (a.value ++ a.quote :: rest)) :
    findFrom [a.quote] tag (before.length + 1) = some (before ++ [a.quote] ++ a.value).length ∧
      slice tag (before.length + 1) (before ++ [a.quote] ++ a.value).length = a.value := by
  have hvalue : tag = (before ++ [a.quote]) ++ (a.value ++ a.quote :: rest) := by
    rw [htag]
    simp only [List.append_assoc, List.cons_append, List.nil_append]
  rw [length_add_one before a.quote]
  refine ⟨?_, slice_left hvalue⟩
  rw [findFrom, hvalue, List.drop_left, find_singleton a.delimited, Option.map_some]
  congr 1
  exact List.length_append.symm

/-- **One round of the loop** reads one attribute. -/
theorem attrsLoop_attr (a : TagAttr) (rounds : Nat) (htag : tag = before ++ (a.write ++ rest)) :
    attrsLoop tag (rounds + 1) before.length =
      (a.name, a.value) :: attrsLoop tag rounds (before ++ a.write).length := by
  obtain ⟨hstart, hend, hkey⟩ := skip_key a htag
  have hname : tag = (before ++ a.gap) ++ (a.name ++ (a.assign ++ rest)) := by
    rw [htag, TagAttr.write_eq]
    simp only [List.append_assoc]
  obtain ⟨hequals, hassign, hafter, hquote⟩ := @skip_assign tag
    (before ++ a.gap ++ a.name) rest a (by rw [hname, List.append_assoc _ a.name])
  obtain ⟨hclose, hvalue⟩ := @find_value tag
    (before ++ a.gap ++ a.name ++ a.before ++ [0x3D] ++ a.after) rest a (by
      rw [hname, TagAttr.assign]
      simp only [List.append_assoc, List.cons_append, List.nil_append])
  have hnext : (before ++ a.gap ++ a.name ++ a.before ++ [0x3D] ++ a.after ++ [a.quote] ++
      a.value).length + 1 = (before ++ a.write).length := by
    rw [TagAttr.write]
    simp only [List.length_append, List.length_cons, List.length_nil]
    omega
  -- a name is not the end of the tag
  have hgo : ¬ ((before ++ a.gap).length ≥ tag.length ∨
      at? tag (before ++ a.gap).length (· = 0x2F) = true) := by
    obtain ⟨c, more, hc⟩ := List.exists_cons_of_ne_nil a.isName.ne
    have hchar : isNameChar c = true := a.isName.chars c (hc ▸ List.mem_cons_self)
    rw [at?_here hname, not_or, hname, hc]
    refine ⟨?_, ?_⟩
    · simp only [List.length_append, List.length_cons]
      omega
    · rw [List.cons_append, List.head?_cons, Option.any_some, decide_eq_true_eq]
      rintro rfl
      exact absurd hchar (by decide)
  have hone : ¬ (a.quote ≠ 0x22 ∧ a.quote ≠ 0x27) := by
    rintro ⟨h₁, h₂⟩
    rcases a.isQuote with h | h
    · exact h₁ h
    · exact h₂ h
  rw [attrsLoop]
  dsimp only
  rw [hstart, if_neg hgo, hend, hequals, hassign, if_neg (by decide), hafter, hquote]
  dsimp only
  rw [if_neg hone, hclose]
  dsimp only
  rw [hvalue, hnext, hkey]

/-- **The attributes of a tag**, up to its end. -/
theorem attrsLoop_write {tail : List UInt8} (htail : Blank tail) (slash : Bool) :
    ∀ (attrs : List TagAttr) (rounds : Nat) (before : List UInt8), attrs.length < rounds →
      tag = before ++ (attrs.flatMap TagAttr.write ++ (tail ++ if slash then [0x2F] else [])) →
      attrsLoop tag rounds before.length = attrs.map fun a => (a.name, a.value) := by
  intro attrs
  induction attrs with
  | nil =>
      intro rounds before hlt htag
      obtain ⟨n, rfl⟩ : ∃ n, rounds = n + 1 := ⟨rounds - 1, by simp at hlt; omega⟩
      rw [List.flatMap_nil, List.nil_append] at htag
      have hskip : skip isSpace tag before.length = (before ++ tail).length := by
        refine skip_left htag htail ?_
        cases slash
        · nofun
        · rintro c ⟨⟩
          rfl
      have hend : (before ++ tail).length ≥ tag.length ∨
          at? tag (before ++ tail).length (· = 0x2F) = true := by
        rw [← List.append_assoc] at htag
        cases slash
        · exact Or.inl (by rw [htag]; simp)
        · exact Or.inr (by rw [at?_here htag]; rfl)
      rw [attrsLoop]
      dsimp only
      rw [hskip, if_pos hend]
      rfl
  | cons a attrs ih =>
      intro rounds before hlt htag
      obtain ⟨n, rfl⟩ : ∃ n, rounds = n + 1 := ⟨rounds - 1, by simp at hlt; omega⟩
      rw [List.flatMap_cons, List.append_assoc] at htag
      rw [attrsLoop_attr a n htag, List.map_cons,
        ih n (before ++ a.write) (Nat.lt_of_succ_lt_succ hlt) (by rw [htag, List.append_assoc])]

/-! ### One tag -/

/-- What stands before the name of a tag. -/
def TagText.front (t : TagText) : List UInt8 := 0x3C :: if t.closing then [0x2F] else []

/-- What stands between the name and the `>`. -/
def TagText.behind (t : TagText) : List UInt8 :=
  t.attrs.flatMap TagAttr.write ++ (t.tail ++ if t.slash then [0x2F] else [])

theorem TagText.body_split (before : List UInt8) (t : TagText) :
    before ++ 0x3C :: t.body = (before ++ t.front) ++ (t.name ++ t.behind) := by
  rw [TagText.body, TagText.front, TagText.behind, List.append_assoc, List.cons_append]

theorem TagText.name_head (t : TagText) :
    ∃ c more, t.name = c :: more ∧ isNameChar c = true := by
  obtain ⟨c, more, hname⟩ := List.exists_cons_of_ne_nil t.isName.ne
  exact ⟨c, more, hname, t.isName.chars c (hname ▸ List.mem_cons_self)⟩

/-- The name ends before the attributes, the blanks or the end of the tag. -/
theorem TagText.behind_head (t : TagText) : ∀ c ∈ t.behind.head?, isTagName c = false := by
  rw [TagText.behind]
  cases hattrs : t.attrs with
  | nil =>
      rw [List.flatMap_nil, List.nil_append]
      cases htail : t.tail with
      | nil =>
          cases t.slash
          · nofun
          · rintro d ⟨⟩
            rfl
      | cons d tail =>
          rintro e ⟨⟩
          exact isTagName_of_isSpace (t.tail_blank d (htail ▸ List.mem_cons_self))
  | cons a attrs =>
      obtain ⟨d, gap, hgap⟩ := List.exists_cons_of_ne_nil a.gap_ne
      rw [List.flatMap_cons, TagAttr.write, hgap]
      rintro e ⟨⟩
      exact isTagName_of_isSpace (a.gap_blank d (hgap ▸ List.mem_cons_self))

/-- Behind the `<` there is a slash or the name. -/
theorem at?_tag (before : List UInt8) (t : TagText) (f : UInt8 → Bool) :
    at? (before ++ 0x3C :: t.body) (before.length + 1) f =
      (if t.closing then 0x2F :: t.name else t.name).head?.any f := by
  obtain ⟨c, more, hname, -⟩ := t.name_head
  rw [length_add_one before 0x3C, ← List.singleton_append, ← List.append_assoc, at?_left,
    TagText.body, hname]
  cases t.closing
  · rfl
  · rfl

theorem at?_prolog (before : List UInt8) (t : TagText) :
    at? (before ++ 0x3C :: t.body) (before.length + 1) (fun c => c = 0x3F ∨ c = 0x21) = false := by
  obtain ⟨c, more, hname, hc⟩ := t.name_head
  rw [at?_tag, hname]
  cases t.closing
  · rw [if_neg (by decide), List.head?_cons, Option.any_some, decide_eq_false_iff_not]
    rintro (rfl | rfl)
    · exact absurd hc (by decide)
    · exact absurd hc (by decide)
  · rfl

theorem at?_closing (before : List UInt8) (t : TagText) :
    at? (before ++ 0x3C :: t.body) (before.length + 1) (· = 0x2F) = t.closing := by
  obtain ⟨c, more, hname, hc⟩ := t.name_head
  rw [at?_tag, hname]
  cases t.closing
  · rw [if_neg (by decide), List.head?_cons, Option.any_some, decide_eq_false_iff_not]
    rintro rfl
    exact absurd hc (by decide)
  · rfl

theorem length_attrs_le (attrs : List TagAttr) :
    attrs.length ≤ (attrs.flatMap TagAttr.write).length := by
  induction attrs with
  | nil => exact Nat.zero_le _
  | cons a attrs ih =>
      have hgap := List.length_pos_iff.mpr a.gap_ne
      rw [List.flatMap_cons, List.length_append, List.length_cons, TagAttr.write,
        List.length_append]
      omega

/-- **A tag** is read as it was written. -/
theorem tagAt_write (before : List UInt8) (t : TagText) :
    tagAt (before ++ 0x3C :: t.body) before.length = some t.tag := by
  have hsplit := TagText.body_split before t
  have hfront : (if t.closing then before.length + 1 + 1 else before.length + 1) =
      (before ++ t.front).length := by
    rw [List.length_append, TagText.front]
    cases t.closing
    · rfl
    · rfl
  have hskip := skip_left hsplit
    (fun d hd => isTagName_of_isNameChar (t.isName.chars d hd)) t.behind_head
  have hslice := slice_left hsplit
  have hattrs := @attrsLoop_write (before ++ 0x3C :: t.body) _ t.tail_blank t.slash t.attrs
    ((before ++ 0x3C :: t.body).length + 1) (before ++ t.front ++ t.name)
    (by
      have hle := length_attrs_le t.attrs
      rw [hsplit, TagText.behind]
      simp only [List.length_append]
      omega)
    (by rw [hsplit, TagText.behind, List.append_assoc _ t.name])
  rw [tagAt]
  dsimp only
  rw [at?_prolog, if_neg (by decide), at?_closing, hfront, hskip, hslice, if_neg t.isName.ne,
    hattrs]
  rfl

/-! ### One tag after the other -/

variable {doc : List UInt8}

/-- Every round advances, so there is a number of rounds that is enough. -/
theorem xmlNextTagLoop_rounds (m : Nat) : ∀ (n pos : Nat), doc.length < m + pos →
    doc.length < n + pos → xmlNextTagLoop doc m pos = xmlNextTagLoop doc n pos := by
  have hend : ∀ (n pos : Nat), doc.length < pos → xmlNextTagLoop doc n pos = none := by
    intro n pos hpos
    cases n with
    | zero => rfl
    | succ n => rw [xmlNextTagLoop, findFrom_end (by decide) hpos]
  induction m with
  | zero =>
      intro n pos hm _
      rw [hend _ _ (by omega), hend _ _ (by omega)]
  | succ m ih =>
      intro n pos hm hn
      cases n with
      | zero => rw [hend _ _ (by omega), hend _ _ (by omega)]
      | succ n =>
          rw [xmlNextTagLoop, xmlNextTagLoop]
          cases hlt : findFrom (ascii "<") doc pos with
          | none => rfl
          | some lt =>
              have hle := (findFrom_stands (by decide) hlt).1
              dsimp only
              cases hgt : findFrom (ascii ">") doc lt with
              | none => rfl
              | some gt =>
                  have hge := (findFrom_stands (by decide) hgt).1
                  dsimp only
                  rw [ih n (gt + 1) (by omega) (by omega)]

/-- Text is passed over. -/
theorem xmlNextTag_text (hs : 0x3C ∉ s) (hdoc : doc = before ++ (s ++ rest)) :
    xmlNextTag doc before.length = xmlNextTag doc (before ++ s).length := by
  rw [xmlNextTag, xmlNextTag, xmlNextTagLoop, xmlNextTagLoop, hdoc]
  rw [show ascii "<" = [0x3C] from rfl, findFrom_singleton before hs rest]

/-- Where a tag begins, and where it ends. -/
theorem find_tag (hs : 0x3E ∉ s) (hdoc : doc = before ++ 0x3C :: (s ++ 0x3E :: rest)) :
    findFrom (ascii "<") doc before.length = some before.length ∧
      findFrom (ascii ">") doc before.length = some (before ++ 0x3C :: s).length ∧
      doc.take (before ++ 0x3C :: s).length = before ++ 0x3C :: s := by
  have hnot : 0x3E ∉ (0x3C :: s : List UInt8) := by
    rw [List.mem_cons, not_or]
    exact ⟨by decide, hs⟩
  have hsplit : doc = (before ++ 0x3C :: s) ++ 0x3E :: rest := by
    rw [hdoc, List.append_assoc, List.cons_append]
  refine ⟨?_, ?_, ?_⟩
  · rw [hdoc]
    exact findFrom_left ⟨_, rfl⟩ before
  · rw [hdoc, ← List.cons_append, show ascii ">" = [0x3E] from rfl,
      findFrom_singleton before hnot, ← List.append_assoc]
    exact findFrom_left ⟨_, rfl⟩ _
  · rw [hsplit, List.take_left]

/-- Prologs are passed over. -/
theorem xmlNextTag_prolog {c : UInt8} (hc : c = 0x3F ∨ c = 0x21) (hs : 0x3E ∉ s)
    (hdoc : doc = before ++ (0x3C :: c :: (s ++ [0x3E]) ++ rest)) :
    xmlNextTag doc before.length =
      xmlNextTag doc (before ++ 0x3C :: c :: (s ++ [0x3E])).length := by
  have hnot : 0x3E ∉ c :: s := by
    rw [List.mem_cons, not_or]
    refine ⟨?_, hs⟩
    rcases hc with rfl | rfl
    · decide
    · decide
  have hsplit : doc = before ++ 0x3C :: (c :: s ++ 0x3E :: rest) := by
    rw [hdoc]
    simp only [List.cons_append, List.append_assoc, List.nil_append]
  obtain ⟨hlt, hgt, htake⟩ := find_tag hnot hsplit
  have hnone : tagAt (before ++ 0x3C :: c :: s) before.length = none := by
    have hhead : at? (before ++ 0x3C :: c :: s) (before.length + 1)
        (fun c => c = 0x3F ∨ c = 0x21) = true := by
      rw [length_add_one before 0x3C, ← List.singleton_append, ← List.append_assoc, at?_left,
        List.head?_cons, Option.any_some, decide_eq_true_eq]
      exact hc
    rw [tagAt]
    dsimp only
    rw [if_pos hhead]
  have hnext : (before ++ 0x3C :: c :: s).length + 1 =
      (before ++ 0x3C :: c :: (s ++ [0x3E])).length := by
    simp only [List.length_append, List.length_cons, List.length_nil]
    omega
  rw [xmlNextTag, xmlNextTagLoop, hlt]
  dsimp only
  rw [hgt]
  dsimp only
  rw [htake, hnone]
  dsimp only
  rw [hnext, xmlNextTag]
  refine xmlNextTagLoop_rounds _ _ _ ?_ (by omega)
  simp only [List.length_append, List.length_cons]
  omega

theorem TagText.body_inside (t : TagText) : 0x3E ∉ t.body := by
  have hblank : ∀ {b : List UInt8}, Blank b → 0x3E ∉ b := by
    intro b hb hmem
    exact absurd (hb _ hmem) (by decide)
  have hname : ∀ {name : List UInt8}, IsName name → 0x3E ∉ name := by
    intro name h hmem
    exact absurd (h.chars _ hmem) (by decide)
  have hattr : 0x3E ∉ t.attrs.flatMap TagAttr.write := by
    intro hmem
    obtain ⟨a, -, ha⟩ := List.mem_flatMap.mp hmem
    simp only [TagAttr.write, List.mem_append, List.mem_cons, List.not_mem_nil, or_false] at ha
    have hquote : ¬ (0x3E : UInt8) = a.quote := by
      intro h
      rcases a.isQuote with hq | hq
      · rw [hq] at h
        exact absurd h (by decide)
      · rw [hq] at h
        exact absurd h (by decide)
    rcases ha with h | h | h | h | h | h | h | h
    · exact hblank a.gap_blank h
    · exact hname a.isName h
    · exact hblank a.before_blank h
    · exact absurd h (by decide)
    · exact hblank a.after_blank h
    · exact hquote h
    · exact a.inside h
    · exact hquote h
  intro hmem
  simp only [TagText.body, List.mem_append] at hmem
  rcases hmem with h | h | h | h | h
  · cases hc : t.closing
    · simp [hc] at h
    · simp [hc] at h
  · exact hname t.isName h
  · exact hattr h
  · exact hblank t.tail_blank h
  · cases hs : t.slash
    · simp [hs] at h
    · simp [hs] at h

/-- **The next tag.** -/
theorem xmlNextTag_tag (t : TagText) (hdoc : doc = before ++ (t.write ++ rest)) :
    xmlNextTag doc before.length = some (t.tag, (before ++ t.write).length) := by
  have hsplit : doc = before ++ 0x3C :: (t.body ++ 0x3E :: rest) := by
    rw [hdoc, TagText.write]
    simp only [List.cons_append, List.append_assoc, List.nil_append]
  obtain ⟨hlt, hgt, htake⟩ := find_tag t.body_inside hsplit
  have hnext : (before ++ 0x3C :: t.body).length + 1 = (before ++ t.write).length := by
    rw [TagText.write]
    simp only [List.length_append, List.length_cons, List.length_nil]
    omega
  rw [xmlNextTag, xmlNextTagLoop, hlt]
  dsimp only
  rw [hgt]
  dsimp only
  rw [htake, tagAt_write]
  dsimp only
  rw [hnext]

/-- A tag that does not end is none. -/
theorem xmlNextTag_cut (hrest : 0x3E ∉ rest) (hdoc : doc = before ++ rest) :
    xmlNextTag doc before.length = none := by
  rw [xmlNextTag, xmlNextTagLoop]
  cases hlt : findFrom (ascii "<") doc before.length with
  | none => rfl
  | some lt =>
      dsimp only
      cases hgt : findFrom (ascii ">") doc lt with
      | none => rfl
      | some gt =>
          obtain ⟨hle, -, -⟩ := findFrom_stands (by decide) hlt
          obtain ⟨hge, hst, -⟩ := findFrom_stands (by decide) hgt
          rw [Stands, hdoc, List.drop_append, List.drop_eq_nil_of_le (by omega),
            List.nil_append] at hst
          obtain ⟨t, ht⟩ := hst
          have hmem : 0x3E ∈ rest.drop (gt - before.length) := by
            rw [← ht]
            exact List.mem_cons_self
          exact absurd (List.mem_of_mem_drop hmem) hrest

/-! ### All tags -/

theorem tagLoop_congr {σ : Type} (step : σ → XmlTag → σ) {pos pos' : Nat}
    (h : xmlNextTag doc pos = xmlNextTag doc pos') (rounds : Nat) (st : σ) :
    tagLoop step doc rounds pos st = tagLoop step doc rounds pos' st := by
  cases rounds with
  | zero => rfl
  | succ rounds => rw [tagLoop, tagLoop, h]

/-- **The loop over the tags**, from one part of the document on. -/
theorem tagLoop_write (hrest : 0x3E ∉ rest) : ∀ (items : List Item) (rounds : Nat)
    (before : List UInt8) (ts : List XmlTag), (tagsOf items).length < rounds →
      doc = before ++ (items.flatMap Item.write ++ rest) →
      tagLoop (fun ts t => ts ++ [t]) doc rounds before.length ts = ts ++ tagsOf items := by
  intro items
  induction items with
  | nil =>
      intro rounds before ts hlt hdoc
      obtain ⟨n, rfl⟩ : ∃ n, rounds = n + 1 := ⟨rounds - 1, by omega⟩
      rw [tagLoop, xmlNextTag_cut hrest hdoc, tagsOf, List.filterMap_nil, List.append_nil]
  | cons item items ih =>
      intro rounds before ts hlt hdoc
      rw [List.flatMap_cons, List.append_assoc] at hdoc
      have hnext : doc = (before ++ item.write) ++ (items.flatMap Item.write ++ rest) := by
        rw [hdoc, List.append_assoc]
      cases item with
      | text s hs =>
          rw [tagLoop_congr _ (xmlNextTag_text hs hdoc)]
          exact ih rounds _ ts hlt hnext
      | prolog c s hc hs =>
          rw [tagLoop_congr _ (xmlNextTag_prolog hc hs hdoc)]
          exact ih rounds _ ts hlt hnext
      | tag t =>
          obtain ⟨n, rfl⟩ : ∃ n, rounds = n + 1 := ⟨rounds - 1, by omega⟩
          have hlt' : (tagsOf items).length < n := Nat.lt_of_succ_lt_succ hlt
          rw [tagLoop, xmlNextTag_tag t hdoc]
          dsimp only
          have htags : tagsOf (.tag t :: items) = t.tag :: tagsOf items := rfl
          have hrun := ih n (before ++ t.write) (ts ++ [t.tag]) hlt' hnext
          rw [hrun, htags, List.append_assoc, List.singleton_append]

theorem length_tagsOf (items : List Item) :
    (tagsOf items).length ≤ (items.flatMap Item.write).length := by
  induction items with
  | nil => exact Nat.zero_le _
  | cons item items ih =>
      rw [List.flatMap_cons, List.length_append]
      cases item with
      | text s hs => exact Nat.le_trans ih (Nat.le_add_left _ _)
      | prolog c s hc hs => exact Nat.le_trans ih (Nat.le_add_left _ _)
      | tag t =>
          have htags : (tagsOf (.tag t :: items)).length = (tagsOf items).length + 1 := rfl
          have hone : 1 ≤ (Item.write (.tag t)).length := Nat.succ_pos _
          omega

/-- **The tags of a document** are those it is made of; what stands at its end without a `>` is no
tag. -/
theorem tags_write (items : List Item) (hrest : 0x3E ∉ rest) :
    tags (items.flatMap Item.write ++ rest) = tagsOf items := by
  have hle := length_tagsOf items
  exact tagLoop_write hrest items _ [] [] (by rw [List.length_append]; omega) rfl

/-! ### A way to write a tag -/

instance (name : List UInt8) : Decidable (IsName name) :=
  decidable_of_iff (name ≠ [] ∧ name.all isNameChar = true)
    ⟨fun h => ⟨h.1, List.all_eq_true.mp h.2⟩, fun h => ⟨h.ne, List.all_eq_true.mpr h.chars⟩⟩

/-- A value that may stand in double quotes. -/
def Plain (v : List UInt8) : Prop := 0x22 ∉ v ∧ 0x3E ∉ v

/-- A tag with names, and with values for double quotes. -/
structure Writable (t : XmlTag) : Prop where
  isName : IsName t.name
  attrs : ∀ a ∈ t.attrs, IsName a.1 ∧ Plain a.2

theorem writable_bare {t : XmlTag} (hname : IsName t.name) (hattrs : t.attrs = []) :
    Writable t := ⟨hname, fun _ ha => absurd (hattrs ▸ ha) List.not_mem_nil⟩

def TagAttr.simple (a : List UInt8 × List UInt8) (h : IsName a.1 ∧ Plain a.2) : TagAttr where
  gap := [0x20]
  name := a.1
  before := []
  after := []
  quote := 0x22
  value := a.2
  gap_ne := List.cons_ne_nil _ _
  gap_blank := by
    intro c hc
    rw [List.mem_singleton.mp hc]
    rfl
  isName := h.1
  before_blank := blank_nil
  after_blank := blank_nil
  isQuote := isQuote_double
  delimited := h.2.1
  inside := h.2.2

/-- A tag without blanks; one that has attributes is an empty element. -/
def TagText.simple (t : XmlTag) (h : Writable t) : TagText where
  closing := t.closing
  name := t.name
  attrs := t.attrs.pmap TagAttr.simple h.attrs
  tail := []
  slash := t.attrs ≠ []
  isName := h.isName
  tail_blank := nofun

theorem TagText.simple_tag (t : XmlTag) (h : Writable t) : (TagText.simple t h).tag = t := by
  have hattrs : (t.attrs.pmap TagAttr.simple h.attrs).map (fun a => (a.name, a.value)) =
      t.attrs := by
    rw [List.map_pmap]
    exact (List.pmap_eq_map ..).trans (List.map_id _)
  rw [TagText.tag, TagText.simple]
  dsimp only
  rw [hattrs]

/-- Tags, one directly behind the other. -/
def simpleItems (ts : List XmlTag) (h : ∀ t ∈ ts, Writable t) : List Item :=
  ts.pmap (fun t ht => .tag (TagText.simple t ht)) h

theorem tagsOf_simple (ts : List XmlTag) (h : ∀ t ∈ ts, Writable t) :
    tagsOf (simpleItems ts h) = ts := by
  induction ts with
  | nil => rfl
  | cons t ts ih =>
      have htail := ih fun u hu => h u (List.mem_cons_of_mem t hu)
      rw [simpleItems, List.pmap_cons, tagsOf, List.filterMap_cons]
      dsimp only [Item.tag?]
      rw [TagText.simple_tag]
      exact congrArg (t :: ·) htail

end Ilo2.Ribcl
