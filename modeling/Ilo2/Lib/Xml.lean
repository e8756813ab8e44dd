import Mathlib.Tactic.Common
import Mathlib.Data.List.Basic

/-!
# Elements and attributes

A part of XML: start tags, end tags and tags of empty elements, attributes in double quotes, text,
and references to the five predefined entities.  A document is a list of bytes.  `tokenise` cuts
it into tags and text, `build` makes trees of them.

* `Escapes.unescape` - what is written character by character is read back.
* `tokenise_write` - **tokens that are written are read back as they were**.
* `parse_write` - so are trees, whatever their texts and attribute values hold.
-/

namespace Xml

universe u v

/-! ### Characters -/

def isBlank (c : UInt8) : Bool := c = 0x20 ∨ c = 0x09 ∨ c = 0x0D ∨ c = 0x0A

/-- Letters, digits, `_`, `-`, `.` and `:`. -/
def isNameChar (c : UInt8) : Bool :=
  (0x41 ≤ c ∧ c ≤ 0x5A) ∨ (0x61 ≤ c ∧ c ≤ 0x7A) ∨ (0x30 ≤ c ∧ c ≤ 0x39) ∨ c = 0x5F ∨ c = 0x2D ∨
    c = 0x2E ∨ c = 0x3A

def isName (name : List UInt8) : Bool := name ≠ [] ∧ name.all isNameChar

/-- `amp`, `lt`, `gt`, `quot` and `apos`. -/
def entities : List (List UInt8 × UInt8) :=
  [([0x61, 0x6D, 0x70], 0x26), ([0x6C, 0x74], 0x3C), ([0x67, 0x74], 0x3E),
    ([0x71, 0x75, 0x6F, 0x74], 0x22), ([0x61, 0x70, 0x6F, 0x73], 0x27)]

def entity (ref : List UInt8) : Option UInt8 := (entities.find? (·.1 = ref)).map (·.2)

/-- A text with its references replaced; `ref` is what there is of a reference that has begun. -/
def unescapeFrom : (ref : Option (List UInt8)) → List UInt8 → Option (List UInt8)
  | none, [] => some []
  | some _, [] => none
  | none, c :: s =>
      if c = 0x26 then unescapeFrom (some []) s else (unescapeFrom none s).map (c :: ·)
  | some ref, c :: s =>
      if c = 0x3B then (entity ref).bind fun d => (unescapeFrom none s).map (d :: ·)
      else unescapeFrom (some (ref ++ [c])) s

def unescape (s : List UInt8) : Option (List UInt8) := unescapeFrom none s

/-! ### Tokens -/

/-- A tag or a text; `α` is the type of the attribute values. -/
inductive Token (α : Type u) where
  | text (t : List UInt8)
  | start (name : List UInt8) (attrs : List (List UInt8 × α)) (empty : Bool)
  | close (name : List UInt8)
deriving DecidableEq

def Token.isText {α : Type u} : Token α → Bool
  | .text _ => true
  | _ => false

/-- The end of a tag. -/
def tagEnd : List UInt8 → Option (Bool × List UInt8)
  | [] => none
  | c :: s =>
      if c = 0x3E then some (false, s)
      else if c = 0x2F ∧ s.head? = some 0x3E then some (true, s.tail)
      else none

/-- A text in quotes. -/
def quoted : List UInt8 → Option (List UInt8 × List UInt8)
  | [] => none
  | q :: s =>
      if q = 0x22 ∧ 0x22 ∈ s then
        some (s.takeWhile (· ≠ 0x22), (s.dropWhile (· ≠ 0x22)).tail)
      else none

/-- A name at the start of a text. -/
def takeName (s : List UInt8) : Option (List UInt8 × List UInt8) :=
  if s.takeWhile isNameChar = [] then none
  else some (s.takeWhile isNameChar, s.dropWhile isNameChar)

/-- A name, `=` and a value; there is no `<` in a value. -/
def readAttr (s : List UInt8) : Option ((List UInt8 × List UInt8) × List UInt8) := do
  let (name, r) ← takeName s
  match r.dropWhile isBlank with
  | [] => none
  | c :: r =>
      if c ≠ 0x3D then none else do
      let (raw, r) ← quoted (r.dropWhile isBlank)
      if 0x3C ∈ raw then none else do
      let value ← unescape raw
      some ((name, value), r)

/-- The attributes of a tag, each with a blank before it, and the end of the tag. -/
def readAttrs : (rounds : Nat) → List UInt8 →
    Option (List (List UInt8 × List UInt8) × Bool × List UInt8)
  | 0, _ => none
  | rounds + 1, s =>
      match tagEnd (s.dropWhile isBlank) with
      | some (empty, r) => some ([], empty, r)
      | none =>
          if ¬ s.head?.any isBlank then none else do
          let (a, r) ← readAttr (s.dropWhile isBlank)
          let (as, rest) ← readAttrs rounds r
          some (a :: as, rest)

def startTag (s : List UInt8) : Option (Token (List UInt8) × List UInt8) := do
  let (name, r) ← takeName s
  let (attrs, empty, r) ← readAttrs r.length r
  some (.start name attrs empty, r)

def endTag (s : List UInt8) : Option (Token (List UInt8) × List UInt8) := do
  let (name, r) ← takeName s
  match r.dropWhile isBlank with
  | [] => none
  | c :: r => if c = 0x3E then some (.close name, r) else none

/-- The first token of a text. -/
def token : List UInt8 → Option (Token (List UInt8) × List UInt8)
  | [] => none
  | c :: s =>
      if c ≠ 0x3C then do
        let t ← unescape ((c :: s).takeWhile (· ≠ 0x3C))
        some (.text t, (c :: s).dropWhile (· ≠ 0x3C))
      else if s.head? = some 0x2F then endTag s.tail
      else startTag s

def tokens : (rounds : Nat) → List UInt8 → Option (List (Token (List UInt8)))
  | 0, s => if s = [] then some [] else none
  | rounds + 1, s =>
      if s = [] then some [] else do
      let (t, r) ← token s
      let ts ← tokens rounds r
      some (t :: ts)

/-- The tokens of a document.  Each of them takes a byte at least. -/
def tokenise (s : List UInt8) : Option (List (Token (List UInt8))) := tokens s.length s

/-! ### Trees -/

inductive Node (α : Type u) where
  | text (t : List UInt8)
  | element (name : List UInt8) (attrs : List (List UInt8 × α)) (children : List (Node α))

/-- An element that is open, with the nodes before it. -/
structure Open (α : Type u) where
  name : List UInt8
  attrs : List (List UInt8 × α)
  before : List (Node α)

/-- The trees of a list of tokens: `stack` has the elements that are open, `nodes` what there is
of the innermost. -/
def build {α : Type u} : (stack : List (Open α)) → (nodes : List (Node α)) → List (Token α) →
    Option (List (Node α))
  | [], nodes, [] => some nodes
  | _ :: _, _, [] => none
  | stack, nodes, .text t :: ts => build stack (nodes ++ [.text t]) ts
  | stack, nodes, .start name attrs empty :: ts =>
      if empty then build stack (nodes ++ [.element name attrs []]) ts
      else build (⟨name, attrs, nodes⟩ :: stack) [] ts
  | [], _, .close _ :: _ => none
  | o :: stack, nodes, .close name :: ts =>
      if o.name = name then build stack (o.before ++ [.element o.name o.attrs nodes]) ts else none

/-- The trees of a document. -/
def parse (s : List UInt8) : Option (List (Node (List UInt8))) := (tokenise s).bind (build [] [])

mutual

/-- The tokens of a tree. -/
def Node.flatten {α : Type u} : Node α → List (Token α)
  | .text t => [.text t]
  | .element name attrs children =>
      if children.isEmpty then [.start name attrs true]
      else .start name attrs false :: (flattenAll children ++ [.close name])

def flattenAll {α : Type u} : List (Node α) → List (Token α)
  | [] => []
  | n :: ns => n.flatten ++ flattenAll ns

end

mutual

/-- A tree with other attribute values. -/
def Node.map {α : Type u} {β : Type v} (f : α → β) : Node α → Node β
  | .text t => .text t
  | .element name attrs children =>
      .element name (attrs.map fun a => (a.1, f a.2)) (mapAll f children)

def mapAll {α : Type u} {β : Type v} (f : α → β) : List (Node α) → List (Node β)
  | [] => []
  | n :: ns => n.map f :: mapAll f ns

end

def Token.map {α : Type u} {β : Type v} (f : α → β) : Token α → Token β
  | .text t => .text t
  | .start name attrs empty => .start name (attrs.map fun a => (a.1, f a.2)) empty
  | .close name => .close name

section Trees

variable {α : Type u} {β : Type v}

mutual

/-- The tokens of a tree make the tree. -/
theorem build_flatten : ∀ (n : Node α) (stack : List (Open α)) (nodes : List (Node α))
    (ts : List (Token α)), build stack nodes (n.flatten ++ ts) = build stack (nodes ++ [n]) ts
  | .text t, stack, nodes, ts => by rw [Node.flatten, List.singleton_append, build]
  | .element name attrs children, stack, nodes, ts => by
      rw [Node.flatten]
      split
      · rename_i h
        rw [List.singleton_append, build, if_pos rfl, List.isEmpty_iff.mp h]
      · rw [List.cons_append, build, if_neg (by decide), List.append_assoc,
          build_flattenAll children, List.singleton_append, build, if_pos rfl, List.nil_append]

theorem build_flattenAll : ∀ (ns : List (Node α)) (stack : List (Open α)) (nodes : List (Node α))
    (ts : List (Token α)), build stack nodes (flattenAll ns ++ ts) = build stack (nodes ++ ns) ts
  | [], stack, nodes, ts => by rw [flattenAll, List.nil_append, List.append_nil]
  | n :: ns, stack, nodes, ts => by
      rw [flattenAll, List.append_assoc, build_flatten n, build_flattenAll ns, List.append_assoc,
        List.singleton_append]

end

mutual

theorem flatten_map (f : α → β) : ∀ n : Node α, (n.map f).flatten = n.flatten.map (Token.map f)
  | .text t => by rw [Node.map, Node.flatten, Node.flatten]; rfl
  | .element name attrs children => by
      rw [Node.map, Node.flatten, Node.flatten, flattenAll_map f children]
      cases children with
      | nil => rfl
      | cons n ns =>
          simp only [mapAll, List.isEmpty_cons, Bool.false_eq_true, if_false, List.map_cons,
            List.map_append, List.map_nil]
          rfl

theorem flattenAll_map (f : α → β) : ∀ ns : List (Node α),
    flattenAll (mapAll f ns) = (flattenAll ns).map (Token.map f)
  | [] => by rw [mapAll, flattenAll, flattenAll]; rfl
  | n :: ns => by
      rw [mapAll, flattenAll, flattenAll, flatten_map f n, flattenAll_map f ns, List.map_append]

end

end Trees

/-! ### Writing -/

/-- A way to write characters that is read back, and in which no quote and no tag begins. -/
structure Escapes (f : UInt8 → List UInt8) : Prop where
  reads : ∀ (c : UInt8) (s : List UInt8), unescape (f c ++ s) = (unescape s).map (c :: ·)
  noQuote : ∀ c, 0x22 ∉ f c
  noTag : ∀ c, 0x3C ∉ f c

def writeAttr (f : UInt8 → List UInt8) (a : List UInt8 × List UInt8) : List UInt8 :=
  0x20 :: (a.1 ++ 0x3D :: 0x22 :: (a.2.flatMap f ++ [0x22]))

def Token.write (f : UInt8 → List UInt8) : Token (List UInt8) → List UInt8
  | .text t => t.flatMap f
  | .start name attrs empty =>
      0x3C :: (name ++ (attrs.flatMap (writeAttr f) ++ if empty then [0x2F, 0x3E] else [0x3E]))
  | .close name => 0x3C :: 0x2F :: (name ++ [0x3E])

/-- The text of a tree. -/
def Node.write (f : UInt8 → List UInt8) (n : Node (List UInt8)) : List UInt8 :=
  n.flatten.flatMap (Token.write f)

def writeAll (f : UInt8 → List UInt8) (ns : List (Node (List UInt8))) : List UInt8 :=
  ns.flatMap (Node.write f)

/-- The names are names, no text is empty, and no two texts stand side by side. -/
def wellFormed {α : Type u} : List (Token α) → Bool
  | [] => true
  | .text t :: ts => t ≠ [] ∧ (ts.head?.any Token.isText) = false ∧ wellFormed ts
  | .start name attrs _ :: ts => isName name ∧ (attrs.all fun a => isName a.1) ∧ wellFormed ts
  | .close name :: ts => isName name ∧ wellFormed ts

theorem wellFormed_map {α : Type u} {β : Type v} (f : α → β) (ts : List (Token α)) :
    wellFormed (ts.map (Token.map f)) = wellFormed ts := by
  induction ts with
  | nil => rfl
  | cons t ts ih =>
      have hhead : (ts.map (Token.map f)).head?.any Token.isText = ts.head?.any Token.isText := by
        cases ts with
        | nil => rfl
        | cons t ts => cases t <;> rfl
      cases t with
      | text t => simp only [List.map_cons, Token.map, wellFormed, hhead, ih]
      | start name attrs empty =>
          simp only [List.map_cons, Token.map, wellFormed, ih, List.all_map]
          rfl
      | close name => simp only [List.map_cons, Token.map, wellFormed, ih]

theorem wellFormed_tail {α : Type u} {tok : Token α} {ts : List (Token α)}
    (h : wellFormed (tok :: ts) = true) : wellFormed ts = true := by
  cases tok with
  | text t =>
      simp only [wellFormed, decide_eq_true_eq] at h
      exact h.2.2
  | start name attrs empty =>
      simp only [wellFormed, decide_eq_true_eq] at h
      exact h.2.2
  | close name =>
      simp only [wellFormed, decide_eq_true_eq] at h
      exact h.2

section Writing

variable {f : UInt8 → List UInt8} {name s t r : List UInt8} {c : UInt8}

/-- **What is written character by character is read back.** -/
theorem Escapes.unescape (h : Escapes f) (s : List UInt8) : Xml.unescape (s.flatMap f) = some s := by
  induction s with
  | nil => rfl
  | cons c s ih => rw [List.flatMap_cons, h.reads, ih, Option.map_some]

theorem Escapes.ne_nil (h : Escapes f) (c : UInt8) : f c ≠ [] := by
  intro hnil
  have hreads := h.reads c []
  rw [hnil] at hreads
  cases hreads

/-- A reference to an entity, written out. -/
theorem unescape_reference {ref : List UInt8} (href : 0x3B ∉ ref) (hc : entity ref = some c)
    (s : List UInt8) : unescape (0x26 :: (ref ++ 0x3B :: s)) = (unescape s).map (c :: ·) := by
  have hfrom : ∀ (ref seen : List UInt8), 0x3B ∉ ref → entity (seen ++ ref) = some c →
      unescapeFrom (some seen) (ref ++ 0x3B :: s) = (unescape s).map (c :: ·) := by
    intro ref
    induction ref with
    | nil =>
        intro seen _ hc
        rw [List.append_nil] at hc
        rw [List.nil_append, unescapeFrom, if_pos rfl, hc, Option.bind_some]
        rfl
    | cons d ref ih =>
        intro seen hd hc
        rw [List.mem_cons, not_or] at hd
        rw [List.cons_append, unescapeFrom, if_neg (Ne.symm hd.1)]
        exact ih _ hd.2 (by rwa [List.append_assoc, List.singleton_append])
  rw [Xml.unescape, unescapeFrom, if_pos rfl]
  exact hfrom ref [] href hc

theorem unescape_cons (hc : c ≠ 0x26) (s : List UInt8) :
    unescape (c :: s) = (unescape s).map (c :: ·) := by
  rw [Xml.unescape, unescapeFrom, if_neg hc]
  rfl

theorem takeWhile_append_cons {p : UInt8 → Bool} (hs : ∀ d ∈ s, p d = true) (hc : p c = false)
    (t : List UInt8) : (s ++ c :: t).takeWhile p = s := by
  rw [List.takeWhile_append_of_pos hs, List.takeWhile_cons_of_neg (by simp [hc]), List.append_nil]

theorem dropWhile_append_cons {p : UInt8 → Bool} (hs : ∀ d ∈ s, p d = true) (hc : p c = false)
    (t : List UInt8) : (s ++ c :: t).dropWhile p = c :: t := by
  rw [List.dropWhile_append_of_pos hs, List.dropWhile_cons_of_neg (by simp [hc])]

theorem isName_iff : isName name = true ↔ name ≠ [] ∧ ∀ c ∈ name, isNameChar c = true := by
  simp [isName]

theorem takeName_append (h : isName name = true) (hc : isNameChar c = false) (t : List UInt8) :
    takeName (name ++ c :: t) = some (name, c :: t) := by
  obtain ⟨hne, hchars⟩ := isName_iff.mp h
  rw [takeName, takeWhile_append_cons hchars hc, dropWhile_append_cons hchars hc, if_neg hne]

theorem quoted_append (h : 0x22 ∉ s) (t : List UInt8) :
    quoted (0x22 :: (s ++ 0x22 :: t)) = some (s, t) := by
  have hs : ∀ d ∈ s, (decide (d ≠ 0x22)) = true := by
    intro d hd
    apply decide_eq_true
    rintro rfl
    exact h hd
  rw [quoted, if_pos ⟨rfl, by simp⟩, takeWhile_append_cons hs (by decide),
    dropWhile_append_cons hs (by decide), List.tail_cons]

theorem tagEnd_write (empty : Bool) (t : List UInt8) :
    tagEnd ((if empty then [0x2F, 0x3E] else [0x3E]) ++ t) = some (empty, t) := by
  cases empty
  · rfl
  · rfl

/-- A name is no blank and no end of a tag. -/
theorem name_head (h : isName name = true) (t : List UInt8) :
    (name ++ t).dropWhile isBlank = name ++ t ∧ tagEnd (name ++ t) = none := by
  obtain ⟨hne, hchars⟩ := isName_iff.mp h
  obtain ⟨c, name, rfl⟩ := List.exists_cons_of_ne_nil hne
  have hc := hchars c List.mem_cons_self
  have hkinds : isBlank c = false ∧ c ≠ 0x3E ∧ c ≠ 0x2F := by
    refine ⟨?_, ?_, ?_⟩
    · cases hb : isBlank c with
      | false => rfl
      | true =>
          simp only [isBlank, decide_eq_true_eq] at hb
          rcases hb with rfl | rfl | rfl | rfl
          · exact absurd hc (by decide)
          · exact absurd hc (by decide)
          · exact absurd hc (by decide)
          · exact absurd hc (by decide)
    · rintro rfl
      exact absurd hc (by decide)
    · rintro rfl
      exact absurd hc (by decide)
  obtain ⟨hblank, hgt, hslash⟩ := hkinds
  refine ⟨?_, ?_⟩
  · rw [List.cons_append, List.dropWhile_cons_of_neg (by simp [hblank])]
  · rw [List.cons_append, tagEnd, if_neg hgt, if_neg fun h => hslash h.1]

/-- **An attribute** is read back, whatever its value holds. -/
theorem readAttr_write (hf : Escapes f) {a : List UInt8 × List UInt8} (h : isName a.1 = true)
    (t : List UInt8) :
    readAttr (a.1 ++ 0x3D :: 0x22 :: (a.2.flatMap f ++ [0x22]) ++ t) = some (a, t) := by
  have hquote : 0x22 ∉ a.2.flatMap f := by
    intro hmem
    obtain ⟨c, -, hc⟩ := List.mem_flatMap.mp hmem
    exact hf.noQuote c hc
  have htag : 0x3C ∉ a.2.flatMap f := by
    intro hmem
    obtain ⟨c, -, hc⟩ := List.mem_flatMap.mp hmem
    exact hf.noTag c hc
  rw [List.append_assoc, List.cons_append, List.cons_append, List.append_assoc,
    List.singleton_append, readAttr, takeName_append h (by decide)]
  simp only [Option.bind_eq_bind, Option.bind_some]
  rw [List.dropWhile_cons_of_neg (by decide)]
  dsimp only
  rw [if_neg (by decide), List.dropWhile_cons_of_neg (by decide), quoted_append hquote,
    Option.bind_some]
  dsimp only
  rw [if_neg htag, hf.unescape, Option.bind_some]

/-- **The attributes of a tag.** -/
theorem readAttrs_write (hf : Escapes f) (empty : Bool) (t : List UInt8) :
    ∀ {attrs : List (List UInt8 × List UInt8)} {rounds : Nat}, attrs.length < rounds →
      (∀ a ∈ attrs, isName a.1 = true) →
      readAttrs rounds (attrs.flatMap (writeAttr f) ++ ((if empty then [0x2F, 0x3E] else [0x3E]) ++
        t)) = some (attrs, empty, t) := by
  intro attrs
  induction attrs with
  | nil =>
      intro rounds hlt _
      obtain ⟨n, rfl⟩ : ∃ n, rounds = n + 1 := ⟨rounds - 1, by simp at hlt; omega⟩
      have hdrop : ((if empty then [0x2F, 0x3E] else [0x3E]) ++ t).dropWhile isBlank =
          (if empty then [0x2F, 0x3E] else [0x3E]) ++ t := by
        cases empty
        · rfl
        · rfl
      rw [List.flatMap_nil, List.nil_append, readAttrs, hdrop, tagEnd_write]
  | cons a attrs ih =>
      intro rounds hlt hnames
      obtain ⟨n, rfl⟩ : ∃ n, rounds = n + 1 := ⟨rounds - 1, by simp at hlt; omega⟩
      have hname := hnames a List.mem_cons_self
      have hrest := ih (Nat.lt_of_succ_lt_succ hlt) fun b hb => hnames b (List.mem_cons_of_mem a hb)
      rw [List.flatMap_cons, List.append_assoc, writeAttr, List.cons_append]
      generalize attrs.flatMap (writeAttr f) ++ ((if empty then [0x2F, 0x3E] else [0x3E]) ++ t) =
        more at hrest
      have hhead := name_head hname (0x3D :: 0x22 :: (a.2.flatMap f ++ [0x22]) ++ more)
      rw [← List.append_assoc] at hhead
      rw [readAttrs, List.dropWhile_cons_of_pos (by decide), hhead.1, hhead.2]
      dsimp only
      rw [if_neg (by rw [List.head?_cons]; decide), readAttr_write hf hname]
      simp only [Option.bind_eq_bind, Option.bind_some, hrest]

/-- A text goes on to the next tag. -/
theorem token_text (hf : Escapes f) {t : List UInt8} (ht : t ≠ []) (rest : List UInt8)
    (hrest : rest.head?.all (· = 0x3C) = true) :
    token (t.flatMap f ++ rest) = some (.text t, rest) := by
  have hplain : ∀ d ∈ t.flatMap f, (decide (d ≠ 0x3C)) = true := by
    intro d hd
    apply decide_eq_true
    rintro rfl
    obtain ⟨c, -, hc⟩ := List.mem_flatMap.mp hd
    exact hf.noTag c hc
  have hne : t.flatMap f ≠ [] := by
    obtain ⟨c, t, rfl⟩ := List.exists_cons_of_ne_nil ht
    rw [List.flatMap_cons]
    exact List.append_ne_nil_of_left_ne_nil (hf.ne_nil c) _
  have htake : (t.flatMap f ++ rest).takeWhile (fun d => decide (d ≠ 0x3C)) = t.flatMap f ∧
      (t.flatMap f ++ rest).dropWhile (fun d => decide (d ≠ 0x3C)) = rest := by
    cases rest with
    | nil =>
        have htake := @List.takeWhile_append_of_pos _ _ _ [] hplain
        have hdrop := @List.dropWhile_append_of_pos _ _ _ [] hplain
        rw [List.takeWhile_nil] at htake
        rw [List.append_nil] at htake hdrop ⊢
        exact ⟨htake, hdrop⟩
    | cons d rest =>
        have hd : d = 0x3C := by simpa using hrest
        rw [hd]
        exact ⟨takeWhile_append_cons hplain (by decide) rest,
          dropWhile_append_cons hplain (by decide) rest⟩
  obtain ⟨c, s, hs⟩ := List.exists_cons_of_ne_nil hne
  have hc : c ≠ 0x3C := by
    have hmem : c ∈ t.flatMap f := by rw [hs]; exact List.mem_cons_self
    simpa using hplain c hmem
  have hread := hf.unescape t
  rw [hs] at htake hread ⊢
  rw [List.cons_append] at htake ⊢
  rw [token, if_pos hc, htake.1, htake.2, hread]
  rfl

theorem length_attrs_le (l : List (List UInt8 × List UInt8)) :
    l.length ≤ (l.flatMap (writeAttr f)).length := by
  induction l with
  | nil => exact Nat.zero_le _
  | cons b l ih =>
      rw [List.flatMap_cons, List.length_append, List.length_cons, writeAttr, List.length_cons]
      omega

/-- What follows the name of a tag: no character of a name, and enough for the attributes. -/
theorem after_name (attrs : List (List UInt8 × List UInt8)) (empty : Bool) (rest : List UInt8) :
    ∃ c more, attrs.flatMap (writeAttr f) ++ ((if empty then [0x2F, 0x3E] else [0x3E]) ++ rest) =
      c :: more ∧ isNameChar c = false ∧ attrs.length ≤ more.length := by
  cases attrs with
  | nil =>
      cases empty
      · exact ⟨0x3E, rest, rfl, by decide, Nat.zero_le _⟩
      · exact ⟨0x2F, 0x3E :: rest, rfl, by decide, Nat.zero_le _⟩
  | cons a attrs =>
      refine ⟨0x20, (a.1 ++ 0x3D :: 0x22 :: (a.2.flatMap f ++ [0x22])) ++
        (attrs.flatMap (writeAttr f) ++ ((if empty then [0x2F, 0x3E] else [0x3E]) ++ rest)),
        ?_, by decide, ?_⟩
      · rw [List.flatMap_cons, writeAttr, List.append_assoc, List.cons_append]
      · have hmore := @length_attrs_le f attrs
        simp only [List.length_append, List.length_cons] at hmore ⊢
        omega

theorem token_start (hf : Escapes f) {name : List UInt8} (hname : isName name = true)
    {attrs : List (List UInt8 × List UInt8)} (hattrs : ∀ a ∈ attrs, isName a.1 = true)
    (empty : Bool) (rest : List UInt8) :
    token ((Token.start name attrs empty).write f ++ rest) =
      some (.start name attrs empty, rest) := by
  obtain ⟨hne, hchars⟩ := isName_iff.mp hname
  obtain ⟨c, more, hmore, hc, hle⟩ := @after_name f attrs empty rest
  have hslash : (name ++ (c :: more)).head? ≠ some 0x2F := by
    obtain ⟨d, name, rfl⟩ := List.exists_cons_of_ne_nil hne
    intro hd
    rw [List.cons_append, List.head?_cons, Option.some.injEq] at hd
    have hchar := hchars d List.mem_cons_self
    rw [hd] at hchar
    exact absurd hchar (by decide)
  have hread := @readAttrs_write f hf empty rest attrs (c :: more).length
    (by rw [List.length_cons]; omega) hattrs
  rw [hmore] at hread
  rw [Token.write, List.cons_append, List.append_assoc, List.append_assoc, hmore, token,
    if_neg (by decide), if_neg hslash, startTag, takeName_append hname hc]
  simp only [Option.bind_eq_bind, Option.bind_some, hread]

theorem token_close {name : List UInt8} (hname : isName name = true) (rest : List UInt8) :
    token ((Token.close name).write f ++ rest) = some (.close name, rest) := by
  rw [Token.write, List.cons_append, List.cons_append, List.append_assoc, List.singleton_append,
    token, if_neg (by decide), List.head?_cons, if_pos rfl, List.tail_cons, endTag,
    takeName_append hname (by decide)]
  simp only [Option.bind_eq_bind, Option.bind_some]
  rw [List.dropWhile_cons_of_neg (by decide)]
  rfl

/-- **A token** is read back; what comes after a text must be a tag. -/
theorem token_write (hf : Escapes f) {tok : Token (List UInt8)} {ts : List (Token (List UInt8))}
    (h : wellFormed (tok :: ts) = true) (rest : List UInt8)
    (hrest : tok.isText = true → rest.head?.all (· = 0x3C) = true) :
    token (tok.write f ++ rest) = some (tok, rest) := by
  cases tok with
  | text t =>
      simp only [wellFormed, ne_eq, decide_eq_true_eq] at h
      exact token_text hf h.1 rest (hrest rfl)
  | start name attrs empty =>
      simp only [wellFormed, decide_eq_true_eq, List.all_eq_true] at h
      exact token_start hf h.1 h.2.1 empty rest
  | close name =>
      simp only [wellFormed, decide_eq_true_eq] at h
      exact token_close h.1 rest

/-- **Tokens that are written are read back.** -/
theorem tokens_write (hf : Escapes f) : ∀ {ts : List (Token (List UInt8))} {rounds : Nat},
    ts.length ≤ rounds → wellFormed ts = true →
      tokens rounds (ts.flatMap (Token.write f)) = some ts := by
  intro ts
  induction ts with
  | nil =>
      intro rounds _ _
      cases rounds
      · rfl
      · rfl
  | cons tok ts ih =>
      intro rounds hle h
      obtain ⟨n, rfl⟩ : ∃ n, rounds = n + 1 := ⟨rounds - 1, by simp at hle; omega⟩
      have hnext : tok.isText = true → (ts.flatMap (Token.write f)).head?.all (· = 0x3C) = true := by
        intro htext
        cases tok with
        | text t =>
            simp only [wellFormed, decide_eq_true_eq] at h
            cases ts with
            | nil => rfl
            | cons next ts =>
                cases next with
                | text t => exact absurd h.2.1 (by simp [Token.isText])
                | start name attrs empty => rfl
                | close name => rfl
        | start name attrs empty => cases htext
        | close name => cases htext
      have hread := token_write hf h _ hnext
      have hne : tok.write f ++ ts.flatMap (Token.write f) ≠ [] := by
        intro hnil
        rw [hnil] at hread
        cases hread
      rw [List.flatMap_cons, tokens, if_neg hne, hread]
      simp only [Option.bind_eq_bind, Option.bind_some]
      rw [ih (Nat.le_of_succ_le_succ hle) (wellFormed_tail h), Option.bind_some]

theorem tokenise_write (hf : Escapes f) {ts : List (Token (List UInt8))}
    (h : wellFormed ts = true) : tokenise (ts.flatMap (Token.write f)) = some ts := by
  apply tokens_write hf _ h
  have hlen : ∀ ts : List (Token (List UInt8)), wellFormed ts = true →
      ts.length ≤ (ts.flatMap (Token.write f)).length := by
    intro ts
    induction ts with
    | nil => intro _; exact Nat.zero_le _
    | cons tok ts ih =>
        intro h
        have hone : 0 < (tok.write f).length := by
          cases tok with
          | text t =>
              simp only [wellFormed, ne_eq, decide_eq_true_eq] at h
              obtain ⟨c, t, rfl⟩ := List.exists_cons_of_ne_nil h.1
              have hc := List.length_pos_iff.mpr (hf.ne_nil c)
              rw [Token.write, List.flatMap_cons, List.length_append]
              omega
          | start name attrs empty => exact Nat.succ_pos _
          | close name => exact Nat.succ_pos _
        have hrest := ih (wellFormed_tail h)
        rw [List.flatMap_cons, List.length_append, List.length_cons]
        omega
  exact hlen ts h

theorem writeAll_eq (ns : List (Node (List UInt8))) :
    writeAll f ns = (flattenAll ns).flatMap (Token.write f) := by
  induction ns with
  | nil => rfl
  | cons n ns ih =>
      rw [writeAll, List.flatMap_cons, flattenAll, List.flatMap_append, ← ih]
      rfl

theorem write_text (t : List UInt8) : (Node.text t).write f = t.flatMap f := by
  rw [Node.write, Node.flatten, List.flatMap_singleton, Token.write]

theorem write_empty (name : List UInt8) (attrs : List (List UInt8 × List UInt8)) :
    (Node.element name attrs []).write f =
      0x3C :: (name ++ (attrs.flatMap (writeAttr f) ++ [0x2F, 0x3E])) := by
  rw [Node.write, Node.flatten, List.isEmpty_nil, if_pos rfl, List.flatMap_singleton, Token.write,
    if_pos rfl]

theorem write_element (name : List UInt8) (attrs : List (List UInt8 × List UInt8))
    (n : Node (List UInt8)) (ns : List (Node (List UInt8))) :
    (Node.element name attrs (n :: ns)).write f =
      0x3C :: (name ++ (attrs.flatMap (writeAttr f) ++ 0x3E :: (writeAll f (n :: ns) ++
        0x3C :: 0x2F :: (name ++ [0x3E])))) := by
  rw [Node.write, Node.flatten, List.isEmpty_cons, if_neg (by decide), List.flatMap_cons,
    List.flatMap_append, ← writeAll_eq, List.flatMap_singleton, Token.write, Token.write,
    if_neg (by decide)]
  simp only [List.cons_append, List.append_assoc, List.nil_append]

/-- **Trees that are written are read back.** -/
theorem parse_write (hf : Escapes f) {ns : List (Node (List UInt8))}
    (h : wellFormed (flattenAll ns) = true) : parse (writeAll f ns) = some ns := by
  rw [writeAll_eq]
  have hbuild := build_flattenAll ns [] [] []
  rw [List.append_nil, List.nil_append] at hbuild
  rw [parse, tokenise_write hf h, Option.bind_some, hbuild, build]

end Writing

end Xml
