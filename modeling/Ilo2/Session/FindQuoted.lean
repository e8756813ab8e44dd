import Ilo2.Lib.Scan
import Ilo2.Lib.Text
import Ilo2.Tls.Prf

/-!
# Values in a page

`find_quoted` of `ilo_session.hpp`, with its loops and its reads.  `AssignedAt` says where a
page assigns a text to a name; the loop passes over what only looks like it.

* `valueStart_ok` - the `=` of an assignment, and the blanks around it.
* `quoteRound_good` - a round.
* `findQuoted_first` - **the value of the first assignment is found**.
-/

namespace Ilo2.Session

open Scan Text Checked
open Tls (ascii)

/-! ### The scan -/

/-- `std::isdigit`, `std::islower` and `std::isalnum`. -/
def isDigit (c : UInt8) : Bool := 0x30 ≤ c ∧ c ≤ 0x39
def isLower (c : UInt8) : Bool := 0x61 ≤ c ∧ c ≤ 0x7A
def isAlnum (c : UInt8) : Bool := isDigit c ∨ isLower c ∨ (0x41 ≤ c ∧ c ≤ 0x5A)

/-- The characters of identifiers. -/
def isIdent (c : UInt8) : Bool := isAlnum c ∨ c = 0x5F

def isBlank (c : UInt8) : Bool := c = 0x20 ∨ c = 0x09

def QUOTE : UInt8 := 0x22

/-- A hit that is really the tail of a longer identifier. -/
def isTail (page : List UInt8) (pos : Nat) : Except Fault Bool :=
  if pos > 0 then do
    let prev ← charAt page (pos - 1)
    .ok (isIdent prev)
  else .ok false

/-- Blanks, `=`, blanks: where the value starts, if there is a `=`. -/
def valueStart (page : List UInt8) (rounds p : Nat) : Except Fault (Option Nat) := do
  let p ← skipWhile isBlank page page.length rounds p
  let eq ← holds (· = 0x3D) page page.length p
  if ¬ eq then .ok none
  else
    let p ← skipWhile isBlank page page.length rounds (p + 1)
    .ok (some p)

/-- The body of the loop of `find_quoted`. -/
def quoteRound (page name : List UInt8) (rounds pos : Nat) :
    Except Fault (Round Nat (Option (List UInt8))) :=
  match findFrom name page pos with
  | none => .ok (.done none)
  | some pos => do
      let tail ← isTail page pos
      if tail then .ok (.next (pos + name.length))
      else
        let start ← valueStart page rounds (pos + name.length)
        match start with
        | none => .ok (.next (pos + name.length))
        | some p => do
            let quote ← holds (· = QUOTE) page page.length p
            if ¬ quote then .ok (.next (pos + name.length))
            else
              match findFrom [QUOTE] page (p + 1) with
              | none => .ok (.done none)
              | some ve => do
                  let value ← substr page (p + 1) (ve - (p + 1))
                  .ok (.done (some value))

/-- `find_quoted`: what it returns, and `out`. -/
def findQuoted (page name : List UInt8) (rounds : Nat) (out : List UInt8) :
    Except Fault (Bool × List UInt8) := do
  let value ← loop .rounds (quoteRound page name rounds) rounds 0
  match value with
  | none => .ok (false, out)
  | some value => .ok (true, value)

/-! ### Assignments -/

/-- The character before `p` is none of an identifier. -/
def Boundary (page : List UInt8) (p : Nat) : Prop :=
  ∀ c, 0 < p → page[p - 1]? = some c → isIdent c = false

def Blank (b : List UInt8) : Prop := ∀ c ∈ b, isBlank c = true

/-- Blanks, `=` and blanks, and then `r`. -/
def Equals (s r : List UInt8) : Prop :=
  ∃ b₁ b₂, Blank b₁ ∧ Blank b₂ ∧ s = b₁ ++ 0x3D :: (b₂ ++ r)

/-- At `p` the page assigns the text `v`, in quotes, to the name. -/
def AssignedAt (page name : List UInt8) (p : Nat) (v : List UInt8) : Prop :=
  Boundary page p ∧ ∃ s after, page.drop p = name ++ s ∧ Equals s (QUOTE :: (v ++ QUOTE :: after)) ∧
    QUOTE ∉ v

variable {page name s r v : List UInt8} {i p pos rounds : Nat}

theorem isTail_ok (hpos : pos ≤ page.length) :
    ∃ tail, isTail page pos = .ok tail ∧ (tail = false ↔ Boundary page pos) := by
  rw [isTail]
  by_cases h : pos > 0
  · rw [if_pos h, charAt_of_lt (by omega), ok_bind]
    refine ⟨_, rfl, fun htail c _ hc => ?_, fun hb => hb _ h (List.getElem?_eq_getElem (by omega))⟩
    rw [List.getElem?_eq_getElem (by omega), Option.some.injEq] at hc
    rw [← hc]
    exact htail
  · exact ⟨false, if_neg h, fun _ c hc => absurd hc h, fun _ => rfl⟩

theorem head_any {c : UInt8} : s.head?.any (· = c) = true ↔ s.head? = some c := by
  cases s with
  | nil => simp
  | cons a s => simp

/-- A `=` is no blank, so that it is found. -/
theorem valueStart_ok (hrounds : page.length < rounds) (h : page.drop p = s) :
    (∃ q r, valueStart page rounds p = .ok (some q) ∧ page.drop q = r ∧ p < q ∧ q ≤ page.length ∧
      Equals s r ∧ ∀ c ∈ r.head?, isBlank c = false) ∨
    (valueStart page rounds p = .ok none ∧ ∀ r, ¬ Equals s r) := by
  obtain ⟨b, t, rfl, hb, ht⟩ := exists_span isBlank s
  obtain ⟨hskip, hdrop⟩ := skipWhile_span hrounds h hb ht
  rw [valueStart, hskip, ok_bind, holds_head _ hdrop, ok_bind]
  by_cases heq : t.head? = some 0x3D
  · left
    obtain ⟨t, rfl⟩ := List.head?_eq_some_iff.mp heq
    obtain ⟨b₂, r, rfl, hb₂, hr⟩ := exists_span isBlank t
    have hdrop₂ : page.drop (p + b.length + 1) = b₂ ++ r := by
      rw [← List.drop_drop, hdrop]
      rfl
    obtain ⟨hskip₂, hrest⟩ := skipWhile_span hrounds hdrop₂ hb₂ hr
    have hlen := congrArg List.length hdrop
    rw [List.length_drop, List.length_cons, List.length_append] at hlen
    refine ⟨_, r, ?_, hrest, by omega, by omega, ⟨b, b₂, hb, hb₂, rfl⟩, hr⟩
    rw [if_neg (not_not.mpr (head_any.mpr heq)), hskip₂, ok_bind]
  · right
    refine ⟨if_pos (fun h => heq (head_any.mp h)), ?_⟩
    rintro r ⟨b₁, b₂, hb₁, -, hs⟩
    obtain ⟨-, rfl⟩ := span_unique hb ht hb₁ (by rintro c ⟨⟩; rfl) hs
    exact heq rfl

theorem Equals.unique {r' : List UInt8} (h : Equals s r) (hr : ∀ c ∈ r.head?, isBlank c = false)
    (h' : Equals s r') (hr' : ∀ c ∈ r'.head?, isBlank c = false) : r = r' := by
  obtain ⟨b₁, b₂, hb₁, hb₂, rfl⟩ := h
  obtain ⟨b₁', b₂', hb₁', hb₂', hs⟩ := h'
  obtain ⟨-, hrest⟩ := span_unique hb₁ (by rintro c ⟨⟩; rfl) hb₁' (by rintro c ⟨⟩; rfl) hs
  exact (span_unique hb₂ hr hb₂' hr' (List.cons.inj hrest).2).2

/-- A quote, and the text up to the next one, if there is one. -/
theorem quote_cases (h : page.drop p = QUOTE :: r) :
    (QUOTE ∉ r ∧ findFrom [QUOTE] page (p + 1) = none) ∨
      ∃ v after, r = v ++ QUOTE :: after ∧ QUOTE ∉ v ∧
        findFrom [QUOTE] page (p + 1) = some (p + 1 + v.length) ∧
        substr page (p + 1) (p + 1 + v.length - (p + 1)) = .ok v := by
  have hrest : page.drop (p + 1) = r := by
    rw [← List.drop_drop, h]
    rfl
  have hin : p + 1 ≤ page.length := by
    have hlen := congrArg List.length h
    rw [List.length_drop, List.length_cons] at hlen
    omega
  rcases find_singleton_cases QUOTE r with ⟨hno, hclose⟩ | ⟨v, after, rfl, hv, hclose⟩
  · exact .inl ⟨hno, by rw [findFrom, hrest, hclose]; rfl⟩
  · refine .inr ⟨v, after, rfl, hv, by rw [findFrom, hrest, hclose]; rfl, ?_⟩
    rw [substr, if_pos hin, hrest, Nat.add_sub_cancel_left, List.take_left]

/-- Inside a run of the characters of identifiers, and at its end, is no boundary. -/
theorem not_boundary {w : List UInt8} (h : page.drop p = w ++ s) (hw : ∀ c ∈ w, isIdent c = true)
    {q : Nat} (hlt : p < q) (hle : q ≤ p + w.length) : ¬ Boundary page q := by
  intro hb
  have hq : q - 1 - p < w.length := by omega
  have hchar : page[q - 1]? = some w[q - 1 - p] := by
    have hdrop : (page.drop p)[q - 1 - p]? = page[q - 1]? := by
      rw [List.getElem?_drop]
      congr 1
      omega
    rw [← hdrop, h, List.getElem?_append_left hq, List.getElem?_eq_getElem hq]
  have hident := hw _ (List.getElem_mem hq)
  rw [hb _ (by omega) hchar] at hident
  cases hident

theorem AssignedAt.stands (h : AssignedAt page name p v) : Stands name page p := by
  obtain ⟨-, s, after, hdrop, -⟩ := h
  rw [Stands, hdrop]
  exact List.prefix_append _ _

/-- What stands behind the name. -/
theorem AssignedAt.behind (h : AssignedAt page name p v) (hs : page.drop p = name ++ s) :
    ∃ after, Equals s (QUOTE :: (v ++ QUOTE :: after)) := by
  obtain ⟨-, s', after, hdrop, heq, -⟩ := h
  rw [hs, List.append_cancel_left_eq] at hdrop
  exact ⟨after, hdrop ▸ heq⟩

/-- An assignment has two quotes. -/
theorem AssignedAt.two_quotes (h : AssignedAt page name p v) : 2 ≤ (page.drop p).count QUOTE := by
  obtain ⟨-, s, after, hdrop, ⟨b₁, b₂, -, -, rfl⟩, -⟩ := h
  rw [hdrop]
  simp only [List.count_append, List.count_cons_self, List.count_cons]
  omega

/-- The blanks and the `=` have none. -/
theorem Equals.count (h : Equals s r) : s.count QUOTE = r.count QUOTE := by
  obtain ⟨b₁, b₂, hb₁, hb₂, rfl⟩ := h
  have hblank {b : List UInt8} (hb : Blank b) : b.count QUOTE = 0 :=
    List.count_eq_zero.mpr fun hmem => absurd (hb QUOTE hmem) (by decide)
  rw [List.count_append, List.count_cons, List.count_append, hblank hb₁, hblank hb₂]
  simp only [Nat.zero_add]
  rfl

/-- **A quote that is not closed is the last**: no assignment can follow. -/
theorem not_assigned_behind (hident : ∀ c ∈ name, isIdent c = true)
    (hs : page.drop p = name ++ s) (heq : Equals s (QUOTE :: r)) (hno : QUOTE ∉ r) {q : Nat}
    (hpq : p ≤ q) : ¬ AssignedAt page name q v := by
  intro h
  have hzero : name.count QUOTE = 0 :=
    List.count_eq_zero.mpr fun hmem => absurd (hident QUOTE hmem) (by decide)
  have hone : (page.drop p).count QUOTE = 1 := by
    rw [hs, List.count_append, hzero, heq.count, List.count_cons_self, List.count_eq_zero.mpr hno]
  have hsuffix : page.drop q <:+ page.drop p := by
    rw [← Nat.add_sub_cancel' hpq, ← List.drop_drop]
    exact List.drop_suffix _ _
  have htwo := h.two_quotes
  have hle := hsuffix.sublist.count_le QUOTE
  omega

/-! ### The first one -/

/-- What is to come from `pos` on: the value of the first assignment there, if there is one. -/
def FirstFrom (page name : List UInt8) (pos : Nat) (r : Option (List UInt8)) : Prop :=
  (r = none ∧ ∀ q w, pos ≤ q → ¬ AssignedAt page name q w) ∨
    ∃ v p, r = some v ∧ pos ≤ p ∧ AssignedAt page name p v ∧
      ∀ q w, pos ≤ q → AssignedAt page name q w → p ≤ q

theorem FirstFrom.skip {pos' : Nat} {r : Option (List UInt8)} (h : FirstFrom page name pos' r)
    (hle : pos ≤ pos') (hnone : ∀ q w, pos ≤ q → q < pos' → ¬ AssignedAt page name q w) :
    FirstFrom page name pos r := by
  have hfrom {q : Nat} {w : List UInt8} (hq : pos ≤ q) (hw : AssignedAt page name q w) :
      pos' ≤ q := Nat.le_of_not_lt fun hlt => hnone q w hq hlt hw
  rcases h with ⟨hr, hall⟩ | ⟨v, p, hr, hp, hv, hfirst⟩
  · exact .inl ⟨hr, fun q w hq hw => hall q w (hfrom hq hw) hw⟩
  · exact .inr ⟨v, p, hr, by omega, hv, fun q w hq hw => hfirst q w (hfrom hq hw) hw⟩

/-- In front of the first hit nothing is assigned. -/
theorem not_assigned_before (hname : name ≠ []) (hfind : findFrom name page pos = some i) {q : Nat}
    (hq : pos ≤ q) (hlt : q < i) : ¬ AssignedAt page name q v := fun hv =>
  findFrom_first hname hfind hq hlt hv.stands

/-- A hit that is no assignment is passed over: none begins inside it. -/
theorem good_skip (hname : name ≠ []) (hident : ∀ c ∈ name, isIdent c = true)
    (hfind : findFrom name page pos = some i) (hnone : ∀ w, ¬ AssignedAt page name i w) :
    Round.Good (fun _ => True) (fun pos => page.length - pos) (FirstFrom page name) pos
      (.next (i + name.length)) := by
  obtain ⟨hpos, ⟨s, hs⟩, hle⟩ := findFrom_stands hname hfind
  have hpositive := List.length_pos_iff.mpr hname
  refine .next trivial (by omega) fun r hr => hr.skip (by omega) fun q w hq hlt hw => ?_
  rcases Nat.lt_trichotomy q i with h | rfl | h
  · exact not_assigned_before hname hfind hq h hw
  · exact hnone w hw
  · exact not_boundary hs.symm hident h (by omega) hw.1

theorem quoteRound_good (hname : name ≠ []) (hident : ∀ c ∈ name, isIdent c = true)
    (hrounds : page.length < rounds) (pos : Nat) :
    ∃ t, quoteRound page name rounds pos = .ok t ∧
      Round.Good (fun _ => True) (fun pos => page.length - pos) (FirstFrom page name) pos t := by
  rw [quoteRound]
  rcases hfind : findFrom name page pos with _ | i
  · refine ⟨_, rfl, .done (.inl ⟨rfl, fun q w hq hw => ?_⟩)⟩
    exact findFrom_eq_none hname hfind hq hw.stands
  obtain ⟨hpos, ⟨s, hs⟩, hle⟩ := findFrom_stands hname hfind
  have hskip := good_skip hname hident hfind
  dsimp only
  obtain ⟨tail, htail, hboundary⟩ := isTail_ok (show i ≤ page.length by omega)
  rw [htail, ok_bind]
  cases tail with
  | true => exact ⟨_, rfl, hskip fun w hw => absurd (hboundary.mpr hw.1) (by decide)⟩
  | false =>
      rw [if_neg Bool.false_ne_true]
      have hafter : page.drop (i + name.length) = s := by
        rw [← List.drop_drop, ← hs, List.drop_left]
      rcases valueStart_ok hrounds hafter with
        ⟨p, r, hstart, hdrop, -, -, heq, hr⟩ | ⟨hstart, hnone⟩
      case inr =>
        rw [hstart, ok_bind]
        refine ⟨_, rfl, hskip fun w hw => ?_⟩
        obtain ⟨after, heq⟩ := hw.behind hs.symm
        exact hnone _ heq
      rw [hstart, ok_bind]
      dsimp only
      rw [holds_head _ hdrop, ok_bind]
      by_cases hquote : r.head? = some QUOTE
      case neg =>
        refine ⟨_, if_pos fun h => hquote (head_any.mp h), hskip fun w hw => ?_⟩
        obtain ⟨after, heq'⟩ := hw.behind hs.symm
        rw [heq.unique hr heq' (by rintro c ⟨⟩; rfl)] at hquote
        exact hquote rfl
      rw [if_neg (not_not.mpr (head_any.mpr hquote))]
      obtain ⟨r, rfl⟩ := List.head?_eq_some_iff.mp hquote
      rcases quote_cases hdrop with ⟨hno, hclose⟩ | ⟨v, after, rfl, hv, hclose, hsubstr⟩
      · rw [hclose]
        refine ⟨_, rfl, .done (.inl ⟨rfl, fun q w hq hw => ?_⟩)⟩
        have hiq : i ≤ q := Nat.le_of_not_lt fun hlt => not_assigned_before hname hfind hq hlt hw
        exact not_assigned_behind hident hs.symm heq hno hiq hw
      · rw [hclose]
        dsimp only
        rw [hsubstr, ok_bind]
        refine ⟨_, rfl, .done (.inr ⟨v, i, rfl, hpos, ?_, fun q w hq hw => ?_⟩)⟩
        · exact ⟨hboundary.mp rfl, s, after, hs.symm, heq, hv⟩
        · exact Nat.le_of_not_lt fun hlt => not_assigned_before hname hfind hq hlt hw

/-- **The first assignment** is found, on every page: the result is true if there is one, and then
the text is that between its quotes; if there is none the text is left alone. -/
theorem findQuoted_first {page name : List UInt8} {rounds : Nat} (hname : name ≠ [])
    (hident : ∀ c ∈ name, isIdent c = true) (hrounds : page.length < rounds) (out : List UInt8) :
    ∃ found text, findQuoted page name rounds out = .ok (found, text) ∧
      (found = true ↔ ∃ p v, AssignedAt page name p v) ∧
      (found = true → ∃ p, AssignedAt page name p text ∧
        ∀ q w, AssignedAt page name q w → p ≤ q) ∧
      (found = false → text = out) := by
  obtain ⟨r, hloop, hr⟩ := loop_ok Fault.rounds _ _ _
    (fun pos _ => quoteRound_good hname hident hrounds pos) rounds (s := 0) trivial (by omega)
  rw [findQuoted, hloop, ok_bind]
  rcases hr with ⟨rfl, hnone⟩ | ⟨v, p, rfl, -, hv, hfirst⟩
  · refine ⟨false, out, rfl, ⟨fun h => absurd h (by decide), ?_⟩, fun h => absurd h (by decide),
      fun _ => rfl⟩
    rintro ⟨p, v, hv⟩
    exact absurd hv (hnone p v (Nat.zero_le p))
  · exact ⟨true, v, rfl, ⟨fun _ => ⟨p, v, hv⟩, fun _ => rfl⟩,
      fun _ => ⟨p, hv, fun q w hw => hfirst q w (Nat.zero_le q) hw⟩, fun h => absurd h (by decide)⟩

/-- A decoy, an assignment with blanks, and another one. -/
theorem findQuoted_first_decoy : ∃ p, AssignedAt (ascii "akey=\"x\" key = \"y\"key=\"z\"")
    (ascii "key") p (ascii "y") ∧ ∀ q w, AssignedAt (ascii "akey=\"x\" key = \"y\"key=\"z\"")
      (ascii "key") q w → p ≤ q := by
  obtain ⟨found, text, hrun, -, hfound, -⟩ := findQuoted_first
    (show ascii "key" ≠ [] by decide)
    (List.all_eq_true.mp (show (ascii "key").all isIdent = true by decide))
    (show (ascii "akey=\"x\" key = \"y\"key=\"z\"").length < 40 by decide) []
  have hvalue : findQuoted (ascii "akey=\"x\" key = \"y\"key=\"z\"") (ascii "key") 40 [] =
      .ok (true, ascii "y") := by rfl
  rw [hvalue] at hrun
  cases hrun
  exact hfound rfl

end Ilo2.Session
