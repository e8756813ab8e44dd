import Ilo2.Lib.Text
import Ilo2.Lib.Strtol
import Ilo2.Tls.Prf
import Mathlib.Data.List.Basic
import Mathlib.Data.List.TakeWhile
import Mathlib.Data.List.Forall2
import Mathlib.Algebra.Group.Nat.Defs
import Mathlib.Algebra.Group.Int.Defs

/-!
# The Range header

`parse_range_header` of `httplib.h`, with `split`, `trim` and `from_chars`.  A range is a pair of
positions, both included; -1 stands for one that is not there.

* `fromChars_numeric` - a number is read if it fits, with any zeros before it.
* `rangeSpec_iff` - what one range looks like.
* `parseRangeHeader_iff` - **what is accepted as a header**, and as which ranges.
-/

namespace Ilo2.Media.Httplib

open Strtol (Numeric)
open Tls (ascii)

/-! ### Numbers -/

def isAsciiDigit (c : UInt8) : Bool := 0x30 ≤ c ∧ c ≤ 0x39

/-- `std::numeric_limits<ssize_t>::max()`. -/
def ssizeMax : Int := 2 ^ 63 - 1

/-- The loop of `from_chars`, in base 10: none if the number does not fit. -/
def fromCharsLoop (result : Int) : List UInt8 → Option Int
  | [] => some result
  | c :: s =>
      if isAsciiDigit c then
        let digit : Int := c.toNat - 0x30
        if result > (ssizeMax - digit) / 10 then none
        else fromCharsLoop (result * 10 + digit) s
      else some result

/-- `from_chars<ssize_t>`. -/
def fromChars (s : List UInt8) : Option Int :=
  let negative := s.head? = some 0x2D
  let body := if negative then s.tail else s
  match body with
  | [] => none
  | c :: _ =>
      if isAsciiDigit c then (fromCharsLoop 0 body).map fun n => if negative then 0 - n else n
      else none

/-! ### Lists -/

def isSpaceOrTab (c : UInt8) : Bool := c = 0x20 ∨ c = 0x09

def trim (s : List UInt8) : List UInt8 :=
  ((s.dropWhile isSpaceOrTab).reverse.dropWhile isSpaceOrTab).reverse

/-- `split`: what is left between two delimiters, unless that is nothing. -/
def split (d : UInt8) (s : List UInt8) : List (List UInt8) :=
  ((s.splitOn d).map trim).filter fun piece => piece ≠ []

/-! ### Ranges -/

abbrev Range := Int × Int

/-- A number at one end of a range, or -1. -/
def bound (s : List UInt8) : Int := if s = [] then -1 else (fromChars s).getD (-1)

/-- One range of `parse_range_header`, if it is valid. -/
def rangeSpec (piece : List UInt8) : Option Range :=
  if 0x2D ∉ piece then none
  else
    let lhs := piece.takeWhile (· ≠ 0x2D)
    let rhs := (piece.dropWhile (· ≠ 0x2D)).drop 1
    if ¬ lhs.all isAsciiDigit ∨ ¬ rhs.all isAsciiDigit then none
    else
      let first := bound lhs
      let last := bound rhs
      if (first = -1 ∧ last = -1) ∨ (first ≠ -1 ∧ last ≠ -1 ∧ first > last) then none
      else some (first, last)

def parseRangeHeader (s : List UInt8) : Option (List Range) :=
  if s.length > 7 ∧ s.take 6 = ascii "bytes=" then
    ((split 0x2C (s.drop 6)).mapM rangeSpec).filter fun ranges => ranges ≠ []
  else none

/-! ### What they look like -/

/-- The text of one end of a range: nothing, or a number, which is as good as nothing if it does
not fit. -/
inductive Bound : List UInt8 → Int → Prop where
  | absent : Bound [] (-1)
  | number {s : List UInt8} {n : Nat} (h : Numeric s n) (hfits : n < 2 ^ 63) : Bound s n
  | tooBig {s : List UInt8} {n : Nat} (h : Numeric s n) (hbig : 2 ^ 63 ≤ n) : Bound s (-1)

/-- A range that asks for something: not both ends are missing, and they are in order. -/
structure Valid (r : Range) : Prop where
  some : ¬ (r.1 = -1 ∧ r.2 = -1)
  ordered : r.1 ≠ -1 → r.2 ≠ -1 → r.1 ≤ r.2

/-- The text of one range. -/
inductive Spec : List UInt8 → Range → Prop where
  | mk {lhs rhs : List UInt8} {first last : Int} (hfirst : Bound lhs first) (hlast : Bound rhs last)
      (hvalid : Valid (first, last)) : Spec (lhs ++ 0x2D :: rhs) (first, last)

/-- An element of the list: blanks, or a range between blanks. -/
inductive Element : List UInt8 → Option Range → Prop where
  | blank {s : List UInt8} (h : ∀ c ∈ s, isSpaceOrTab c = true) : Element s none
  | spec {left piece right : List UInt8} {r : Range} (hleft : ∀ c ∈ left, isSpaceOrTab c = true)
      (h : Spec piece r) (hright : ∀ c ∈ right, isSpaceOrTab c = true) :
      Element (left ++ piece ++ right) (some r)

variable {s piece : List UInt8} {n : Nat} {r : Range} {x : Int}

/-! ### Reading numbers -/

theorem isAsciiDigit_iff {c : UInt8} : isAsciiDigit c = true ↔ 0x30 ≤ c ∧ c ≤ 0x39 :=
  decide_eq_true_iff

theorem digit_range {c : UInt8} (h : isAsciiDigit c = true) : 0x30 ≤ c.toNat ∧ c.toNat ≤ 0x39 :=
  isAsciiDigit_iff.mp h

/-- **The loop** gives the number if it fits, and stops at the first digit with which it does
not. -/
theorem fromCharsLoop_digits (s : List UInt8) : ∀ k : Nat, (k : Int) ≤ ssizeMax →
    (∀ c ∈ s, isAsciiDigit c = true) →
    let n := (s.map fun c => c.toNat - 0x30).foldl (fun n d => n * 10 + d) k
    fromCharsLoop k s = if (n : Int) ≤ ssizeMax then some (n : Int) else none := by
  induction s with
  | nil =>
      intro k hk _ n
      exact (if_pos hk).symm
  | cons c s ih =>
      intro k hk hs n
      have hc := digit_range (hs c List.mem_cons_self)
      have hrest : ∀ c ∈ s, isAsciiDigit c = true := fun c hc => hs c (List.mem_cons_of_mem _ hc)
      have hcast : (k : Int) * 10 + ((c.toNat : Int) - 0x30) =
          ((k * 10 + (c.toNat - 0x30) : Nat) : Int) := by omega
      rw [fromCharsLoop, if_pos (hs c List.mem_cons_self)]
      dsimp only
      have hmax : ssizeMax = 9223372036854775807 := rfl
      by_cases hfits : (k : Int) > (ssizeMax - ((c.toNat : Int) - 0x30)) / 10
      · -- The number only grows.
        have hgrow : ∀ (t : List Nat) (m : Nat), m ≤ t.foldl (fun n d => n * 10 + d) m := by
          intro t
          induction t with
          | nil => intro m; exact Nat.le_refl m
          | cons d t ih =>
              intro m
              exact Nat.le_trans (by omega) (ih (m * 10 + d))
        have hn : k * 10 + (c.toNat - 0x30) ≤ n := hgrow _ _
        rw [if_pos hfits, if_neg (by omega)]
      · rw [if_neg hfits, hcast]
        exact ih _ (by omega) hrest

/-- **A number is read if it fits**, whatever zeros it starts with. -/
theorem fromChars_numeric (h : Numeric s n) :
    fromChars s = if n < 2 ^ 63 then some (n : Int) else none := by
  obtain ⟨hne, hdigits, rfl⟩ := h
  obtain ⟨c, t, rfl⟩ := List.exists_cons_of_ne_nil hne
  have hall : ∀ c' ∈ c :: t, isAsciiDigit c' = true :=
    fun c' hc => isAsciiDigit_iff.mpr (hdigits c' hc)
  have hhead := hall c List.mem_cons_self
  have hminus : c ≠ 0x2D := by
    rintro rfl
    exact absurd hhead (by decide)
  have hloop := fromCharsLoop_digits (c :: t) 0 (by decide) hall
  rw [fromChars]
  simp only [List.head?_cons, Option.some.injEq, hminus, if_false, hhead, if_true]
  rw [show (0 : Int) = ((0 : Nat) : Int) from rfl, hloop]
  have hmax : ssizeMax = 2 ^ 63 - 1 := rfl
  unfold Strtol.value
  split
  · rw [if_pos (by omega)]
    rfl
  · rw [if_neg (by omega)]
    rfl

theorem numeric_iff_digits : (∃ n, Numeric s n) ↔ s ≠ [] ∧ s.all isAsciiDigit = true := by
  rw [List.all_eq_true]
  constructor
  · rintro ⟨n, hne, hdigits, -⟩
    exact ⟨hne, fun c hc => isAsciiDigit_iff.mpr (hdigits c hc)⟩
  · rintro ⟨hne, hall⟩
    exact ⟨_, hne, fun c hc => isAsciiDigit_iff.mp (hall c hc), rfl⟩

theorem bound_iff : s.all isAsciiDigit = true ∧ bound s = x ↔ Bound s x := by
  constructor
  · rintro ⟨hall, rfl⟩
    rw [bound]
    split
    · rename_i hnil
      rw [hnil]
      exact .absent
    · rename_i hne
      obtain ⟨n, hn⟩ := numeric_iff_digits.mpr ⟨hne, hall⟩
      rw [fromChars_numeric hn]
      split
      · exact .number hn ‹_›
      · exact .tooBig hn (by omega)
  · intro h
    cases h with
    | absent => exact ⟨rfl, rfl⟩
    | number h hfits =>
        obtain ⟨hne, hall⟩ := numeric_iff_digits.mp ⟨_, h⟩
        exact ⟨hall, by rw [bound, if_neg hne, fromChars_numeric h, if_pos hfits]; rfl⟩
    | tooBig h hbig =>
        obtain ⟨hne, hall⟩ := numeric_iff_digits.mp ⟨_, h⟩
        exact ⟨hall, by rw [bound, if_neg hne, fromChars_numeric h, if_neg (by omega)]; rfl⟩

/-! ### One range -/

theorem Bound.digits (h : Bound s x) : ∀ c ∈ s, isAsciiDigit c = true :=
  List.all_eq_true.mp (bound_iff.mpr h).1

/-- The dash is the first one, since there is none among the digits. -/
theorem dash_split {lhs : List UInt8} (h : ∀ c ∈ lhs, isAsciiDigit c = true) (rhs : List UInt8) :
    (lhs ++ 0x2D :: rhs).takeWhile (· ≠ 0x2D) = lhs ∧
      ((lhs ++ 0x2D :: rhs).dropWhile (· ≠ 0x2D)).drop 1 = rhs := by
  have hne : ∀ c ∈ lhs, decide (c ≠ 0x2D) = true := by
    intro c hc
    refine decide_eq_true ?_
    rintro rfl
    exact absurd (h _ hc) (by decide)
  constructor
  · rw [List.takeWhile_append_of_pos hne]
    simp
  · rw [List.dropWhile_append_of_pos hne]
    simp

/-- **What one range looks like.** -/
theorem rangeSpec_iff : rangeSpec piece = some r ↔ Spec piece r := by
  constructor
  · intro h
    rw [rangeSpec] at h
    split at h
    · cases h
    rename_i hdash
    dsimp only at h
    split at h
    · cases h
    rename_i hdigits
    split at h
    · cases h
    rename_i hvalid
    cases h
    rw [not_or, not_not, not_not] at hdigits
    rw [not_or] at hvalid
    -- The piece is put together again.
    have hpiece : piece = piece.takeWhile (· ≠ 0x2D) ++
        0x2D :: (piece.dropWhile (· ≠ 0x2D)).drop 1 := by
      have hsplit := (List.takeWhile_append_dropWhile (p := (· ≠ 0x2D)) (l := piece)).symm
      cases hrest : piece.dropWhile (· ≠ 0x2D) with
      | nil =>
          rw [List.dropWhile_eq_nil_iff] at hrest
          exact absurd (hrest _ (not_not.mp hdash)) (by decide)
      | cons c rest =>
          have hc := List.head_dropWhile_not (p := fun c : UInt8 => decide (c ≠ 0x2D)) (l := piece)
            (by rw [hrest]; exact List.cons_ne_nil _ _)
          simp only [hrest, List.head_cons] at hc
          have hc : c = 0x2D := by simpa using hc
          rw [hrest, hc] at hsplit
          exact hsplit
    have hspec := Spec.mk (bound_iff.mp ⟨hdigits.1, rfl⟩) (bound_iff.mp ⟨hdigits.2, rfl⟩)
      ⟨hvalid.1, fun h1 h2 => Int.not_lt.mp fun hlt => hvalid.2 ⟨h1, h2, hlt⟩⟩
    rwa [← hpiece] at hspec
  · rintro @⟨lhs, rhs, first, last, hfirst, hlast, hvalid⟩
    obtain ⟨htake, hdrop⟩ := dash_split hfirst.digits rhs
    obtain ⟨hall1, rfl⟩ := bound_iff.mpr hfirst
    obtain ⟨hall2, rfl⟩ := bound_iff.mpr hlast
    rw [rangeSpec, if_neg (by simp), htake, hdrop]
    dsimp only
    rw [if_neg (by simp [hall1, hall2]), if_neg]
    rintro (h | ⟨h1, h2, h3⟩)
    · exact hvalid.some h
    · exact absurd (hvalid.ordered h1 h2) (Int.not_le.mpr h3)

theorem Spec.plain (h : Spec piece r) : piece ≠ [] ∧
    ∀ c ∈ piece, isSpaceOrTab c = false ∧ c ≠ 0x2C := by
  have hdigit {c : UInt8} (h : isAsciiDigit c = true) : isSpaceOrTab c = false ∧ c ≠ 0x2C := by
    have hc := digit_range h
    constructor
    · refine Bool.eq_false_iff.mpr fun hblank => ?_
      rcases of_decide_eq_true hblank with rfl | rfl
      · exact absurd h (by decide)
      · exact absurd h (by decide)
    · rintro rfl
      exact absurd h (by decide)
  obtain ⟨hfirst, hlast, -⟩ := h
  refine ⟨by simp, fun c hc => ?_⟩
  rcases List.mem_append.mp hc with hc | hc
  · exact hdigit (hfirst.digits c hc)
  rcases List.mem_cons.mp hc with rfl | hc
  · exact ⟨by decide, by decide⟩
  · exact hdigit (hlast.digits c hc)

/-- There is a dash, and a digit. -/
theorem Spec.two_le (h : Spec piece r) : 2 ≤ piece.length := by
  obtain ⟨hfirst, hlast, hvalid⟩ := h
  have hpos {s : List UInt8} {x : Int} (h : Bound s x) (hx : x ≠ -1) : 0 < s.length := by
    cases h with
    | absent => exact absurd rfl hx
    | number h hfits => exact List.length_pos_iff.mpr h.1
    | tooBig h hbig => exact absurd rfl hx
  rw [List.length_append, List.length_cons]
  rcases not_and_or.mp hvalid.some with hne | hne
  · have := hpos hfirst hne
    omega
  · have := hpos hlast hne
    omega

/-! ### The list -/

/-- A text is what `trim` leaves, between blanks. -/
theorem exists_trim (s : List UInt8) : ∃ left right, s = left ++ trim s ++ right ∧
    (∀ c ∈ left, isSpaceOrTab c = true) ∧ ∀ c ∈ right, isSpaceOrTab c = true := by
  have hleft := (List.takeWhile_append_dropWhile (p := isSpaceOrTab) (l := s)).symm
  have hright := (List.takeWhile_append_dropWhile (p := isSpaceOrTab)
    (l := (s.dropWhile isSpaceOrTab).reverse)).symm
  refine ⟨s.takeWhile isSpaceOrTab,
    ((s.dropWhile isSpaceOrTab).reverse.takeWhile isSpaceOrTab).reverse, ?_, ?_, ?_⟩
  · rw [List.append_assoc, trim, ← List.reverse_append, ← hright, List.reverse_reverse]
    exact hleft
  · exact fun c hc => List.mem_takeWhile_imp hc
  · exact fun c hc => List.mem_takeWhile_imp (List.mem_reverse.mp hc)

/-- Blanks are taken away on both sides. -/
theorem trim_blanks {left right : List UInt8} (hleft : ∀ c ∈ left, isSpaceOrTab c = true)
    (hplain : ∀ c ∈ piece, isSpaceOrTab c = false) (hne : piece ≠ [])
    (hright : ∀ c ∈ right, isSpaceOrTab c = true) : trim (left ++ piece ++ right) = piece := by
  have hstop {t : List UInt8} (ht : t ≠ []) (hall : ∀ c ∈ t, isSpaceOrTab c = false)
      (u : List UInt8) : (t ++ u).dropWhile isSpaceOrTab = t ++ u := by
    obtain ⟨c, t, rfl⟩ := List.exists_cons_of_ne_nil ht
    rw [List.cons_append, List.dropWhile_cons, hall c List.mem_cons_self]
    rfl
  rw [trim, List.append_assoc, List.dropWhile_append_of_pos hleft, hstop hne hplain,
    List.reverse_append, List.dropWhile_append_of_pos fun c hc => hright c (List.mem_reverse.mp hc)]
  have hback := hstop (t := piece.reverse) (by simpa using hne)
    (fun c hc => hplain c (List.mem_reverse.mp hc)) []
  rw [List.append_nil] at hback
  rw [hback, List.reverse_reverse]

theorem trim_blank (h : ∀ c ∈ s, isSpaceOrTab c = true) : trim s = [] := by
  rw [trim, List.dropWhile_eq_nil_iff.mpr h]
  rfl

/-- What one element of the list gives. -/
theorem element_iff {o : Option Range} : Element s o ↔
    (trim s = [] ∧ o = none) ∨ (trim s ≠ [] ∧ ∃ r, rangeSpec (trim s) = some r ∧ o = some r) := by
  constructor
  · rintro (h | ⟨hleft, h, hright⟩)
    · exact Or.inl ⟨trim_blank h, rfl⟩
    · obtain ⟨hne, hplain⟩ := h.plain
      have htrim := trim_blanks hleft (fun c hc => (hplain c hc).1) hne hright
      exact Or.inr ⟨by rw [htrim]; exact hne, _, by rw [htrim]; exact rangeSpec_iff.mpr h, rfl⟩
  · obtain ⟨left, right, hs, hleft, hright⟩ := exists_trim s
    rintro (⟨htrim, rfl⟩ | ⟨-, r, hspec, rfl⟩)
    · rw [htrim, List.append_nil] at hs
      refine .blank fun c hc => ?_
      rw [hs] at hc
      exact (List.mem_append.mp hc).elim (hleft c) (hright c)
    · have helement := Element.spec hleft (rangeSpec_iff.mp hspec) hright
      rwa [← hs] at helement

theorem Element.no_comma {o : Option Range} (h : Element s o) : 0x2C ∉ s := by
  have hblank {t : List UInt8} (ht : ∀ c ∈ t, isSpaceOrTab c = true) : 0x2C ∉ t :=
    fun hmem => absurd (ht _ hmem) (by decide)
  cases h with
  | blank h => exact hblank h
  | spec hleft h hright =>
      rw [List.mem_append, List.mem_append, not_or, not_or]
      exact ⟨⟨hblank hleft, fun hmem => (h.plain.2 _ hmem).2 rfl⟩, hblank hright⟩

theorem exists_element {pieces : List (List UInt8)} {os : List (Option Range)} {o : Option Range}
    (h : List.Forall₂ Element pieces os) (ho : o ∈ os) : ∃ piece, Element piece o := by
  induction h with
  | nil => cases ho
  | cons hl _ ih =>
      rcases List.mem_cons.mp ho with rfl | ho
      · exact ⟨_, hl⟩
      · exact ih ho

/-- Some element is a range, if there are any. -/
theorem elements_two_le {pieces : List (List UInt8)} {os : List (Option Range)}
    (h : List.Forall₂ Element pieces os) (hne : os.filterMap id ≠ []) :
    2 ≤ ([0x2C].intercalate pieces).length := by
  induction h with
  | nil => exact absurd rfl hne
  | @cons l o pieces os hl hrest ih =>
      have hlen : l.length ≤ ([0x2C].intercalate (l :: pieces)).length ∧ (pieces ≠ [] →
          ([0x2C].intercalate pieces).length ≤ ([0x2C].intercalate (l :: pieces)).length) := by
        cases pieces with
        | nil => exact ⟨by simp, fun h => absurd rfl h⟩
        | cons l' pieces =>
            rw [List.intercalate_cons_cons, List.length_append, List.length_append]
            exact ⟨by omega, fun _ => by omega⟩
      cases o with
      | none =>
          have htail : os.filterMap id ≠ [] := hne
          refine Nat.le_trans (ih htail) (hlen.2 ?_)
          rintro rfl
          cases hrest
          exact htail rfl
      | some r =>
          cases hl with
          | spec hleft h hright =>
              have htwo := h.two_le
              refine Nat.le_trans ?_ hlen.1
              rw [List.length_append, List.length_append]
              omega

/-- The elements of the list, one by one. -/
theorem mapM_elements (pieces : List (List UInt8)) : ∀ ranges : List Range,
    ((pieces.map trim).filter fun piece => piece ≠ []).mapM rangeSpec = some ranges ↔
      ∃ os : List (Option Range), List.Forall₂ Element pieces os ∧ ranges = os.filterMap id := by
  induction pieces with
  | nil =>
      intro ranges
      constructor
      · intro h
        cases h
        exact ⟨[], .nil, rfl⟩
      · rintro ⟨os, hos, rfl⟩
        cases hos
        rfl
  | cons s pieces ih =>
      intro ranges
      rw [List.map_cons]
      by_cases htrim : trim s = []
      · rw [List.filter_cons_of_neg (by simpa using htrim), ih]
        constructor
        · rintro ⟨os, hos, rfl⟩
          exact ⟨none :: os, .cons (element_iff.mpr (Or.inl ⟨htrim, rfl⟩)) hos, rfl⟩
        · rintro ⟨os, hos, rfl⟩
          cases hos with
          | cons h hos =>
              rcases element_iff.mp h with ⟨-, rfl⟩ | ⟨hne, -⟩
              · exact ⟨_, hos, rfl⟩
              · exact absurd htrim hne
      · rw [List.filter_cons_of_pos (by simpa using htrim), List.mapM_cons]
        constructor
        · intro h
          obtain ⟨r, hr, h⟩ := Option.bind_eq_some_iff.mp h
          obtain ⟨rest, hrest, h⟩ := Option.bind_eq_some_iff.mp h
          cases h
          obtain ⟨os, hos, rfl⟩ := (ih rest).mp hrest
          exact ⟨some r :: os, .cons (element_iff.mpr (Or.inr ⟨htrim, r, hr, rfl⟩)) hos, rfl⟩
        · rintro ⟨os, hos, rfl⟩
          cases hos with
          | cons h hos =>
              rcases element_iff.mp h with ⟨hnil, -⟩ | ⟨-, r, hr, rfl⟩
              · exact absurd hnil htrim
              · refine Option.bind_eq_some_iff.mpr ⟨r, hr, ?_⟩
                exact Option.bind_eq_some_iff.mpr ⟨_, (ih _).mpr ⟨_, hos, rfl⟩, rfl⟩

/-- **What is accepted as a header**: `bytes=` and a list of ranges, at commas, where there may
be blanks around them and nothing between two commas.  A number may have any zeros before it, and
one that does not fit into 63 bits counts as if it were not there. -/
theorem parseRangeHeader_iff (header : List UInt8) (ranges : List Range) :
    parseRangeHeader header = some ranges ↔ ranges ≠ [] ∧
      ∃ (pieces : List (List UInt8)) (os : List (Option Range)), List.Forall₂ Element pieces os ∧
        header = ascii "bytes=" ++ [0x2C].intercalate pieces ∧ ranges = os.filterMap id := by
  rw [parseRangeHeader]
  constructor
  · intro h
    split at h
    · rename_i hbytes
      obtain ⟨h, hne⟩ := Option.filter_eq_some_iff.mp h
      rw [split] at h
      obtain ⟨os, hos, hranges⟩ := (mapM_elements _ _).mp h
      refine ⟨of_decide_eq_true hne, _, os, hos, ?_, hranges⟩
      rw [List.intercalate_splitOn, ← hbytes.2, List.take_append_drop]
    · cases h
  · rintro ⟨hne, pieces, os, hos, rfl, hranges⟩
    have hpieces : pieces ≠ [] := by
      rintro rfl
      cases hos
      exact hne hranges
    have hcomma : ∀ l ∈ pieces, 0x2C ∉ l := by
      intro l hl
      obtain ⟨i, hi, rfl⟩ := List.getElem_of_mem hl
      exact ((List.forall₂_iff_get.mp hos).2 i hi (hos.length_eq ▸ hi)).no_comma
    have hsplit : split 0x2C ([0x2C].intercalate pieces) =
        (pieces.map trim).filter fun piece => piece ≠ [] := by
      rw [split, List.splitOn_intercalate _ hcomma hpieces]
    have hlen := elements_two_le hos (hranges ▸ hne)
    have hsix : (ascii "bytes=").length = 6 := by decide
    rw [if_pos ⟨by rw [List.length_append]; omega, List.take_left' hsix⟩,
      List.drop_left' hsix, hsplit, (mapM_elements pieces ranges).mpr ⟨os, hos, hranges⟩]
    exact Option.filter_eq_some_iff.mpr ⟨rfl, decide_eq_true hne⟩

end Ilo2.Media.Httplib
