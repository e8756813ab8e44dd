import Ilo2.Session.FindQuoted

/-!
# The parameters of the applet

`scrape_info_params` of `ilo_session.hpp`, with its loops and its reads.  `Pieces` says that a
page consists of assignments to names that begin with `info`, and of text between them which
the scan does not take for one.

* `hit_ok` - a round that finds `info`.
* `params_exact` - **what is scraped from such a page**, and that the scan ends on every page.
-/

namespace Ilo2.Session

open Scan Text Checked
open Tls (ascii)

/-! ### The scan -/

/-- `std::map::emplace`: an entry that is there stays. -/
def emplace (out : List (List UInt8 × List UInt8)) (name text : List UInt8) :
    List (List UInt8 × List UInt8) :=
  if (out.lookup name).isSome then out else out ++ [(name, text)]

/-- The characters of a name behind `info`. -/
def isParam (c : UInt8) : Bool := isLower c ∨ isDigit c

/-- The value that starts at `p`: its text, and where it ends. -/
def valueAt (page : List UInt8) (rounds p : Nat) : Except Fault (Option (List UInt8 × Nat)) := do
  let quote ← holds (· = QUOTE) page page.length p
  if quote then
    match findFrom [QUOTE] page (p + 1) with
    | none => .ok none
    | some ve => do
        let text ← substr page (p + 1) (ve - (p + 1))
        .ok (some (text, ve + 1))
  else
    -- A leading minus is accepted.
    let minus ← holds (· = 0x2D) page page.length p
    let digits := if minus then p + 1 else p
    let stop ← skipWhile isDigit page page.length rounds digits
    if stop > digits then
      let text ← substr page p (stop - p)
      .ok (some (text, stop))
    else .ok none

/-- The body of the loop of `scrape_info_params`: the position, and `out`. -/
def paramRound (page : List UInt8) (rounds : Nat) (st : Nat × List (List UInt8 × List UInt8)) :
    Except Fault (Round (Nat × List (List UInt8 × List UInt8)) (List (List UInt8 × List UInt8))) :=
  match findFrom (ascii "info") page st.1 with
  | none => .ok (.done st.2)
  | some pos => do
      let tail ← isTail page pos
      if tail then .ok (.next (pos + 4, st.2))
      else
        let ne ← skipWhile isParam page page.length rounds (pos + 4)
        let name ← substr page pos (ne - pos)
        let start ← valueStart page rounds ne
        match start with
        | none => .ok (.next (ne, st.2))
        | some p => do
            let value ← valueAt page rounds p
            match value with
            | none => .ok (.next (ne, st.2))
            | some v => .ok (.next (v.2, emplace st.2 name v.1))

/-- `scrape_info_params`. -/
def scrapeInfoParams (page : List UInt8) (rounds : Nat) (out : List (List UInt8 × List UInt8)) :
    Except Fault (List (List UInt8 × List UInt8)) :=
  loop .rounds (paramRound page rounds) rounds (0, out)

/-! ### Pages -/

/-- The value of a parameter: a text in quotes, or digits, perhaps with a minus. -/
inductive Value where
  | quoted (v : List UInt8) (plain : QUOTE ∉ v)
  | number (neg : Bool) (digits : List UInt8) (ne : digits ≠ [])
      (isDigit : ∀ c ∈ digits, isDigit c = true)

def sign (neg : Bool) : List UInt8 := if neg then [0x2D] else []

namespace Value

/-- What the map gets. -/
def text : Value → List UInt8
  | quoted v _ => v
  | number neg digits _ _ => sign neg ++ digits

def write : Value → List UInt8
  | quoted v _ => QUOTE :: (v ++ [QUOTE])
  | number neg digits _ _ => sign neg ++ digits

/-- What may follow: no digit, behind a number. -/
def Ends (rest : List UInt8) : Value → Prop
  | quoted _ _ => True
  | number _ _ _ _ => ∀ c ∈ rest.head?, Session.isDigit c = false

end Value

/-- An assignment: blanks may stand around the `=`. -/
structure Assignment where
  suffix : List UInt8
  before : List UInt8
  after : List UInt8
  value : Value
  suffix_param : ∀ c ∈ suffix, isParam c = true
  before_blank : Blank before
  after_blank : Blank after

namespace Assignment

def name (a : Assignment) : List UInt8 := ascii "info" ++ a.suffix

def write (a : Assignment) : List UInt8 :=
  a.name ++ (a.before ++ 0x3D :: (a.after ++ a.value.write))

end Assignment

/-- At `p` there is `info` at the start of an identifier, and then what could be the rest of a
name, blanks and `=`. -/
def Opens (page : List UInt8) (p : Nat) : Prop :=
  Boundary page p ∧ ∃ suffix b rest, (∀ c ∈ suffix, isParam c = true) ∧ Blank b ∧
    page.drop p = ascii "info" ++ (suffix ++ (b ++ 0x3D :: rest))

/-- The page consists, from `pos` on, of these assignments and of text before, between and behind
them in which none opens. -/
inductive Pieces (page : List UInt8) : Nat → List Assignment → Prop
  | text {pos : Nat} : (∀ p, pos ≤ p → ¬ Opens page p) → Pieces page pos []
  | assignment {pos start : Nat} {a : Assignment} {rest : List UInt8} {as : List Assignment} :
      pos ≤ start → (∀ p, pos ≤ p → p < start → ¬ Opens page p) → Boundary page start →
      page.drop start = a.write ++ rest → a.value.Ends rest →
      Pieces page (start + a.write.length) as → Pieces page pos (a :: as)

variable {page r s : List UInt8} {i pos rounds : Nat} {a : Assignment}
  {out : List (List UInt8 × List UInt8)}

theorem isIdent_of_isParam {c : UInt8} (h : isParam c = true) : isIdent c = true := by
  simp only [isParam, isIdent, isAlnum, decide_eq_true_eq] at h ⊢
  rcases h with h | h
  · simp [h]
  · simp [h]

theorem isDigit_ne {c d : UInt8} (h : isDigit c = true) (hd : isDigit d = false) : c ≠ d := by
  rintro rfl
  rw [h] at hd
  cases hd

theorem isBlank_digit {c : UInt8} (h : isDigit c = true) : isBlank c = false := by
  have hspace : c ≠ 0x20 := isDigit_ne h rfl
  have htab : c ≠ 0x09 := isDigit_ne h rfl
  simp [isBlank, hspace, htab]

theorem isParam_blank {c : UInt8} (h : isBlank c = true) : isParam c = false := by
  simp only [isBlank, decide_eq_true_eq] at h
  rcases h with rfl | rfl
  · rfl
  · rfl

/-- No name goes on where blanks and `=` stand. -/
theorem head_not_param {b : List UInt8} (hb : Blank b) (rest : List UInt8) :
    ∀ c ∈ (b ++ 0x3D :: rest).head?, isParam c = false := by
  cases b with
  | nil => rintro c ⟨⟩; rfl
  | cons d b =>
      rintro c ⟨⟩
      exact isParam_blank (hb d List.mem_cons_self)

theorem Value.head_not_blank (v : Value) (rest : List UInt8) :
    ∀ c ∈ (v.write ++ rest).head?, isBlank c = false := by
  cases v with
  | quoted v _ => rintro c ⟨⟩; rfl
  | number neg digits hne hdigit =>
      cases neg with
      | true => rintro c ⟨⟩; rfl
      | false =>
          obtain ⟨d, ds, rfl⟩ := List.exists_cons_of_ne_nil hne
          rintro c ⟨⟩
          exact isBlank_digit (hdigit d List.mem_cons_self)

/-! ### Values -/

/-- A minus, if there is one, and what follows. -/
theorem sign_cases (r : List UInt8) : ∃ neg t, r = sign neg ++ t ∧ r.head?.any (· = 0x2D) = neg := by
  by_cases h : r.head? = some 0x2D
  · obtain ⟨t, rfl⟩ := List.head?_eq_some_iff.mp h
    exact ⟨true, t, rfl, rfl⟩
  · exact ⟨false, r, rfl, Bool.eq_false_iff.mpr fun hany => h (head_any.mp hany)⟩

theorem sign_digits_head {digits : List UInt8} (hne : digits ≠ [])
    (hdigit : ∀ c ∈ digits, isDigit c = true) (neg : Bool) (rest : List UInt8) :
    (sign neg ++ digits ++ rest).head? ≠ some QUOTE ∧
      (sign neg ++ digits ++ rest).head?.any (· = 0x2D) = neg := by
  obtain ⟨d, ds, rfl⟩ := List.exists_cons_of_ne_nil hne
  have hd := hdigit d List.mem_cons_self
  cases neg with
  | true => exact ⟨by rintro ⟨⟩, rfl⟩
  | false =>
      have hquote : d ≠ QUOTE := isDigit_ne hd rfl
      have hminus : d ≠ 0x2D := isDigit_ne hd rfl
      exact ⟨fun h => hquote (Option.some.inj h), decide_eq_false hminus⟩

/-- Digits, behind a minus or not, are told apart from other texts. -/
theorem sign_unique {neg neg' : Bool} {ds digits rest rest' : List UInt8} (hne : digits ≠ [])
    (hds : ∀ c ∈ ds, isDigit c = true) (hrest : ∀ c ∈ rest.head?, isDigit c = false)
    (hdigits : ∀ c ∈ digits, isDigit c = true) (hrest' : ∀ c ∈ rest'.head?, isDigit c = false)
    (hneg : (sign neg ++ (ds ++ rest)).head?.any (· = 0x2D) = neg)
    (h : sign neg ++ (ds ++ rest) = sign neg' ++ digits ++ rest') : neg = neg' ∧ ds = digits := by
  have hsame := (sign_digits_head hne hdigits neg' rest').2
  rw [← h, hneg] at hsame
  subst hsame
  rw [List.append_assoc, List.append_cancel_left_eq] at h
  exact ⟨rfl, (span_unique hds hrest hdigits hrest' h).1⟩

/-- What is read where a value may stand: something behind `p`, and the value if there is one. -/
structure Valued (r : List UInt8) (p : Nat) (o : Option (List UInt8 × Nat)) : Prop where
  behind : ∀ v ∈ o, p < v.2
  taken : ∀ (v : Value) rest, r = v.write ++ rest → v.Ends rest →
    o = some (v.text, p + v.write.length)

/-- Behind a quote. -/
theorem valueAt_quoted {p : Nat} (h : page.drop p = QUOTE :: r) :
    ∃ o, valueAt page rounds p = .ok o ∧ Valued (QUOTE :: r) p o := by
  -- A number does not begin with a quote.
  have hnumber {neg : Bool} {digits rest : List UInt8} {P : Prop} (hne : digits ≠ [])
      (hdigit : ∀ c ∈ digits, isDigit c = true) (hr : QUOTE :: r = sign neg ++ digits ++ rest) : P :=
    absurd (congrArg List.head? hr.symm) (sign_digits_head hne hdigit neg rest).1
  rw [valueAt, holds_head _ h, ok_bind, if_pos (head_any.mpr rfl)]
  rcases quote_cases h with ⟨hno, hclose⟩ | ⟨v, after, rfl, hv, hclose, hsubstr⟩
  · rw [hclose]
    refine ⟨none, rfl, by rintro v ⟨⟩, fun v rest hr _ => ?_⟩
    cases v with
    | number neg digits hne hdigit => exact hnumber hne hdigit hr
    | quoted v plain =>
        rw [Value.write, List.cons_append, List.cons.injEq, List.append_assoc] at hr
        refine absurd ?_ hno
        rw [hr.2]
        exact List.mem_append_right _ List.mem_cons_self
  · rw [hclose]
    dsimp only
    rw [hsubstr, ok_bind]
    refine ⟨_, rfl, by rintro v ⟨⟩; dsimp only; omega, fun v' rest hr _ => ?_⟩
    cases v' with
    | number neg digits hne hdigit => exact hnumber hne hdigit hr
    | quoted v' plain =>
        rw [Value.write, List.cons_append, List.cons.injEq, List.append_assoc] at hr
        have hother {v : List UInt8} (hv : QUOTE ∉ v) : ∀ c ∈ v, decide (c ≠ QUOTE) = true :=
          fun c hc => decide_eq_true fun hcq => hv (hcq ▸ hc)
        obtain ⟨rfl, -⟩ := span_unique (hother hv) (by rintro c ⟨⟩; rfl) (hother plain)
          (by rintro c ⟨⟩; rfl) hr.2
        rw [Value.text, Value.write, List.length_cons, List.length_append, List.length_singleton]
        congr 2
        omega

/-- Where no quote stands. -/
theorem valueAt_number {p : Nat} (hrounds : page.length < rounds) (h : page.drop p = r)
    (hp : p ≤ page.length) (hquote : r.head? ≠ some QUOTE) :
    ∃ o, valueAt page rounds p = .ok o ∧ Valued r p o := by
  rw [valueAt, holds_head _ h, ok_bind, if_neg fun hany => hquote (head_any.mp hany),
    holds_head _ h, ok_bind]
  obtain ⟨neg, t, rfl, hneg⟩ := sign_cases r
  rw [hneg]
  obtain ⟨ds, rest, rfl, hds, hrest⟩ := exists_span isDigit t
  have hstart : (if neg = true then p + 1 else p) = p + (sign neg).length := by
    cases neg with
    | true => rfl
    | false => rfl
  have hdrop : page.drop (p + (sign neg).length) = ds ++ rest := by
    rw [← List.drop_drop, h, List.drop_left]
  obtain ⟨hskip, -⟩ := skipWhile_span hrounds hdrop hds hrest
  dsimp only
  rw [hstart, hskip, ok_bind]
  by_cases hne : ds = []
  · subst hne
    refine ⟨none, if_neg (by simp), by rintro v ⟨⟩, fun v rest' hr hends => ?_⟩
    cases v with
    | quoted v plain => exact absurd (hr ▸ rfl) hquote
    | number neg' digits hdne hdigit =>
        exact absurd (sign_unique hdne hds hrest hdigit hends hneg hr).2.symm hdne
  · have hpos := List.length_pos_iff.mpr hne
    have hstop : p + (sign neg).length + ds.length - p = (sign neg ++ ds).length := by
      rw [List.length_append]
      omega
    have htext : substr page p (p + (sign neg).length + ds.length - p) = .ok (sign neg ++ ds) := by
      rw [substr, if_pos hp, h, hstop, ← List.append_assoc, List.take_left]
    rw [if_pos (by omega), htext, ok_bind]
    refine ⟨_, rfl, by rintro v ⟨⟩; dsimp only; omega, fun v rest' hr hends => ?_⟩
    cases v with
    | quoted v plain => exact absurd (hr ▸ rfl) hquote
    | number neg' digits hdne hdigit =>
        obtain ⟨rfl, rfl⟩ := sign_unique hdne hds hrest hdigit hends hneg hr
        rw [Value.text, Value.write, List.length_append, Nat.add_assoc]

theorem valueAt_ok {p : Nat} (hrounds : page.length < rounds) (h : page.drop p = r)
    (hp : p ≤ page.length) : ∃ o, valueAt page rounds p = .ok o ∧ Valued r p o := by
  by_cases hquote : r.head? = some QUOTE
  · obtain ⟨r, rfl⟩ := List.head?_eq_some_iff.mp hquote
    exact valueAt_quoted h
  · exact valueAt_number hrounds h hp hquote

/-! ### A hit -/

/-- What a round makes of a hit at `i`: it goes on behind it, and past no other place that could
open unless one does at `i`; and an assignment there is taken. -/
structure Hit (page : List UInt8) (i : Nat) (out : List (List UInt8 × List UInt8))
    (st : Nat × List (List UInt8 × List UInt8)) : Prop where
  advances : i < st.1
  passed : ¬ Opens page i → st.2 = out ∧ ∀ q, i < q → Boundary page q → st.1 ≤ q
  taken : ∀ (a : Assignment) rest, Boundary page i → page.drop i = a.write ++ rest →
    a.value.Ends rest → st = (i + a.write.length, emplace out a.name a.value.text)

theorem Assignment.opens {rest : List UInt8} (hb : Boundary page i)
    (h : page.drop i = a.write ++ rest) : Opens page i := by
  refine ⟨hb, a.suffix, a.before, a.after ++ (a.value.write ++ rest), a.suffix_param,
    a.before_blank, ?_⟩
  rw [h, Assignment.write, Assignment.name]
  simp only [List.append_assoc, List.cons_append]

/-- A place that does not open is passed over. -/
theorem Hit.pass {w : List UInt8} (hw : ∀ c ∈ w, isIdent c = true) (hne : w ≠ [])
    (hdrop : page.drop i = w ++ s) (hno : ¬ Opens page i) : Hit page i out (i + w.length, out) where
  advances := by
    have := List.length_pos_iff.mpr hne
    dsimp only
    omega
  passed _ := ⟨rfl, fun q hq hb => Nat.le_of_not_lt fun hlt =>
    not_boundary hdrop hw hq (Nat.le_of_lt hlt) hb⟩
  taken a rest hb h _ := absurd (Assignment.opens hb h) hno

/-- The name behind `info`, and what follows it. -/
theorem name_ok {t : List UInt8} (hrounds : page.length < rounds) (hi : i + 4 ≤ page.length)
    (h : page.drop i = ascii "info" ++ t) : ∃ w s, t = w ++ s ∧ (∀ c ∈ w, isParam c = true) ∧
      (∀ c ∈ s.head?, isParam c = false) ∧ page.drop (i + 4 + w.length) = s ∧
      skipWhile isParam page page.length rounds (i + 4) = .ok (i + 4 + w.length) ∧
      substr page i (i + 4 + w.length - i) = .ok (ascii "info" ++ w) := by
  obtain ⟨w, s, rfl, hw, hs⟩ := exists_span isParam t
  have hdrop : page.drop (i + 4) = w ++ s := by
    rw [← List.drop_drop, h]
    rfl
  obtain ⟨hskip, hrest⟩ := skipWhile_span hrounds hdrop hw hs
  refine ⟨w, s, rfl, hw, hs, hrest, hskip, ?_⟩
  have hlen : i + 4 + w.length - i = (ascii "info" ++ w).length := by
    rw [Nat.add_assoc, Nat.add_sub_cancel_left, List.length_append]
    rfl
  rw [substr, if_pos (by omega), h, hlen, ← List.append_assoc, List.take_left]

/-- **An assignment is read**: its name is the one that is found, and its value the one that stands
behind the blanks. -/
theorem assignment_read {p : Nat} {w rest : List UInt8} {value : Option (List UInt8 × Nat)}
    (hi : page.drop i = ascii "info" ++ (w ++ s)) (hw : ∀ c ∈ w, isParam c = true)
    (hs : ∀ c ∈ s.head?, isParam c = false) (heq : Equals s r) (hlt : i < p)
    (hle : p ≤ page.length) (hp : page.drop p = r) (hr : ∀ c ∈ r.head?, isBlank c = false)
    (hvalue : Valued r p value)
    (h : page.drop i = a.write ++ rest) (hends : a.value.Ends rest) :
    w = a.suffix ∧ value = some (a.value.text, i + a.write.length) := by
  have hsplit : w ++ s =
      a.suffix ++ (a.before ++ 0x3D :: (a.after ++ (a.value.write ++ rest))) := by
    rw [hi, Assignment.write, Assignment.name] at h
    simpa only [List.append_assoc, List.cons_append, List.append_cancel_left_eq] using h
  obtain ⟨hsuffix, hs'⟩ := span_unique hw hs a.suffix_param (head_not_param a.before_blank _) hsplit
  have hr' : r = a.value.write ++ rest :=
    heq.unique hr ⟨a.before, a.after, a.before_blank, a.after_blank, hs'⟩
      (a.value.head_not_blank rest)
  have hlen_p := congrArg List.length (hp.trans hr')
  have hlen_i := congrArg List.length h
  rw [List.length_drop, List.length_append] at hlen_p hlen_i
  refine ⟨hsuffix, ?_⟩
  rw [hvalue.taken a.value rest hr' hends, Option.some.injEq, Prod.mk.injEq]
  exact ⟨rfl, by omega⟩

theorem hit_ok (hrounds : page.length < rounds) (hi : Stands (ascii "info") page i)
    (hfind : findFrom (ascii "info") page pos = some i) (out : List (List UInt8 × List UInt8)) :
    ∃ st, paramRound page rounds (pos, out) = .ok (.next st) ∧ Hit page i out st := by
  have hinfo : ∀ c ∈ ascii "info", isIdent c = true := List.all_eq_true.mp (by decide)
  obtain ⟨t, ht⟩ := hi
  have hle : i + 4 ≤ page.length := (findFrom_stands (by decide) hfind).2.2
  rw [paramRound, hfind]
  dsimp only
  obtain ⟨tail, htail, hboundary⟩ := isTail_ok (show i ≤ page.length by omega)
  rw [htail, ok_bind]
  cases tail with
  | true =>
      exact ⟨_, rfl, .pass hinfo (by decide) ht.symm fun h => absurd (hboundary.mpr h.1) (by decide)⟩
  | false =>
      obtain ⟨w, s, rfl, hw, hs, hdrop, hskip, hsubstr⟩ := name_ok hrounds hle ht.symm
      rw [if_neg Bool.false_ne_true, hskip, ok_bind, hsubstr, ok_bind]
      rcases valueStart_ok hrounds hdrop with
        ⟨p, r, hstart, hdrop_p, hlt, hp, heq, hr⟩ | ⟨hstart, hnone⟩
      case inr =>
        -- No `=` follows, so that nothing opens here.
        have hident : ∀ c ∈ ascii "info" ++ w, isIdent c = true := fun c hc =>
          (List.mem_append.mp hc).elim (hinfo c) fun hc => isIdent_of_isParam (hw c hc)
        have hlen : i + 4 + w.length = i + (ascii "info" ++ w).length := by
          rw [List.length_append, Nat.add_assoc]
          rfl
        have hname : page.drop i = (ascii "info" ++ w) ++ s := by
          rw [← ht, List.append_assoc]
        rw [hstart, ok_bind, hlen]
        refine ⟨_, rfl, .pass hident (List.append_ne_nil_of_left_ne_nil (by decide) w) hname ?_⟩
        rintro ⟨-, w', b, rest, hw', hblank, hopen⟩
        rw [← ht, List.append_cancel_left_eq] at hopen
        obtain ⟨-, rfl⟩ := span_unique hw hs hw' (head_not_param hblank rest) hopen
        exact hnone rest ⟨b, [], hblank, by rintro c ⟨⟩, rfl⟩
      have hip : i < p := by omega
      have hopens : Opens page i := by
        obtain ⟨b₁, b₂, hb₁, hb₂, rfl⟩ := heq
        exact ⟨hboundary.mp rfl, w, b₁, b₂ ++ r, hw, hb₁, ht.symm⟩
      obtain ⟨value, hvalue, hvalued⟩ := valueAt_ok hrounds hdrop_p hp
      rw [hstart, ok_bind]
      dsimp only
      rw [hvalue, ok_bind]
      cases value with
      | none =>
          refine ⟨_, rfl, by dsimp only; omega, fun h => absurd hopens h, fun a rest _ h hends => ?_⟩
          cases (assignment_read ht.symm hw hs heq hip hp hdrop_p hr hvalued h hends).2
      | some v =>
          have hv := hvalued.behind v rfl
          refine ⟨_, rfl, by dsimp only; omega, fun h => absurd hopens h, fun a rest _ h hends => ?_⟩
          obtain ⟨rfl, hsome⟩ := assignment_read ht.symm hw hs heq hip hp hdrop_p hr hvalued h hends
          cases hsome
          rfl

/-! ### Runs -/

/-- Assignments, one after the other. -/
def emplaceAll (out : List (List UInt8 × List UInt8)) (as : List Assignment) :
    List (List UInt8 × List UInt8) :=
  as.foldl (fun out a => emplace out a.name a.value.text) out

theorem lookup_emplace (out : List (List UInt8 × List UInt8)) (name text key : List UInt8) :
    (emplace out name text).lookup key =
      (out.lookup key).or (if name = key then some text else none) := by
  rw [emplace]
  split
  · rename_i hsome
    by_cases hkey : name = key
    · rw [← hkey, Option.or_of_isSome hsome]
    · rw [if_neg hkey, Option.or_none]
  · rw [List.lookup_append, List.lookup_singleton]
    congr 1
    by_cases hkey : name = key
    · rw [if_pos hkey, if_pos (by rw [hkey, beq_self_eq_true])]
    · rw [if_neg hkey, if_neg (by simpa using Ne.symm hkey)]

theorem lookup_emplaceAll (as : List Assignment) (key : List UInt8) :
    ∀ out : List (List UInt8 × List UInt8), (emplaceAll out as).lookup key =
      (out.lookup key).or ((as.find? fun a => a.name = key).map fun a => a.value.text) := by
  induction as with
  | nil => intro out; exact Option.or_none.symm
  | cons a as ih =>
      intro out
      rw [emplaceAll, List.foldl_cons]
      rw [← emplaceAll, ih, lookup_emplace, Option.or_assoc, List.find?_cons]
      by_cases hkey : a.name = key
      · simp [hkey]
      · simp [hkey]

/-- What is to come of a state, on a page of pieces. -/
def Scraping (page : List UInt8) (st : Nat × List (List UInt8 × List UInt8))
    (r : List (List UInt8 × List UInt8)) : Prop :=
  ∀ as, Pieces page st.1 as → r = emplaceAll st.2 as

theorem paramRound_good (hrounds : page.length < rounds)
    (st : Nat × List (List UInt8 × List UInt8)) : ∃ t, paramRound page rounds st = .ok t ∧
      Round.Good (fun _ => True) (fun st => page.length - st.1) (Scraping page) st t := by
  obtain ⟨pos, out⟩ := st
  have hinfo : ascii "info" ≠ [] := by decide
  have hstands {start : Nat} {a : Assignment} {rest : List UInt8}
      (h : page.drop start = a.write ++ rest) : Stands (ascii "info") page start := by
    rw [Stands, h, Assignment.write, Assignment.name]
    simp only [List.append_assoc]
    exact List.prefix_append _ _
  rcases hfind : findFrom (ascii "info") page pos with _ | i
  · refine ⟨.done out, by rw [paramRound, hfind], .done fun as has => ?_⟩
    cases has with
    | text _ => rfl
    | assignment hle _ _ hdrop _ _ =>
        exact absurd (hstands hdrop) (findFrom_eq_none hinfo hfind hle)
  obtain ⟨hpos, hi, hle⟩ := findFrom_stands hinfo hfind
  have hle : i + 4 ≤ page.length := hle
  obtain ⟨st, hround, hit⟩ := hit_ok hrounds hi hfind out
  have hadvances := hit.advances
  refine ⟨_, hround, .next trivial (by dsimp only; omega) fun r hr as has => ?_⟩
  have hfrom : pos ≤ st.1 := by omega
  cases has with
  | text hnone =>
      obtain ⟨hout, -⟩ := hit.passed (hnone i hpos)
      rw [hr [] (.text fun p hp => hnone p (Nat.le_trans hfrom hp)), hout]
  | @assignment _ start a rest as hstart hnone hb hdrop hends has =>
      rcases Nat.lt_trichotomy i start with hlt | rfl | hlt
      · -- Text before the assignment.
        obtain ⟨hout, hnext⟩ := hit.passed (hnone i hpos hlt)
        rw [hr (a :: as) (.assignment (hnext start hlt hb)
          (fun p hp => hnone p (Nat.le_trans hfrom hp)) hb hdrop hends has), hout]
      · cases hit.taken a rest hb hdrop hends
        exact hr as has
      · exact absurd (hstands hdrop) (findFrom_first hinfo hfind hstart hlt)

/-- The scan ends, on every page. -/
theorem scrape_ok (hrounds : page.length < rounds) (out : List (List UInt8 × List UInt8)) :
    ∃ r, scrapeInfoParams page rounds out = .ok r ∧ Scraping page (0, out) r :=
  loop_ok Fault.rounds _ _ _ (fun st _ => paramRound_good hrounds st) rounds trivial
    (by dsimp only; omega)

/-- **On a page of pieces** every name is mapped to the text of its first assignment, and nothing
else is in the map; and the scan ends on every page. -/
theorem params_exact {page : List UInt8} {rounds : Nat} (hrounds : page.length < rounds) :
    (∀ out, ∃ r, scrapeInfoParams page rounds out = .ok r) ∧
      ∀ as, Pieces page 0 as → ∃ r, scrapeInfoParams page rounds [] = .ok r ∧
        ∀ key, r.lookup key = (as.find? fun a => a.name = key).map fun a => a.value.text := by
  constructor
  · intro out
    obtain ⟨r, hr, -⟩ := scrape_ok hrounds out
    exact ⟨r, hr⟩
  · intro as has
    obtain ⟨r, hr, hscraping⟩ := scrape_ok hrounds []
    refine ⟨r, hr, fun key => ?_⟩
    rw [hscraping as has, lookup_emplaceAll]
    rfl

/-- A value that looks like an assignment, and a second one of the same name. -/
theorem params_exact_twice : ∃ r,
    scrapeInfoParams (ascii "info0=\"infoa=1\" info0=-2;") 40 [] = .ok r ∧
      r.lookup (ascii "info0") = some (ascii "infoa=1") ∧ r.lookup (ascii "infoa") = none := by
  have hparam : ∀ c ∈ ascii "0", isParam c = true := List.all_eq_true.mp (by decide)
  have hdigit : ∀ c ∈ ascii "2", isDigit c = true := List.all_eq_true.mp (by decide)
  let a : Assignment := ⟨ascii "0", [], [], .quoted (ascii "infoa=1") (by decide), hparam,
    by rintro c ⟨⟩, by rintro c ⟨⟩⟩
  let b : Assignment := ⟨ascii "0", [], [], .number true (ascii "2") (by decide) hdigit, hparam,
    by rintro c ⟨⟩, by rintro c ⟨⟩⟩
  -- Nothing opens in front of the second assignment, or behind it.
  have hgap (p : Nat) (h : 15 ≤ p) (hp : p < 16) :
      ¬ Opens (ascii "info0=\"infoa=1\" info0=-2;") p := by
    rintro ⟨-, suffix, b, rest, -, -, hopen⟩
    obtain rfl : p = 15 := by omega
    cases hopen
  have hend (p : Nat) (h : 24 ≤ p) : ¬ Opens (ascii "info0=\"infoa=1\" info0=-2;") p := by
    rintro ⟨-, suffix, b, rest, -, -, hopen⟩
    have hlen := congrArg List.length hopen
    have hpage : (ascii "info0=\"infoa=1\" info0=-2;").length = 25 := by decide
    have hinfo : (ascii "info").length = 4 := by decide
    rw [List.length_drop, List.length_append, List.length_append, List.length_append,
      List.length_cons] at hlen
    omega
  have hfirst : (ascii "info0=\"infoa=1\" info0=-2;").drop 0 = a.write ++ ascii " info0=-2;" := rfl
  have hsecond : (ascii "info0=\"infoa=1\" info0=-2;").drop 16 = b.write ++ ascii ";" := rfl
  have hpieces : Pieces (ascii "info0=\"infoa=1\" info0=-2;") 0 [a, b] :=
    .assignment (Nat.le_refl 0) (fun p _ hp => absurd hp (Nat.not_lt_zero p)) (by rintro c ⟨⟩)
      hfirst trivial
      (.assignment (show 15 ≤ 16 by decide) hgap (by rintro c - ⟨⟩; rfl) hsecond
        (by rintro c ⟨⟩; rfl) (.text hend))
  obtain ⟨-, hall⟩ := params_exact
    (show (ascii "info0=\"infoa=1\" info0=-2;").length < 40 by decide)
  obtain ⟨r, hr, hlookup⟩ := hall [a, b] hpieces
  exact ⟨r, hr, hlookup _, hlookup _⟩

end Ilo2.Session
