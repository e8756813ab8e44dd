import Ilo2.Lib.Scan
import Ilo2.Ribcl.Health

/-!
# The tag scanner, read by read

`xml_next_tag` again, with its loops and its reads: a read outside the document is a fault,
and so is a loop that does not end within its rounds.

* `attrs_ok`, `xmlNextTag_ok` - neither happens, and the tags are those of `Ribcl.xmlNextTag`.
* `xmlNextTag_advances` - **the scanner always makes progress**, so the parsers end.
-/

namespace Ilo2.Ribcl

namespace Scanner

open Scan Text Checked
open Tls (ascii)

/-- The body of the loop over the attributes; `gt` is the index of the `>`. -/
def attrRound (s : List UInt8) (gt rounds : Nat) (st : Nat × List (List UInt8 × List UInt8)) :
    Except Fault (Round (Nat × List (List UInt8 × List UInt8)) (List (List UInt8 × List UInt8))) := do
  let i ← skipWhile isSpace s gt rounds st.1
  let more ← holds (· ≠ 0x2F) s gt i
  if ¬ more then .ok (.done st.2)
  else
    let j ← skipWhile isTagName s gt rounds i
    let key := slice s i j
    let i ← skipWhile isSpace s gt rounds j
    let eq ← holds (· = 0x3D) s gt i
    if ¬ eq then .ok (.next (if key = [] then i + 1 else i, st.2))
    else
      let i ← skipWhile isSpace s gt rounds (i + 1)
      if i ≥ gt then .ok (.done st.2)
      else
        let q ← charAt s i
        if q ≠ 0x22 ∧ q ≠ 0x27 then .ok (.next (i, st.2))
        else
          match findFrom [q] s (i + 1) with
          | none => .ok (.done st.2)
          | some close =>
              if close > gt then .ok (.done st.2)
              else do
                let value ← substr s (i + 1) (close - i - 1)
                .ok (.next (close + 1, st.2 ++ [(key, value)]))

def attrs (s : List UInt8) (gt rounds i : Nat) :
    Except Fault (List (List UInt8 × List UInt8)) :=
  loop .rounds (attrRound s gt rounds) rounds (i, [])

/-- The body of the loop of `xml_next_tag`: `false` is no tag. -/
def tagRound (s : List UInt8) (rounds pos : Nat) :
    Except Fault (Round Nat (Option XmlTag × Nat)) :=
  match findFrom (ascii "<") s pos with
  | none => .ok (.done (none, s.length))
  | some lt =>
      match findFrom (ascii ">") s lt with
      | none => .ok (.done (none, s.length))
      | some gt => do
          let skipped ← holds (fun c => c = 0x3F ∨ c = 0x21) s gt (lt + 1)
          if skipped then .ok (.next (gt + 1))
          else
            let closing ← holds (· = 0x2F) s gt (lt + 1)
            let i := if closing then lt + 1 + 1 else lt + 1
            let j ← skipWhile isTagName s gt rounds i
            let name := slice s i j
            if name = [] then .ok (.next (gt + 1))
            else do
              let attrs ← attrs s gt rounds j
              .ok (.done (some { name := name, closing := closing, attrs := attrs }, gt + 1))

def xmlNextTag (s : List UInt8) (rounds pos : Nat) : Except Fault (Option XmlTag × Nat) :=
  loop .rounds (tagRound s rounds) rounds pos

/-- A round of `while (xml_next_tag(s, pos, t))`, with `step` as its body. -/
def scanRound {σ : Type} (step : σ → XmlTag → σ) (s : List UInt8) (rounds : Nat) (st : Nat × σ) :
    Except Fault (Round (Nat × σ) σ) := do
  let (tag, pos) ← xmlNextTag s rounds st.1
  match tag with
  | none => .ok (.done st.2)
  | some t => .ok (.next (pos, step st.2 t))

def scanTags {σ : Type} (step : σ → XmlTag → σ) (s : List UInt8) (rounds : Nat) (st : σ) :
    Except Fault σ :=
  loop .rounds (scanRound step s rounds) rounds (0, st)

def parseEmbeddedHealth (xml : List UInt8) (rounds : Nat) : Except Fault HealthData := do
  let (h, _) ← scanTags healthStep xml rounds ({}, Section.none)
  .ok h

def parsePowerReadings (xml : List UInt8) (rounds : Nat) : Except Fault PowerReadings :=
  scanTags readingStep xml rounds {}

/-! ### Attributes -/

variable {s : List UInt8} {f : UInt8 → Bool} {gt rounds i j pos : Nat}

theorem slice_take (hj : j ≤ gt) (i : Nat) : slice (s.take gt) i j = slice s i j := by
  rw [slice, slice, List.drop_take, List.take_take, Nat.min_eq_left (by omega)]

theorem skip_le (f : UInt8 → Bool) {tag : List UInt8} (hi : i ≤ tag.length) :
    skip f tag i ≤ tag.length := by
  have hle := (List.takeWhile_sublist (l := tag.drop i) f).length_le
  rw [List.length_drop] at hle
  rw [skip]
  omega

theorem slice_eq_nil (hi : i < s.length) (hij : i ≤ j) : slice s i j = [] ↔ j = i := by
  rw [← List.length_eq_zero_iff, slice, List.length_take, List.length_drop]
  omega

theorem lt_of_at? (h : at? s i f = true) : i < s.length := by
  rcases hc : s[i]? with _ | c
  · rw [at?, hc] at h
    cases h
  · exact (List.getElem?_eq_some_iff.mp hc).1

theorem at?_ne {q : UInt8} :
    at? s i (· ≠ q) = true ↔ ¬ (i ≥ s.length ∨ at? s i (· = q) = true) := by
  rw [at?, at?]
  rcases hc : s[i]? with _ | c
  · simp [List.getElem?_eq_none_iff.mp hc]
  · simp [(List.getElem?_eq_some_iff.mp hc).1]

/-- What a round finds from `i` on: where the next one starts, and at most one attribute.
Nothing, if it is the last. -/
def attrStep (tag : List UInt8) (i : Nat) : Option (Nat × List (List UInt8 × List UInt8)) :=
  let i := skip isSpace tag i
  if i ≥ tag.length ∨ at? tag i (· = 0x2F) then none
  else
    let j := skip isTagName tag i
    let key := slice tag i j
    let i := skip isSpace tag j
    if ¬ at? tag i (· = 0x3D) then some (if key = [] then i + 1 else i, [])
    else
      let i := skip isSpace tag (i + 1)
      match tag[i]? with
      | none => none
      | some q =>
          if q ≠ 0x22 ∧ q ≠ 0x27 then some (i, [])
          else
            match findFrom [q] tag (i + 1) with
            | none => none
            | some close => some (close + 1, [(key, slice tag (i + 1) close)])

theorem attrsLoop_succ (tag : List UInt8) (n i : Nat) : attrsLoop tag (n + 1) i =
    ((attrStep tag i).map fun p => p.2 ++ attrsLoop tag n p.1).getD [] := by
  rw [attrsLoop, attrStep]
  dsimp only
  obtain ⟨i₁, hi₁⟩ : ∃ j, skip isSpace tag i = j := ⟨_, rfl⟩
  rw [hi₁]
  by_cases hend : i₁ ≥ tag.length ∨ at? tag i₁ (· = 0x2F)
  · rw [if_pos hend, if_pos hend]
    rfl
  · rw [if_neg hend, if_neg hend]
    obtain ⟨i₂, hi₂⟩ : ∃ j, skip isSpace tag (skip isTagName tag i₁) = j := ⟨_, rfl⟩
    rw [hi₂]
    by_cases heq : at? tag i₂ (· = 0x3D)
    · rw [if_neg (not_not.mpr heq), if_neg (not_not.mpr heq)]
      obtain ⟨i₃, hi₃⟩ : ∃ j, skip isSpace tag (i₂ + 1) = j := ⟨_, rfl⟩
      rw [hi₃]
      rcases tag[i₃]? with _ | q
      · rfl
      · dsimp only
        by_cases hquote : q ≠ 0x22 ∧ q ≠ 0x27
        · rw [if_pos hquote, if_pos hquote]
          rfl
        · rw [if_neg hquote, if_neg hquote]
          rcases findFrom [q] tag (i₃ + 1) with _ | close
          · rfl
          · rfl
    · rw [if_pos heq, if_pos heq]
      rfl

/-- **A round that is not the last one advances.** -/
theorem lt_attrStep {tag : List UInt8} {p : Nat × List (List UInt8 × List UInt8)}
    (h : attrStep tag i = some p) : i < tag.length ∧ i < p.1 := by
  have hle (f : UInt8 → Bool) (i : Nat) : i ≤ skip f tag i := Nat.le_add_right _ _
  rw [attrStep] at h
  dsimp only at h
  split at h
  · cases h
  · rename_i hmore
    have hstart := hle isSpace i
    have hlt : skip isSpace tag i < tag.length := Nat.lt_of_not_le fun h => hmore (Or.inl h)
    have hname := hle isTagName (skip isSpace tag i)
    have hblank := hle isSpace (skip isTagName tag (skip isSpace tag i))
    refine ⟨by omega, ?_⟩
    split at h
    · cases h
      dsimp only
      split
      · omega
      · rename_i hkey
        rw [slice_eq_nil hlt hname] at hkey
        omega
    · have hafter := hle isSpace (skip isSpace tag (skip isTagName tag (skip isSpace tag i)) + 1)
      split at h
      · cases h
      · split at h
        · cases h
          dsimp only
          omega
        · split at h
          · cases h
          · rename_i hclose
            cases h
            have := (findFrom_stands (List.cons_ne_nil _ _) hclose).1
            dsimp only
            omega

def roundOf (acc : List (List UInt8 × List UInt8)) : Option (Nat × List (List UInt8 × List UInt8)) →
    Round (Nat × List (List UInt8 × List UInt8)) (List (List UInt8 × List UInt8))
  | none => .done acc
  | some p => .next (p.1, acc ++ p.2)

/-- The closing quote is looked for in the whole document, but only counts in the tag. -/
theorem findFrom_quote (hgt : s[gt]? = some 0x3E) {q : UInt8} (hq : ¬ (q ≠ 0x22 ∧ q ≠ 0x27))
    (i : Nat) : findFrom [q] (s.take gt) i =
      (findFrom [q] s i).filter fun close => decide (¬ close > gt) := by
  rw [findFrom_take (List.cons_ne_nil _ _)]
  rcases hclose : findFrom [q] s i with _ | close
  · rfl
  · have hstands := (findFrom_stands (List.cons_ne_nil _ _) hclose).2.1
    have hne : close ≠ gt := by
      rintro rfl
      obtain ⟨t, ht⟩ := hstands
      have hhead : s[close]? = some q := by
        rw [← List.head?_drop, ← ht]
        rfl
      rw [hgt] at hhead
      cases hhead
      exact hq (by decide)
    rw [Option.filter_some, Option.filter_some, List.length_singleton]
    congr 1
    simp only [decide_eq_true_eq, Nat.not_lt]
    exact propext ⟨fun h => by omega, fun h => by omega⟩

theorem attrRound_ok (hgt : s[gt]? = some 0x3E) (hrounds : gt < rounds)
    (st : Nat × List (List UInt8 × List UInt8)) :
    attrRound s gt rounds st = .ok (roundOf st.2 (attrStep (s.take gt) st.1)) := by
  have hlen : gt < s.length := (List.getElem?_eq_some_iff.mp hgt).1
  have htag : (s.take gt).length = gt := List.length_take_of_le (Nat.le_of_lt hlen)
  have hskip {f : UInt8 → Bool} {i : Nat} :
      skipWhile f s gt rounds i = .ok (skip f (s.take gt) i) := skipWhile_ok (by omega) (by omega)
  have hholds {f : UInt8 → Bool} {i : Nat} : holds f s gt i = .ok (at? (s.take gt) i f) :=
    holds_ok (by omega) i
  rw [attrRound, attrStep, hskip, ok_bind, hholds, ok_bind]
  dsimp only
  obtain ⟨i₁, hi₁⟩ : ∃ i, skip isSpace (s.take gt) st.1 = i := ⟨_, rfl⟩
  rw [hi₁]
  by_cases hmore : at? (s.take gt) i₁ (· ≠ 0x2F)
  case neg =>
    rw [if_pos hmore, if_pos (not_not.mp fun h => hmore (at?_ne.mpr h))]
    rfl
  have hlt : i₁ < gt := htag ▸ lt_of_at? hmore
  rw [if_neg (not_not.mpr hmore), if_neg (at?_ne.mp hmore), hskip, ok_bind, hskip, ok_bind, hholds,
    ok_bind]
  obtain ⟨j, hj⟩ : ∃ j, skip isTagName (s.take gt) i₁ = j := ⟨_, rfl⟩
  obtain ⟨i₂, hi₂⟩ : ∃ i, skip isSpace (s.take gt) j = i := ⟨_, rfl⟩
  have hjle : j ≤ gt := by
    have hle := skip_le isTagName (show i₁ ≤ (s.take gt).length by omega)
    omega
  rw [hj, hi₂, slice_take hjle]
  by_cases heq : at? (s.take gt) i₂ (· = 0x3D)
  case neg =>
    rw [if_pos heq, if_pos heq, roundOf, List.append_nil]
  rw [if_neg (not_not.mpr heq), if_neg (not_not.mpr heq), hskip, ok_bind]
  obtain ⟨i₃, hi₃⟩ : ∃ i, skip isSpace (s.take gt) (i₂ + 1) = i := ⟨_, rfl⟩
  rw [hi₃, List.getElem?_take]
  by_cases hlt₃ : i₃ < gt
  case neg =>
    rw [if_pos (Nat.le_of_not_lt hlt₃), if_neg hlt₃]
    rfl
  rw [if_neg (by omega), if_pos hlt₃, charAt_of_lt (by omega), ok_bind,
    List.getElem?_eq_getElem (by omega)]
  dsimp only
  by_cases hquote : s[i₃] ≠ 0x22 ∧ s[i₃] ≠ 0x27
  case pos =>
    rw [if_pos hquote, if_pos hquote, roundOf, List.append_nil]
  rw [if_neg hquote, if_neg hquote, findFrom_quote hgt hquote]
  rcases hclose : findFrom [s[i₃]] s (i₃ + 1) with _ | close
  · rfl
  · have hle := (findFrom_stands (List.cons_ne_nil _ _) hclose).1
    rw [Option.filter_some]
    by_cases hin : close > gt
    · rw [if_neg (by simpa using hin)]
      exact if_pos hin
    · rw [if_pos (by simpa using hin)]
      dsimp only
      rw [if_neg hin, substr, if_pos (by omega), ok_bind, roundOf, slice_take (by omega),
        Nat.sub_sub]
      rfl

/-- What the loop returns from a state, whatever the rounds that `attrsLoop` has. -/
def Attrs (tag : List UInt8) (st : Nat × List (List UInt8 × List UInt8))
    (r : List (List UInt8 × List UInt8)) : Prop :=
  ∀ m, tag.length - st.1 < m → r = st.2 ++ attrsLoop tag m st.1

theorem roundOf_good (tag : List UInt8) (st : Nat × List (List UInt8 × List UInt8)) :
    Round.Good (fun _ => True) (fun st => tag.length - st.1) (Attrs tag) st
      (roundOf st.2 (attrStep tag st.1)) := by
  rcases hstep : attrStep tag st.1 with _ | p
  · refine .done fun m hm => ?_
    obtain ⟨n, rfl⟩ := Nat.exists_eq_add_one_of_ne_zero (Nat.ne_zero_of_lt hm)
    rw [attrsLoop_succ, hstep]
    exact (List.append_nil _).symm
  · obtain ⟨hlt, hnext⟩ := lt_attrStep hstep
    refine .next trivial (by dsimp only; omega) fun r hr m hm => ?_
    obtain ⟨n, rfl⟩ := Nat.exists_eq_add_one_of_ne_zero (Nat.ne_zero_of_lt hm)
    rw [attrsLoop_succ, hstep, hr n (by dsimp only; omega), List.append_assoc]
    rfl

/-- **The attributes** are those of the model. -/
theorem attrs_ok (hgt : s[gt]? = some 0x3E) (hrounds : gt < rounds) (i : Nat) {m : Nat}
    (hm : gt < m) : attrs s gt rounds i = .ok (attrsLoop (s.take gt) m i) := by
  have hlen : (s.take gt).length ≤ gt := List.length_take_le _ _
  obtain ⟨r, hloop, hr⟩ := loop_ok Fault.rounds _ _ _
    (fun st _ => ⟨_, attrRound_ok hgt hrounds st, roundOf_good (s.take gt) st⟩) rounds
    (s := (i, [])) trivial (by dsimp only; omega)
  rw [attrs, hloop, hr m (by dsimp only; omega)]
  rfl

/-! ### Tags -/

theorem getElem?_of_stands {c : UInt8} (h : Stands [c] s i) : s[i]? = some c := by
  obtain ⟨t, ht⟩ := h
  rw [← List.head?_drop, ← ht]
  rfl

/-- A round that finds a `<` and a `>`. -/
theorem tagRound_ok {lt : Nat} (hrounds : s.length < rounds)
    (hlt : findFrom (ascii "<") s pos = some lt) (hgt : findFrom (ascii ">") s lt = some gt) :
    tagRound s rounds pos = .ok ((tagAt (s.take gt) lt).elim (.next (gt + 1))
      fun tag => .done (some tag, gt + 1)) := by
  have hopen := getElem?_of_stands (findFrom_stands (by decide) hlt).2.1
  obtain ⟨hle, hstands, hin⟩ := findFrom_stands (by decide) hgt
  have hclose : s[gt]? = some 0x3E := getElem?_of_stands hstands
  have hne : lt ≠ gt := by
    rintro rfl
    rw [hopen] at hclose
    cases hclose
  have hlen : gt < s.length := hin
  have htag : (s.take gt).length = gt := List.length_take_of_le (Nat.le_of_lt hlen)
  have hskip {f : UInt8 → Bool} {i : Nat} :
      skipWhile f s gt rounds i = .ok (skip f (s.take gt) i) := skipWhile_ok (by omega) (by omega)
  have hholds {f : UInt8 → Bool} {i : Nat} : holds f s gt i = .ok (at? (s.take gt) i f) :=
    holds_ok (by omega) i
  rw [tagRound, hlt]
  dsimp only
  rw [hgt]
  dsimp only
  rw [hholds, ok_bind, tagAt]
  dsimp only
  by_cases hskipped : at? (s.take gt) (lt + 1) fun c => c = 0x3F ∨ c = 0x21
  case pos =>
    rw [if_pos hskipped, if_pos hskipped]
    rfl
  rw [if_neg hskipped, if_neg hskipped, hholds, ok_bind]
  obtain ⟨i, hi⟩ : ∃ i, (if at? (s.take gt) (lt + 1) (· = 0x2F) then lt + 1 + 1 else lt + 1) = i :=
    ⟨_, rfl⟩
  have hile : i ≤ gt := by
    rw [← hi]
    split
    · rename_i hslash
      have := lt_of_at? hslash
      omega
    · omega
  have hjle := skip_le isTagName (show i ≤ (s.take gt).length by omega)
  rw [htag] at hjle
  rw [hi, hskip, ok_bind, slice_take hjle]
  by_cases hname : slice s i (skip isTagName (s.take gt) i) = []
  case pos =>
    rw [if_pos hname, if_pos hname]
    rfl
  rw [if_neg hname, if_neg hname, attrs_ok hclose (by omega) _ (Nat.lt_succ_self gt), ok_bind, htag]
  rfl

/-- What the scanner says is so: the end of the document, or a `>` behind the position. -/
def Advances (s : List UInt8) (pos : Nat) (r : Option XmlTag × Nat) : Prop :=
  (r.1 = none ∧ r.2 = s.length) ∨
    (r.1 ≠ none ∧ pos < r.2 ∧ r.2 ≤ s.length ∧ s[r.2 - 1]? = some 0x3E)

/-- What the loop returns from a position, whatever the rounds that `xmlNextTagLoop` has. -/
def Next (s : List UInt8) (pos : Nat) (r : Option XmlTag × Nat) : Prop :=
  Advances s pos r ∧
    ∀ m, s.length - pos < m → xmlNextTagLoop s m pos = r.1.map fun tag => (tag, r.2)

/-- No tag is left. -/
theorem Next.ends (h : ∀ n, xmlNextTagLoop s (n + 1) pos = none) : Next s pos (none, s.length) := by
  refine ⟨.inl ⟨rfl, rfl⟩, fun m hm => ?_⟩
  obtain ⟨n, rfl⟩ := Nat.exists_eq_add_one_of_ne_zero (Nat.ne_zero_of_lt hm)
  exact h n

/-- What stands at the position is passed over. -/
theorem Next.skip {pos' : Nat} {r : Option XmlTag × Nat} (h : Next s pos' r) (hlt : pos < pos')
    (hle : pos' ≤ s.length)
    (hloop : ∀ n, xmlNextTagLoop s (n + 1) pos = xmlNextTagLoop s n pos') : Next s pos r := by
  obtain ⟨hadv, hmodel⟩ := h
  refine ⟨?_, fun m hm => ?_⟩
  · rcases hadv with hend | ⟨hsome, hnext, hrest⟩
    · exact .inl hend
    · exact .inr ⟨hsome, Nat.lt_trans hlt hnext, hrest⟩
  · obtain ⟨n, rfl⟩ := Nat.exists_eq_add_one_of_ne_zero (Nat.ne_zero_of_lt hm)
    rw [hloop]
    exact hmodel n (by omega)

/-- The loop of the model, where a `<` and a `>` are found. -/
theorem xmlNextTagLoop_succ {lt : Nat} (hlt : findFrom (ascii "<") s pos = some lt)
    (hgt : findFrom (ascii ">") s lt = some gt) (n : Nat) :
    xmlNextTagLoop s (n + 1) pos = (tagAt (s.take gt) lt).elim (xmlNextTagLoop s n (gt + 1))
      fun tag => some (tag, gt + 1) := by
  rw [xmlNextTagLoop, hlt]
  dsimp only
  rw [hgt]
  dsimp only
  cases tagAt (s.take gt) lt with
  | none => rfl
  | some tag => rfl

theorem tagRound_good (hrounds : s.length < rounds) (pos : Nat) :
    ∃ t, tagRound s rounds pos = .ok t ∧
      Round.Good (fun pos => pos ≤ s.length) (fun pos => s.length - pos) (Next s) pos t := by
  rcases hlt : findFrom (ascii "<") s pos with _ | lt
  · refine ⟨.done (none, s.length), by rw [tagRound, hlt], .done (.ends fun n => ?_)⟩
    rw [xmlNextTagLoop, hlt]
  rcases hgt : findFrom (ascii ">") s lt with _ | gt
  · refine ⟨.done (none, s.length), ?_, .done (.ends fun n => ?_)⟩
    · rw [tagRound, hlt]
      dsimp only
      rw [hgt]
    · rw [xmlNextTagLoop, hlt]
      dsimp only
      rw [hgt]
  have hle₁ := (findFrom_stands (by decide) hlt).1
  obtain ⟨hle₂, hstands, hin⟩ := findFrom_stands (by decide) hgt
  have hlen : gt < s.length := hin
  have hmodel := xmlNextTagLoop_succ hlt hgt
  refine ⟨_, tagRound_ok hrounds hlt hgt, ?_⟩
  cases htag : tagAt (s.take gt) lt with
  | none =>
      rw [htag] at hmodel
      exact .next hlen (by omega) fun r hr => hr.skip (by omega) hlen hmodel
  | some tag =>
      rw [htag] at hmodel
      refine .done ⟨.inr ⟨Option.some_ne_none tag, Nat.lt_succ_of_le (by omega), hlen, ?_⟩,
        fun m hm => ?_⟩
      · exact getElem?_of_stands hstands
      · obtain ⟨n, rfl⟩ := Nat.exists_eq_add_one_of_ne_zero (Nat.ne_zero_of_lt hm)
        exact hmodel n

/-- **The scanner** finds the tag of the model, or the end. -/
theorem xmlNextTag_ok (hrounds : s.length < rounds) (hpos : pos ≤ s.length) :
    ∃ r, xmlNextTag s rounds pos = .ok r ∧ Next s pos r :=
  loop_ok _ _ _ _ (fun pos _ => tagRound_good hrounds pos) rounds hpos (by omega)

/-! ### The parsers -/

theorem scanTags_ok {σ : Type} (step : σ → XmlTag → σ) (hrounds : s.length < rounds) (st : σ) :
    scanTags step s rounds st = .ok (Ribcl.scanTags step s st) := by
  have hround : ∀ st : Nat × σ, st.1 ≤ s.length → ∃ t, scanRound step s rounds st = .ok t ∧
      Round.Good (fun st => st.1 ≤ s.length) (fun st => s.length - st.1)
        (fun st r => ∀ m, s.length - st.1 < m → r = tagLoop step s m st.1 st.2) st t := by
    intro st hpos
    obtain ⟨⟨tag, pos⟩, hscan, hadv, hnext⟩ := xmlNextTag_ok hrounds hpos
    rw [scanRound, hscan, ok_bind]
    have hmodel : Ribcl.xmlNextTag s st.1 = tag.map fun tag => (tag, pos) :=
      hnext _ (by omega)
    cases tag with
    | none =>
        refine ⟨_, rfl, .done fun m hm => ?_⟩
        obtain ⟨n, rfl⟩ := Nat.exists_eq_add_one_of_ne_zero (Nat.ne_zero_of_lt hm)
        rw [tagLoop, hmodel]
        rfl
    | some tag =>
        rcases hadv with ⟨hnone, -⟩ | ⟨-, hlt, hle, -⟩
        · cases hnone
        · dsimp only at hlt hle
          refine ⟨_, rfl, .next hle (by dsimp only; omega) fun r hr m hm => ?_⟩
          obtain ⟨n, rfl⟩ := Nat.exists_eq_add_one_of_ne_zero (Nat.ne_zero_of_lt hm)
          rw [tagLoop, hmodel]
          exact hr n (by dsimp only; omega)
  obtain ⟨r, hloop, hr⟩ := loop_ok Fault.rounds _ _ _ hround rounds (s := (0, st))
    (Nat.zero_le _) (by dsimp only; omega)
  rw [scanTags, hloop, hr _ (Nat.lt_succ_self _)]
  rfl

/-- **The scanner always makes progress.**  It ends, with every read in the document, and either
there is no tag left and the position is the end, or it has a tag and the position is behind a
`>` further on.  So the parsers end, with the result of the model. -/
theorem xmlNextTag_advances {s : List UInt8} {pos rounds : Nat} (hpos : pos ≤ s.length)
    (hrounds : s.length < rounds) :
    (∃ tag pos', xmlNextTag s rounds pos = .ok (tag, pos') ∧
      ((tag = none ∧ pos' = s.length) ∨
        (tag ≠ none ∧ pos < pos' ∧ pos' ≤ s.length ∧ s[pos' - 1]? = some 0x3E)) ∧
      Ribcl.xmlNextTag s pos = tag.map fun tag => (tag, pos')) ∧
    parseEmbeddedHealth s rounds = .ok (Ribcl.parseEmbeddedHealth s) ∧
    parsePowerReadings s rounds = .ok (Ribcl.parsePowerReadings s) := by
  refine ⟨?_, ?_, ?_⟩
  · obtain ⟨⟨tag, pos'⟩, hscan, hadv, hnext⟩ := xmlNextTag_ok hrounds hpos
    exact ⟨tag, pos', hscan, hadv, hnext _ (by omega)⟩
  · rw [parseEmbeddedHealth, scanTags_ok _ hrounds, ok_bind]
    rfl
  · exact scanTags_ok _ hrounds _

/-- A comment, and a tag with a stray quote and a value that does not end. -/
theorem xmlNextTag_advances_stray : ∃ tag, xmlNextTag (ascii "<!--><A \"B = 'C>") 17 0 =
    .ok (tag, 16) ∧ tag ≠ none := by
  obtain ⟨⟨tag, pos', hscan, -, hmodel⟩, -⟩ := xmlNextTag_advances
    (show 0 ≤ (ascii "<!--><A \"B = 'C>").length by decide)
    (show (ascii "<!--><A \"B = 'C>").length < 17 by decide)
  have htag : Ribcl.xmlNextTag (ascii "<!--><A \"B = 'C>") 0 = some (⟨ascii "A", false, []⟩, 16) := by
    decide
  rw [htag] at hmodel
  cases tag with
  | none => cases hmodel
  | some tag =>
      cases hmodel
      exact ⟨_, hscan, Option.some_ne_none _⟩

end Scanner

end Ilo2.Ribcl
