import Ilo2.Ribcl.Reply

/-!
# Health reports

`health.hpp`: a scanner that walks over the tags of a document in order, and the two
parsers that fill flat records from them.

* `tagLoop_eq` - a parser is a fold over the tags of the document.
* `prefix_tags` - the tags of a text are the first tags of every longer text.
-/

namespace Ilo2.Ribcl

open Text Strtol
open Tls (ascii)

/-! ### The tag scanner -/

structure XmlTag where
  name : List UInt8 := []
  closing : Bool := false
  attrs : List (List UInt8 × List UInt8) := []
deriving DecidableEq

/-- `XmlTag::value`. -/
def XmlTag.value (t : XmlTag) (key : String) : List UInt8 :=
  match t.attrs.find? fun a => a.1 = ascii key with
  | some a => a.2
  | none => []

/-- `is_name` of `xml_next_tag`. -/
def isTagName (c : UInt8) : Bool :=
  ¬ isSpace c ∧ c ≠ 0x3D ∧ c ≠ 0x2F ∧ c ≠ 0x3E ∧ c ≠ 0x22 ∧ c ≠ 0x27

/-- The first index from `i` on at which `f` does not hold, in a text that ends at `gt`. -/
def skip (f : UInt8 → Bool) (tag : List UInt8) (i : Nat) : Nat :=
  i + ((tag.drop i).takeWhile f).length

/-- The characters in `[i, j)`. -/
def slice (s : List UInt8) (i j : Nat) : List UInt8 := (s.drop i).take (j - i)

/-- The attributes in a tag from `i` on.  `tag` is the document up to the `>` of the tag, so
that an index is below `gt` if it is in `tag`; a value that does not end there ends the
loop. -/
def attrsLoop (tag : List UInt8) : (rounds i : Nat) → List (List UInt8 × List UInt8)
  | 0, _ => []
  | rounds + 1, i =>
      let i := skip isSpace tag i
      if i ≥ tag.length ∨ at? tag i (· = 0x2F) then []
      else
        let j := skip isTagName tag i
        let key := slice tag i j
        let i := skip isSpace tag j
        if ¬ at? tag i (· = 0x3D) then attrsLoop tag rounds (if key = [] then i + 1 else i)
        else
          let i := skip isSpace tag (i + 1)
          match tag[i]? with
          | none => []
          | some q =>
              if q ≠ 0x22 ∧ q ≠ 0x27 then attrsLoop tag rounds i
              else
                match findFrom [q] tag (i + 1) with
                | none => []
                | some close => (key, slice tag (i + 1) close) :: attrsLoop tag rounds (close + 1)

/-- The tag whose `<` is at `lt`; nothing for a prolog, a comment or an empty name. -/
def tagAt (tag : List UInt8) (lt : Nat) : Option XmlTag :=
  let i := lt + 1
  if at? tag i fun c => c = 0x3F ∨ c = 0x21 then none
  else
    let closing := at? tag i (· = 0x2F)
    let i := if closing then i + 1 else i
    let j := skip isTagName tag i
    let name := slice tag i j
    if name = [] then none
    else some { name := name, closing := closing, attrs := attrsLoop tag (tag.length + 1) j }

/-- The loop of `xml_next_tag` at `pos`: the tag, and `pos` behind it. -/
def xmlNextTagLoop (s : List UInt8) : (rounds pos : Nat) → Option (XmlTag × Nat)
  | 0, _ => none
  | rounds + 1, pos =>
      match findFrom (ascii "<") s pos with
      | none => none
      | some lt =>
          match findFrom (ascii ">") s lt with
          | none => none
          | some gt =>
              match tagAt (s.take gt) lt with
              | none => xmlNextTagLoop s rounds (gt + 1)
              | some tag => some (tag, gt + 1)

/-- `xml_next_tag`.  Every round advances. -/
def xmlNextTag (s : List UInt8) (pos : Nat) : Option (XmlTag × Nat) :=
  xmlNextTagLoop s (s.length + 1) pos

/-- `while (xml_next_tag(s, pos, t))`, with `step` as its body. -/
def tagLoop {σ : Type} (step : σ → XmlTag → σ) (s : List UInt8) : (rounds pos : Nat) → σ → σ
  | 0, _, st => st
  | rounds + 1, pos, st =>
      match xmlNextTag s pos with
      | none => st
      | some (t, pos) => tagLoop step s rounds pos (step st t)

/-- The whole loop, from the start of the document. -/
def scanTags {σ : Type} (step : σ → XmlTag → σ) (s : List UInt8) (st : σ) : σ :=
  tagLoop step s (s.length + 1) 0 st

/-! ### The parsers -/

/-- `health_int`. -/
def healthInt (v : List UInt8) : Int :=
  if v = [] ∨ v = ascii "n/a" ∨ v = ascii "N/A" then -1
  else
    match strtol 10 v with
    | none => -1
    | some n => toInt32 n

structure HealthFan where
  label : List UInt8 := []
  zone : List UInt8 := []
  status : List UInt8 := []
  speedPct : Int := -1
deriving DecidableEq

structure HealthTemp where
  label : List UInt8 := []
  location : List UInt8 := []
  status : List UInt8 := []
  reading : Int := -1
  caution : Int := -1
  critical : Int := -1
deriving DecidableEq

structure HealthSupply where
  label : List UInt8 := []
  status : List UInt8 := []
deriving DecidableEq

structure HealthDrive where
  bay : Int := 0
  product : List UInt8 := []
  status : List UInt8 := []
deriving DecidableEq

structure HealthGlance where
  fans : List UInt8 := []
  fanRedundancy : List UInt8 := []
  temperature : List UInt8 := []
  vrm : List UInt8 := []
  supplies : List UInt8 := []
  supplyRedundancy : List UInt8 := []
  drives : List UInt8 := []
deriving DecidableEq

structure HealthData where
  valid : Bool := false
  fans : List HealthFan := []
  temps : List HealthTemp := []
  supplies : List HealthSupply := []
  drives : List HealthDrive := []
  glance : HealthGlance := {}
deriving DecidableEq

/-- The section that the loop of `parse_embedded_health` is in. -/
inductive Section where
  | none
  | fans
  | temps
  | supplies
  | drives
  | glance
deriving DecidableEq

/-- `back()` of a vector that is not empty, changed by `f`. -/
def setBack {α : Type} (xs : List α) (f : α → α) : List α :=
  match xs.getLast? with
  | none => xs
  | some x => xs.dropLast ++ [f x]

def fanTag (h : HealthData) (t : XmlTag) : HealthData :=
  let v := t.value "VALUE"
  if t.name = ascii "FAN" then { h with fans := h.fans ++ [{}] }
  else if t.name = ascii "LABEL" then { h with fans := setBack h.fans fun f => { f with label := v } }
  else if t.name = ascii "ZONE" then { h with fans := setBack h.fans fun f => { f with zone := v } }
  else if t.name = ascii "STATUS" then
    { h with fans := setBack h.fans fun f => { f with status := v } }
  else if t.name = ascii "SPEED" then
    { h with fans := setBack h.fans fun f => { f with speedPct := healthInt v } }
  else h

def tempTag (h : HealthData) (t : XmlTag) : HealthData :=
  let v := t.value "VALUE"
  if t.name = ascii "TEMP" then { h with temps := h.temps ++ [{}] }
  else if t.name = ascii "LABEL" then
    { h with temps := setBack h.temps fun f => { f with label := v } }
  else if t.name = ascii "LOCATION" then
    { h with temps := setBack h.temps fun f => { f with location := v } }
  else if t.name = ascii "STATUS" then
    { h with temps := setBack h.temps fun f => { f with status := v } }
  else if t.name = ascii "CURRENTREADING" then
    { h with temps := setBack h.temps fun f => { f with reading := healthInt v } }
  else if t.name = ascii "CAUTION" then
    { h with temps := setBack h.temps fun f => { f with caution := healthInt v } }
  else if t.name = ascii "CRITICAL" then
    { h with temps := setBack h.temps fun f => { f with critical := healthInt v } }
  else h

def supplyTag (h : HealthData) (t : XmlTag) : HealthData :=
  let v := t.value "VALUE"
  if t.name = ascii "SUPPLY" then { h with supplies := h.supplies ++ [{}] }
  else if t.name = ascii "LABEL" then
    { h with supplies := setBack h.supplies fun f => { f with label := v } }
  else if t.name = ascii "STATUS" then
    { h with supplies := setBack h.supplies fun f => { f with status := v } }
  else h

def driveTag (h : HealthData) (t : XmlTag) : HealthData :=
  if t.name = ascii "DRIVE" then
    { h with drives := h.drives ++ [{ bay := healthInt (t.value "BAY") }] }
  else if t.name = ascii "PRODUCT" then
    { h with drives := setBack h.drives fun f => { f with product := t.value "ID" } }
  else if t.name = ascii "DRIVE_STATUS" then
    { h with drives := setBack h.drives fun f => { f with status := t.value "VALUE" } }
  else h

/-- `v`, if it is there. -/
def orKeep (v old : List UInt8) : List UInt8 := if v ≠ [] then v else old

def glanceTag (h : HealthData) (t : XmlTag) : HealthData :=
  let st := t.value "STATUS"
  let red := t.value "REDUNDANCY"
  let g := h.glance
  let g :=
    if t.name = ascii "FANS" then
      { g with fans := orKeep st g.fans, fanRedundancy := orKeep red g.fanRedundancy }
    else if t.name = ascii "TEMPERATURE" then { g with temperature := orKeep st g.temperature }
    else if t.name = ascii "VRM" then { g with vrm := orKeep st g.vrm }
    else if t.name = ascii "POWER_SUPPLIES" then
      { g with supplies := orKeep st g.supplies
               supplyRedundancy := orKeep red g.supplyRedundancy }
    else if t.name = ascii "DRIVE" then { g with drives := orKeep st g.drives }
    else g
  { h with glance := g }

/-- The section that a tag opens. -/
def sectionOf (name : List UInt8) : Section :=
  if name = ascii "FANS" then .fans
  else if name = ascii "TEMPERATURE" then .temps
  else if name = ascii "POWER_SUPPLIES" then .supplies
  else if name = ascii "DRIVES" then .drives
  else if name = ascii "HEALTH_AT_A_GLANCE" then .glance
  else .none

/-- The body of the loop of `parse_embedded_health`. -/
def healthStep (st : HealthData × Section) (t : XmlTag) : HealthData × Section :=
  let (h, sec) := st
  if t.closing then
    (if t.name = ascii "GET_EMBEDDED_HEALTH_DATA" then { h with valid := true } else h,
      if sectionOf t.name ≠ .none then .none else sec)
  else
    match sec with
    | .none => (h, sectionOf t.name)
    | .fans => (fanTag h t, sec)
    | .temps => (tempTag h t, sec)
    | .supplies => (supplyTag h t, sec)
    | .drives => (driveTag h t, sec)
    | .glance => (glanceTag h t, sec)

/-- `parse_embedded_health`. -/
def parseEmbeddedHealth (xml : List UInt8) : HealthData :=
  (scanTags healthStep xml ({}, Section.none)).1

structure PowerReadings where
  valid : Bool := false
  present : Int := -1
  average : Int := -1
  maximum : Int := -1
  minimum : Int := -1
deriving DecidableEq

/-- The body of the loop of `parse_power_readings`. -/
def readingStep (p : PowerReadings) (t : XmlTag) : PowerReadings :=
  if t.closing then
    if t.name = ascii "GET_POWER_READINGS" then { p with valid := true } else p
  else
    let v := healthInt (t.value "VALUE")
    if t.name = ascii "PRESENT_POWER_READING" then { p with present := v }
    else if t.name = ascii "AVERAGE_POWER_READING" then { p with average := v }
    else if t.name = ascii "MAXIMUM_POWER_READING" then { p with maximum := v }
    else if t.name = ascii "MINIMUM_POWER_READING" then { p with minimum := v }
    else p

/-- `parse_power_readings`. -/
def parsePowerReadings (xml : List UInt8) : PowerReadings := scanTags readingStep xml {}

/-! ### Tags -/

/-- The tags of a document. -/
def tags (s : List UInt8) : List XmlTag := scanTags (fun ts t => ts ++ [t]) s []

variable {σ : Type} {s t : List UInt8} {pos : Nat}

theorem tagLoop_foldl (step : σ → XmlTag → σ) (s : List UInt8) (st : σ) (rounds pos : Nat)
    (ts : List XmlTag) : tagLoop step s rounds pos (ts.foldl step st) =
      (tagLoop (fun ts t => ts ++ [t]) s rounds pos ts).foldl step st := by
  induction rounds generalizing pos ts with
  | zero => rfl
  | succ rounds ih =>
      rw [tagLoop, tagLoop]
      cases xmlNextTag s pos with
      | none => rfl
      | some r =>
          dsimp only
          rw [← ih, List.foldl_append]
          rfl

/-- **A parser is a fold** over the tags. -/
theorem scanTags_eq (step : σ → XmlTag → σ) (s : List UInt8) (st : σ) :
    scanTags step s st = (tags s).foldl step st := tagLoop_foldl step s st _ 0 []

theorem xmlNextTagLoop_append {m n : Nat} (hmn : m ≤ n) {r : XmlTag × Nat}
    (h : xmlNextTagLoop s m pos = some r) (t : List UInt8) :
    xmlNextTagLoop (s ++ t) n pos = some r := by
  induction m generalizing n pos with
  | zero => cases h
  | succ m ih =>
      obtain ⟨n, rfl⟩ : ∃ k, n = k + 1 := ⟨n - 1, by omega⟩
      rw [xmlNextTagLoop] at h ⊢
      cases hlt : findFrom (ascii "<") s pos with
      | none => simp [hlt] at h
      | some lt =>
          rw [hlt] at h
          rw [findFrom_append (by decide) hlt]
          dsimp only at h ⊢
          cases hgt : findFrom (ascii ">") s lt with
          | none => simp [hgt] at h
          | some gt =>
              obtain ⟨-, -, hle⟩ := findFrom_stands (by decide) hgt
              rw [hgt] at h
              rw [findFrom_append (by decide) hgt]
              dsimp only at h ⊢
              rw [List.take_append_of_le_length (by omega)]
              cases htag : tagAt (s.take gt) lt with
              | none =>
                  rw [htag] at h
                  exact ih (Nat.le_of_succ_le_succ hmn) h
              | some tag =>
                  rw [htag] at h
                  exact h

theorem prefix_tagLoop (s : List UInt8) (rounds pos : Nat) (ts : List XmlTag) :
    ts <+: tagLoop (fun ts t => ts ++ [t]) s rounds pos ts := by
  induction rounds generalizing pos ts with
  | zero => exact List.prefix_rfl
  | succ rounds ih =>
      rw [tagLoop]
      split
      · exact List.prefix_rfl
      · exact (List.prefix_append _ _).trans (ih _ _)

theorem prefix_tagLoop_append {m n : Nat} (hmn : m ≤ n) (s t : List UInt8) (pos : Nat)
    (ts : List XmlTag) : tagLoop (fun ts t => ts ++ [t]) s m pos ts <+:
      tagLoop (fun ts t => ts ++ [t]) (s ++ t) n pos ts := by
  induction m generalizing n pos ts with
  | zero => exact prefix_tagLoop _ _ _ _
  | succ m ih =>
      obtain ⟨n, rfl⟩ : ∃ k, n = k + 1 := ⟨n - 1, by omega⟩
      rw [tagLoop]
      cases hnext : xmlNextTag s pos with
      | none => exact prefix_tagLoop _ _ _ _
      | some r =>
          have hlen : s.length + 1 ≤ (s ++ t).length + 1 := by
            rw [List.length_append]
            omega
          have hnext' : xmlNextTag (s ++ t) pos = some r := xmlNextTagLoop_append hlen hnext t
          rw [tagLoop, hnext']
          exact ih (Nat.le_of_succ_le_succ hmn) _ _

/-- **The tags of a text** are the first tags of every longer text. -/
theorem prefix_tags (s t : List UInt8) : tags s <+: tags (s ++ t) :=
  prefix_tagLoop_append (by rw [List.length_append]; omega) s t 0 []

end Ilo2.Ribcl
