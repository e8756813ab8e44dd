import Ilo2.Lib.Records
import Ilo2.Ribcl.Markup

/-!
# The sections of a health report

Four of the sections hold records, each by a table: the tag that opens a record, and a tag for
every field.  The fifth is the overview.

* `Table.reads` - **a section with records** is read as its table says.
* `Table.writes_records` - and it can be written, if the values fit into quotes.
* `section_run` - each section fills its part of the data, whatever else stands in it.
-/

namespace Ilo2.Ribcl

open Text Strtol Records
open Tls (ascii)

/-! ### Values -/

/-- How a number stands in a report: -1 is `n/a`. -/
def Written (n : Int) (v : List UInt8) : Prop :=
  (n = -1 ∧ v = ascii "n/a") ∨ (0 ≤ n ∧ n < 2 ^ 31 ∧ Numeric v n.toNat)

theorem healthInt_written {n : Int} {v : List UInt8} (h : Written n v) : healthInt v = n := by
  rcases h with ⟨rfl, rfl⟩ | ⟨hle, hlt, hv⟩
  · rfl
  · have hdigit : ∀ c ∈ v, 0x30 ≤ c ∧ c ≤ 0x39 := hv.2.1
    have hna : ¬ (v = [] ∨ v = ascii "n/a" ∨ v = ascii "N/A") := by
      rintro (rfl | rfl | rfl)
      · exact hv.1 rfl
      · exact absurd (hdigit 0x6E (by decide)) (by decide)
      · exact absurd (hdigit 0x4E (by decide)) (by decide)
    rw [healthInt, if_neg hna, strtol_digits hv]
    dsimp only
    rw [Int.toNat_of_nonneg hle, toInt32, Int.bmod_def]
    omega

/-- A number with the digits it has. -/
def number (n : Int) : List UInt8 := if n = -1 then ascii "n/a" else decimal n.toNat

theorem written_number {n : Int} (hle : -1 ≤ n) (hlt : n < 2 ^ 31) : Written n (number n) := by
  rw [number]
  split_ifs with h
  · exact Or.inl ⟨h, rfl⟩
  · exact Or.inr ⟨by omega, hlt, numeric_decimal _⟩

theorem plain_number (n : Int) : Plain (number n) := by
  rw [number]
  split_ifs with h
  · exact ⟨by decide, by decide⟩
  · have hdigit := (numeric_decimal n.toNat).2.1
    exact ⟨fun hmem => absurd (hdigit _ hmem) (by decide),
      fun hmem => absurd (hdigit _ hmem) (by decide)⟩

theorem setBack_concat {α : Type} (xs : List α) (x : α) (f : α → α) :
    setBack (xs ++ [x]) f = xs ++ [f x] := by
  rw [setBack, List.getLast?_concat, List.dropLast_concat]

theorem value_single (name : List UInt8) (key : String) (v : List UInt8) :
    XmlTag.value { name := name, attrs := [(ascii key, v)] } key = v := by
  rw [XmlTag.value, List.find?_cons_of_pos (by simp)]

theorem value_other (name : List UInt8) {key other : String} (v : List UInt8)
    (h : ascii key ≠ ascii other) :
    XmlTag.value { name := name, attrs := [(ascii key, v)] } other = [] := by
  rw [XmlTag.value, List.find?_cons_of_neg (by simpa using h), List.find?_nil]

/-! ### Tables of tags -/

/-- A tag that is met in a section and does not leave it. -/
def Stays (t : XmlTag) : Prop :=
  t.closing = true → sectionOf t.name = .none ∧ t.name ≠ ascii "GET_EMBEDDED_HEALTH_DATA"

variable {α : Type}

/-- A field of a record: the tag and the attribute it stands in, its values there, and the
assignment.  A record is `Able` if `write` is such a value. -/
structure Row (α : Type) where
  name : List UInt8
  key : String
  Is : α → List UInt8 → Prop
  set : List UInt8 → α → α
  copy : α → α → α
  Able : α → Prop
  write : α → List UInt8
  set_eq : ∀ {x v}, Is x v → ∀ y, set v y = copy x y
  is_write : ∀ {x}, Able x → Is x (write x) ∧ Plain (write x)

def Row.text (name key : String) (get : α → List UInt8) (set : List UInt8 → α → α) : Row α where
  name := ascii name
  key := key
  Is x v := v = get x
  set := set
  copy x y := set (get x) y
  Able x := Plain (get x)
  write := get
  set_eq := by
    rintro x v rfl y
    rfl
  is_write h := ⟨rfl, h⟩

def Row.number (name key : String) (get : α → Int) (set : Int → α → α) : Row α where
  name := ascii name
  key := key
  Is x v := Written (get x) v
  set v y := set (healthInt v) y
  copy x y := set (get x) y
  Able x := -1 ≤ get x ∧ get x < 2 ^ 31
  write x := Ribcl.number (get x)
  set_eq := by
    intro x v h y
    rw [healthInt_written h]
  is_write h := ⟨written_number h.1 h.2, plain_number _⟩

def Row.field (r : Row α) : Field α XmlTag where
  Carries x t := t.closing = false ∧ t.name = r.name ∧ r.Is x (t.value r.key)
  copy := r.copy

/-- The tag with which a field is written. -/
def Row.tag (r : Row α) (x : α) : XmlTag := { name := r.name, attrs := [(ascii r.key, r.write x)] }

/-- A section that holds records: the tag that opens one, a field that it may have itself, and the
fields that have tags of their own.  A tag without a field of its own is closed again. -/
structure Table (α : Type) where
  opening : List UInt8
  blank : α
  own : Option (Row α)
  rows : List (Row α)
  distinct : (opening :: rows.map Row.name).Nodup
  names : ∀ r ∈ own.toList ++ rows, IsName r.name ∧ IsName (ascii r.key)
  isName : IsName opening
  stays : Stays { name := opening, closing := true }
  copied : ∀ x, copyAll ((own.toList ++ rows).map Row.field) x blank = x

namespace Table

variable (T : Table α)

/-- What the tag that opens a record makes. -/
def make (t : XmlTag) : α :=
  match T.own with
  | none => T.blank
  | some r => r.set (t.value r.key) T.blank

def shape : Shape α XmlTag where
  Opens x t := t.closing = false ∧ t.name = T.opening ∧ ∀ r ∈ T.own, r.Is x (t.value r.key)
  first x := copyAll (T.own.toList.map Row.field) x T.blank
  fields := T.rows.map Row.field
  known t := t.closing = false ∧ t.name ∈ T.opening :: T.rows.map Row.name

/-- What a tag does to the records of its section. -/
def step (xs : List α) (t : XmlTag) : List α :=
  if t.closing then xs
  else if t.name = T.opening then xs ++ [T.make t]
  else
    match T.rows.find? fun r => t.name = r.name with
    | some r => setBack xs (r.set (t.value r.key))
    | none => xs

theorem find_row {rows : List (Row α)} (h : (rows.map Row.name).Nodup) {r : Row α}
    (hr : r ∈ rows) : (rows.find? fun q => r.name = q.name) = some r := by
  induction rows with
  | nil => exact absurd hr List.not_mem_nil
  | cons q rows ih =>
      rw [List.map_cons, List.nodup_cons] at h
      rcases List.mem_cons.mp hr with rfl | hr
      · rw [List.find?_cons_of_pos (by simp)]
      · have hne : r.name ≠ q.name := fun heq => h.1 (heq ▸ List.mem_map_of_mem hr)
        rw [List.find?_cons_of_neg (by simp [hne]), ih h.2 hr]

theorem make_eq {x : α} {t : XmlTag} (h : T.shape.Opens x t) : T.make t = T.shape.first x := by
  have hown : ∀ r ∈ T.own, r.Is x (t.value r.key) := h.2.2
  rw [make, shape]
  dsimp only
  cases hr : T.own with
  | none => rfl
  | some r => exact r.set_eq (hown r hr) T.blank

/-- **A section** is read as its table says. -/
theorem reads : T.shape.Reads T.step where
  opens := by
    intro x t h xs
    have hmake := T.make_eq h
    obtain ⟨hc, hn, -⟩ := h
    rw [step, hc, if_neg (by decide), if_pos hn, hmake]
  carries := by
    intro f hf x t ht xs y
    obtain ⟨r, hr, rfl⟩ := List.mem_map.mp hf
    obtain ⟨hc, hn, hv⟩ := ht
    obtain ⟨hnot, hnodup⟩ := List.nodup_cons.mp T.distinct
    have hopen : ¬ r.name = T.opening := fun heq => hnot (heq ▸ List.mem_map_of_mem hr)
    rw [step, hc, if_neg (by decide), hn, if_neg hopen, find_row hnodup hr]
    dsimp only
    rw [setBack_concat, r.set_eq hv]
    rfl
  passes := by
    intro t ht xs
    cases hc : t.closing with
    | true => rw [step, if_pos hc]
    | false =>
        have hname : t.name ∉ T.opening :: T.rows.map Row.name := by
          intro hmem
          exact absurd (decide_eq_true ⟨hc, hmem⟩) (Bool.not_eq_true _ ▸ ht)
        rw [List.mem_cons, not_or] at hname
        have hnone : (T.rows.find? fun r => t.name = r.name) = none := by
          rw [List.find?_eq_none]
          intro r hr heq
          exact hname.2 (of_decide_eq_true heq ▸ List.mem_map_of_mem hr)
        rw [step, hc, if_neg (by decide), if_neg hname.1, hnone]
  copied := by
    intro x
    have hall := T.copied x
    rw [List.map_append, copyAll, List.foldl_append] at hall
    exact hall

theorem step_closing (xs : List α) (t : XmlTag) (hc : t.closing = true) : T.step xs t = xs :=
  if_pos hc

end Table

/-! ### A way to write a record -/

namespace Table

variable (T : Table α) {x : α} {xs : List α}

/-- The fields of `x` can be written. -/
def Able (x : α) : Prop := ∀ r ∈ T.own.toList ++ T.rows, r.Able x

def openTag (x : α) : XmlTag :=
  { name := T.opening, attrs := T.own.toList.map fun r => (ascii r.key, r.write x) }

/-- The tags of a record that are read. -/
def fieldTags (x : α) : List XmlTag := T.openTag x :: T.rows.map fun r => r.tag x

/-- The tags of a record. -/
def record (x : α) : List XmlTag :=
  T.fieldTags x ++ if T.own.isNone then [{ name := T.opening, closing := true }] else []

theorem opens_openTag (h : T.Able x) : T.shape.Opens x (T.openTag x) := by
  refine ⟨rfl, rfl, ?_⟩
  intro r hr
  have hown : T.own = some r := hr
  have hable : r.Able x := h r (List.mem_append_left _ (by rw [hown]; exact List.mem_singleton_self r))
  have hvalue : (T.openTag x).value r.key = r.write x := by
    rw [openTag, hown]
    exact value_single T.opening r.key (r.write x)
  rw [hvalue]
  exact (r.is_write hable).1

theorem carries_tags {rows : List (Row α)} (h : ∀ r ∈ rows, r.Able x) :
    List.Forall₂ (fun f t => f.Carries x t) (rows.map Row.field) (rows.map fun r => r.tag x) := by
  induction rows with
  | nil => exact .nil
  | cons r rows ih =>
      refine .cons ⟨rfl, rfl, ?_⟩ (ih fun q hq => h q (List.mem_cons_of_mem r hq))
      have hvalue : (r.tag x).value r.key = r.write x := value_single r.name r.key (r.write x)
      exact hvalue ▸ (r.is_write (h r List.mem_cons_self)).1

theorem writes_fieldTags (h : ∀ x ∈ xs, T.Able x) :
    T.shape.Writes xs (xs.flatMap T.fieldTags) := by
  induction xs with
  | nil => exact .nil
  | cons x xs ih =>
      have hable := h x List.mem_cons_self
      exact .cons (T.opens_openTag hable)
        (carries_tags fun r hr => hable r (List.mem_append_right _ hr))
        (ih fun y hy => h y (List.mem_cons_of_mem x hy))

theorem known_fieldTags {t : XmlTag} (ht : t ∈ T.fieldTags x) : T.shape.known t = true := by
  rcases List.mem_cons.mp ht with rfl | ht
  · exact decide_eq_true ⟨rfl, List.mem_cons_self⟩
  · obtain ⟨r, hr, rfl⟩ := List.mem_map.mp ht
    exact decide_eq_true ⟨rfl, List.mem_cons_of_mem _ (List.mem_map_of_mem hr)⟩

theorem filter_record (x : α) : (T.record x).filter T.shape.known = T.fieldTags x := by
  have hfields : (T.fieldTags x).filter T.shape.known = T.fieldTags x :=
    List.filter_eq_self.mpr fun t ht => T.known_fieldTags ht
  have hclose : T.shape.known { name := T.opening, closing := true } = false := by
    rw [shape, decide_eq_false_iff_not]
    rintro ⟨hc, -⟩
    cases hc
  rw [record, List.filter_append, hfields]
  split
  · rw [List.filter_singleton, hclose]
    exact List.append_nil _
  · exact List.append_nil _

/-- **Records** are written by their tags. -/
theorem writes_records (h : ∀ x ∈ xs, T.Able x) :
    T.shape.Writes xs ((xs.flatMap T.record).filter T.shape.known) := by
  rw [List.filter_flatMap, funext T.filter_record]
  exact T.writes_fieldTags h

theorem writable_fieldTags (h : T.Able x) {t : XmlTag} (ht : t ∈ T.fieldTags x) : Writable t := by
  rcases List.mem_cons.mp ht with rfl | ht
  · refine ⟨T.isName, ?_⟩
    intro a ha
    obtain ⟨r, hr, rfl⟩ := List.mem_map.mp ha
    have hmem := List.mem_append_left T.rows hr
    exact ⟨(T.names r hmem).2, (r.is_write (h r hmem)).2⟩
  · obtain ⟨r, hr, rfl⟩ := List.mem_map.mp ht
    have hmem := List.mem_append_right T.own.toList hr
    refine ⟨(T.names r hmem).1, ?_⟩
    intro a ha
    rw [List.mem_singleton.mp ha]
    exact ⟨(T.names r hmem).2, (r.is_write (h r hmem)).2⟩

theorem record_fits (h : ∀ x ∈ xs, T.Able x) : ∀ t ∈ xs.flatMap T.record, Stays t ∧ Writable t := by
  intro t ht
  obtain ⟨x, hx, ht⟩ := List.mem_flatMap.mp ht
  rcases List.mem_append.mp ht with ht | ht
  · refine ⟨?_, T.writable_fieldTags (h x hx) ht⟩
    intro hc
    rw [(of_decide_eq_true (T.known_fieldTags ht)).1] at hc
    exact absurd hc (by decide)
  · split at ht
    · rw [List.mem_singleton.mp ht]
      exact ⟨T.stays, writable_bare T.isName rfl⟩
    · exact absurd ht List.not_mem_nil

end Table

/-! ### The sections -/

def fanTable : Table HealthFan where
  opening := ascii "FAN"
  blank := {}
  own := none
  rows := [
    .text "LABEL" "VALUE" HealthFan.label fun v y => { y with label := v },
    .text "ZONE" "VALUE" HealthFan.zone fun v y => { y with zone := v },
    .text "STATUS" "VALUE" HealthFan.status fun v y => { y with status := v },
    .number "SPEED" "VALUE" HealthFan.speedPct fun n y => { y with speedPct := n }]
  distinct := by decide
  names := by decide +kernel
  isName := by decide +kernel
  stays _ := by decide +kernel
  copied _ := rfl

def tempTable : Table HealthTemp where
  opening := ascii "TEMP"
  blank := {}
  own := none
  rows := [
    .text "LABEL" "VALUE" HealthTemp.label fun v y => { y with label := v },
    .text "LOCATION" "VALUE" HealthTemp.location fun v y => { y with location := v },
    .text "STATUS" "VALUE" HealthTemp.status fun v y => { y with status := v },
    .number "CURRENTREADING" "VALUE" HealthTemp.reading fun n y => { y with reading := n },
    .number "CAUTION" "VALUE" HealthTemp.caution fun n y => { y with caution := n },
    .number "CRITICAL" "VALUE" HealthTemp.critical fun n y => { y with critical := n }]
  distinct := by decide
  names := by decide +kernel
  isName := by decide +kernel
  stays _ := by decide +kernel
  copied _ := rfl

def supplyTable : Table HealthSupply where
  opening := ascii "SUPPLY"
  blank := {}
  own := none
  rows := [
    .text "LABEL" "VALUE" HealthSupply.label fun v y => { y with label := v },
    .text "STATUS" "VALUE" HealthSupply.status fun v y => { y with status := v }]
  distinct := by decide
  names := by decide +kernel
  isName := by decide +kernel
  stays _ := by decide +kernel
  copied _ := rfl

/-- The tag that opens a drive has its bay; the details are in the tags behind it. -/
def driveTable : Table HealthDrive where
  opening := ascii "DRIVE"
  blank := {}
  own := some (.number "DRIVE" "BAY" HealthDrive.bay fun n y => { y with bay := n })
  rows := [
    .text "PRODUCT" "ID" HealthDrive.product fun v y => { y with product := v },
    .text "DRIVE_STATUS" "VALUE" HealthDrive.status fun v y => { y with status := v }]
  distinct := by decide
  names := by decide +kernel
  isName := by decide +kernel
  stays _ := by decide +kernel
  copied _ := rfl

/-- The function of each section is its table. -/
theorem fanTag_eq (h : HealthData) {t : XmlTag} (hc : t.closing = false) :
    fanTag h t = { h with fans := fanTable.step h.fans t } := by
  rw [fanTag]
  split_ifs
  all_goals simp +decide [Table.step, Table.make, fanTable, Row.text, Row.number, *]

theorem tempTag_eq (h : HealthData) {t : XmlTag} (hc : t.closing = false) :
    tempTag h t = { h with temps := tempTable.step h.temps t } := by
  rw [tempTag]
  split_ifs
  all_goals simp +decide [Table.step, Table.make, tempTable, Row.text, Row.number, *]

theorem supplyTag_eq (h : HealthData) {t : XmlTag} (hc : t.closing = false) :
    supplyTag h t = { h with supplies := supplyTable.step h.supplies t } := by
  rw [supplyTag]
  split_ifs
  all_goals simp +decide [Table.step, Table.make, supplyTable, Row.text, *]

theorem driveTag_eq (h : HealthData) {t : XmlTag} (hc : t.closing = false) :
    driveTag h t = { h with drives := driveTable.step h.drives t } := by
  rw [driveTag]
  split_ifs
  all_goals simp +decide [Table.step, Table.make, driveTable, Row.text, Row.number, *]

/-! ### Health at a glance -/

/-- A value of the overview, in a tag without the attribute `other`. -/
structure GlanceRow where
  name : String
  key : String
  other : String
  get : HealthGlance → List UInt8
  copy : HealthGlance → HealthGlance → HealthGlance

def GlanceRow.field (r : GlanceRow) : Field HealthGlance XmlTag where
  Carries x t := t.closing = false ∧ t.name = ascii r.name ∧ t.value r.key = r.get x ∧
    t.value r.other = []
  copy := r.copy

def GlanceRow.tag (r : GlanceRow) (x : HealthGlance) : XmlTag :=
  { name := ascii r.name, attrs := [(ascii r.key, r.get x)] }

def glanceRows : List GlanceRow := [
  ⟨"FANS", "STATUS", "REDUNDANCY", HealthGlance.fans,
    fun x y => { y with fans := orKeep x.fans y.fans }⟩,
  ⟨"FANS", "REDUNDANCY", "STATUS", HealthGlance.fanRedundancy,
    fun x y => { y with fanRedundancy := orKeep x.fanRedundancy y.fanRedundancy }⟩,
  ⟨"TEMPERATURE", "STATUS", "REDUNDANCY", HealthGlance.temperature,
    fun x y => { y with temperature := orKeep x.temperature y.temperature }⟩,
  ⟨"VRM", "STATUS", "REDUNDANCY", HealthGlance.vrm,
    fun x y => { y with vrm := orKeep x.vrm y.vrm }⟩,
  ⟨"POWER_SUPPLIES", "STATUS", "REDUNDANCY", HealthGlance.supplies,
    fun x y => { y with supplies := orKeep x.supplies y.supplies }⟩,
  ⟨"POWER_SUPPLIES", "REDUNDANCY", "STATUS", HealthGlance.supplyRedundancy,
    fun x y => { y with supplyRedundancy := orKeep x.supplyRedundancy y.supplyRedundancy }⟩,
  ⟨"DRIVE", "STATUS", "REDUNDANCY", HealthGlance.drives,
    fun x y => { y with drives := orKeep x.drives y.drives }⟩]

def glanceFields : List (Field HealthGlance XmlTag) := glanceRows.map GlanceRow.field

def glanceKnown (t : XmlTag) : Bool :=
  t.closing = false ∧ t.name ∈ glanceRows.map fun r => ascii r.name

def glanceStep (g : HealthGlance) (t : XmlTag) : HealthGlance :=
  if t.closing then g else (glanceTag { glance := g } t).glance

/-- The overview with its first `k` values only. -/
def glanceStart (x : HealthGlance) (k : Nat) : HealthGlance :=
  copyAll (glanceFields.take k) x {}

theorem orKeep_nil (v : List UInt8) : orKeep v [] = v := by
  rw [orKeep]
  split_ifs with h
  · rfl
  · exact (not_not.mp h).symm

theorem glance_copied (x : HealthGlance) : copyAll glanceFields x {} = x := by
  simp only [copyAll, glanceFields, glanceRows, GlanceRow.field, List.map_cons, List.map_nil,
    List.foldl_cons, List.foldl_nil, orKeep_nil]

theorem glance_carries {x : HealthGlance} : ∀ f ∈ glanceFields, ∀ t, f.Carries x t →
    ∀ y, glanceStep y t = f.copy x y := by
  intro f hf t ht y
  obtain ⟨r, hr, rfl⟩ := List.mem_map.mp hf
  obtain ⟨hc, hn, hv, ho⟩ := ht
  simp only [glanceRows, List.mem_cons, List.not_mem_nil, or_false] at hr
  rcases hr with rfl | rfl | rfl | rfl | rfl | rfl | rfl
  all_goals simp +decide [glanceStep, glanceTag, GlanceRow.field, orKeep, *]

theorem glance_passes (t : XmlTag) (ht : glanceKnown t = false) (g : HealthGlance) :
    glanceStep g t = g := by
  cases hc : t.closing with
  | true => rw [glanceStep, if_pos hc]
  | false =>
      simp only [glanceKnown, glanceRows, hc, true_and, decide_eq_false_iff_not, List.map_cons,
        List.map_nil, List.mem_cons, List.not_mem_nil, or_false, not_or] at ht
      simp [glanceStep, glanceTag, hc, ht]

theorem glance_whole {x : HealthGlance} {ts : List XmlTag}
    (h : List.Forall₂ (fun f t => f.Carries x t) glanceFields (ts.filter glanceKnown)) :
    ts.foldl glanceStep {} = x := by
  have hfold := foldl_copy id h glance_carries {}
  rw [foldl_known glance_passes]
  exact hfold.trans (glance_copied x)

theorem glance_begun {x : HealthGlance} {p ts : List XmlTag}
    (h : List.Forall₂ (fun f t => f.Carries x t) glanceFields (ts.filter glanceKnown))
    (hp : p <+: ts) : ∃ k, p.foldl glanceStep {} = glanceStart x k := by
  rw [foldl_known glance_passes]
  exact foldl_start id h glance_carries (hp.filter glanceKnown) {}

/-! ### One section -/

/-- The part of the data that a section fills; outside of them it is `valid`. -/
def Section.Same (s : Section) (g h : HealthData) : Prop :=
  match s with
  | .none => g.valid = h.valid
  | .fans => g.fans = h.fans
  | .temps => g.temps = h.temps
  | .supplies => g.supplies = h.supplies
  | .drives => g.drives = h.drives
  | .glance => g.glance = h.glance

/-- The first records of a section; only the last may lack fields. -/
def Section.Partly (s : Section) (h g : HealthData) : Prop :=
  match s with
  | .none => False
  | .fans => fanTable.shape.Partly h.fans g.fans
  | .temps => tempTable.shape.Partly h.temps g.temps
  | .supplies => supplyTable.shape.Partly h.supplies g.supplies
  | .drives => driveTable.shape.Partly h.drives g.drives
  | .glance => ∃ k, g.glance = glanceStart h.glance k

/-- What stands in a section of a report of `h`.  The tags that are read are those of the records. -/
def Section.Body (s : Section) (h : HealthData) (ts : List XmlTag) : Prop :=
  match s with
  | .none => False
  | .fans => fanTable.shape.Writes h.fans (ts.filter fanTable.shape.known)
  | .temps => tempTable.shape.Writes h.temps (ts.filter tempTable.shape.known)
  | .supplies => supplyTable.shape.Writes h.supplies (ts.filter supplyTable.shape.known)
  | .drives => driveTable.shape.Writes h.drives (ts.filter driveTable.shape.known)
  | .glance =>
      List.Forall₂ (fun f t => f.Carries h.glance t) glanceFields (ts.filter glanceKnown)

variable {g h : HealthData} {s : Section} {t : XmlTag} {p ts : List XmlTag}

theorem healthStep_closing (hc : t.closing = true) (hs : Stays t) (st : HealthData × Section) :
    healthStep st t = st := by
  obtain ⟨hsec, hname⟩ := hs hc
  simp only [healthStep, if_pos hc, if_neg hname, hsec, ne_eq, not_true_eq_false, if_false]

/-- The tags of a section change the part that is filled. -/
theorem foldl_stays {β : Type} (put : β → HealthData) {step : β → XmlTag → β}
    (hclosing : ∀ b t, t.closing = true → step b t = b)
    (hstep : ∀ b t, t.closing = false → healthStep (put b, s) t = (put (step b t), s))
    (hts : ∀ t ∈ ts, Stays t) (b : β) :
    ts.foldl healthStep (put b, s) = (put (ts.foldl step b), s) := by
  induction ts generalizing b with
  | nil => rfl
  | cons t ts ih =>
      have hrest := ih fun t ht => hts t (List.mem_cons_of_mem _ ht)
      rw [List.foldl_cons, List.foldl_cons]
      cases hc : t.closing with
      | true =>
          rw [healthStep_closing hc (hts t List.mem_cons_self), hclosing b t hc, hrest]
      | false => rw [hstep b t hc, hrest]

theorem foldl_fans (hts : ∀ t ∈ ts, Stays t) (g : HealthData) :
    ts.foldl healthStep (g, .fans) = ({ g with fans := ts.foldl fanTable.step g.fans }, .fans) := by
  refine foldl_stays (fun xs => { g with fans := xs }) fanTable.step_closing ?_ hts g.fans
  intro xs t hc
  simp only [healthStep, hc, fanTag_eq _ hc, Bool.false_eq_true, if_false]

theorem foldl_temps (hts : ∀ t ∈ ts, Stays t) (g : HealthData) :
    ts.foldl healthStep (g, .temps) =
      ({ g with temps := ts.foldl tempTable.step g.temps }, .temps) := by
  refine foldl_stays (fun xs => { g with temps := xs }) tempTable.step_closing ?_ hts g.temps
  intro xs t hc
  simp only [healthStep, hc, tempTag_eq _ hc, Bool.false_eq_true, if_false]

theorem foldl_supplies (hts : ∀ t ∈ ts, Stays t) (g : HealthData) :
    ts.foldl healthStep (g, .supplies) =
      ({ g with supplies := ts.foldl supplyTable.step g.supplies }, .supplies) := by
  refine foldl_stays (fun xs => { g with supplies := xs }) supplyTable.step_closing ?_ hts
    g.supplies
  intro xs t hc
  simp only [healthStep, hc, supplyTag_eq _ hc, Bool.false_eq_true, if_false]

theorem foldl_drives (hts : ∀ t ∈ ts, Stays t) (g : HealthData) :
    ts.foldl healthStep (g, .drives) =
      ({ g with drives := ts.foldl driveTable.step g.drives }, .drives) := by
  refine foldl_stays (fun xs => { g with drives := xs }) driveTable.step_closing ?_ hts g.drives
  intro xs t hc
  simp only [healthStep, hc, driveTag_eq _ hc, Bool.false_eq_true, if_false]

theorem foldl_glance (hts : ∀ t ∈ ts, Stays t) (g : HealthData) :
    ts.foldl healthStep (g, .glance) =
      ({ g with glance := ts.foldl glanceStep g.glance }, .glance) := by
  refine foldl_stays (fun v => { g with glance := v }) (fun v t hc => if_pos hc) ?_ hts g.glance
  intro v t hc
  simp only [healthStep, hc, glanceTag, Bool.false_eq_true, if_false]

/-- The records of a section that was empty. -/
theorem Table.run (T : Table α) {xs ys : List α}
    (hbody : T.shape.Writes xs (ts.filter T.shape.known)) (hys : ys = []) (hp : p <+: ts) :
    T.shape.Partly xs (p.foldl T.step ys) ∧ (p = ts → p.foldl T.step ys = xs) := by
  subst hys
  refine ⟨T.reads.begun hbody hp, ?_⟩
  rintro rfl
  exact T.reads.whole hbody

theorem glance_run {x y : HealthGlance}
    (hbody : List.Forall₂ (fun f t => f.Carries x t) glanceFields (ts.filter glanceKnown))
    (hy : y = {}) (hp : p <+: ts) :
    (∃ k, p.foldl glanceStep y = glanceStart x k) ∧ (p = ts → p.foldl glanceStep y = x) := by
  subst hy
  refine ⟨glance_begun hbody hp, ?_⟩
  rintro rfl
  exact glance_whole hbody

/-- **A section**, or the start of one: the other parts of the data are left alone. -/
theorem section_run (hbody : s.Body h ts) (hts : ∀ t ∈ ts, Stays t) (hg : s.Same g {})
    (hp : p <+: ts) :
    ∃ g', p.foldl healthStep (g, s) = (g', s) ∧ (∀ r ≠ s, r.Same g' g) ∧ s.Partly h g' ∧
      (p = ts → s.Same g' h) := by
  have hstays : ∀ t ∈ p, Stays t := fun t ht => hts t (hp.subset ht)
  cases s with
  | none => exact hbody.elim
  | fans =>
      refine ⟨_, foldl_fans hstays g, ?_, fanTable.run hbody hg hp⟩
      intro r hr
      cases r <;> first | rfl | exact absurd rfl hr
  | temps =>
      refine ⟨_, foldl_temps hstays g, ?_, tempTable.run hbody hg hp⟩
      intro r hr
      cases r <;> first | rfl | exact absurd rfl hr
  | supplies =>
      refine ⟨_, foldl_supplies hstays g, ?_, supplyTable.run hbody hg hp⟩
      intro r hr
      cases r <;> first | rfl | exact absurd rfl hr
  | drives =>
      refine ⟨_, foldl_drives hstays g, ?_, driveTable.run hbody hg hp⟩
      intro r hr
      cases r <;> first | rfl | exact absurd rfl hr
  | glance =>
      refine ⟨_, foldl_glance hstays g, ?_, glance_run hbody hg hp⟩
      intro r hr
      cases r <;> first | rfl | exact absurd rfl hr

end Ilo2.Ribcl
