import Ilo2.Ribcl.Section

/-!
# Health reports are read back

A report of the firmware: RIBCL documents, and in one of them the five sections, in any order.
Between the tags that are read there may be any that are not.

* `Blocks.whole`, `Blocks.begun` - one section after the other, and what is there if the tags end.
* `Report.simple` - everything that can be quoted has a report, with the sections in any order.
* `report_read` - **a report is read as the data it was written for**; of a part of it, the first
  records are kept.
-/

namespace Ilo2.Ribcl

open Text Strtol Records
open Tls (ascii)

variable {g h : HealthData} {s : Section} {t : XmlTag} {p ts : List XmlTag}

/-! ### One section after the other -/

/-- A tag that is met outside of the sections, and opens none. -/
def Outside (t : XmlTag) : Prop :=
  if t.closing then t.name ≠ ascii "GET_EMBEDDED_HEALTH_DATA" else sectionOf t.name = .none

/-- The tags of a report of `h`, with its sections in the order `order`. -/
inductive Blocks (h : HealthData) : List Section → List XmlTag → Prop
  | done {ts : List XmlTag} : (∀ t ∈ ts, Outside t) → Blocks h [] ts
  | block {s : Section} {order : List Section} {gap body rest : List XmlTag} {t c : XmlTag} :
      (∀ t ∈ gap, Outside t) → t.closing = false → sectionOf t.name = s →
      s.Body h body → (∀ t ∈ body, Stays t) → c.closing = true → sectionOf c.name = s →
      Blocks h order rest → Blocks h (s :: order) (gap ++ t :: (body ++ c :: rest))

theorem healthStep_outside (ht : Outside t) (g : HealthData) :
    healthStep (g, .none) t = (g, .none) := by
  rw [Outside] at ht
  cases hc : t.closing with
  | true =>
      rw [if_pos hc] at ht
      simp only [healthStep, if_pos hc, if_neg ht, ite_self]
  | false =>
      rw [hc, if_neg (by decide)] at ht
      simp only [healthStep, hc, Bool.false_eq_true, if_false, ht]

theorem foldl_outside (hts : ∀ t ∈ ts, Outside t) (g : HealthData) :
    ts.foldl healthStep (g, .none) = (g, .none) := by
  induction ts with
  | nil => rfl
  | cons t ts ih =>
      rw [List.foldl_cons, healthStep_outside (hts t List.mem_cons_self),
        ih fun t ht => hts t (List.mem_cons_of_mem _ ht)]

theorem healthStep_open (hc : t.closing = false) (hs : sectionOf t.name = s) (g : HealthData) :
    healthStep (g, .none) t = (g, s) := by
  simp only [healthStep, hc, Bool.false_eq_true, if_false, hs]

theorem sectionOf_data : sectionOf (ascii "GET_EMBEDDED_HEALTH_DATA") = .none := by decide

theorem healthStep_close (hc : t.closing = true) (hs : sectionOf t.name ≠ .none)
    (g : HealthData) (r : Section) : healthStep (g, r) t = (g, .none) := by
  have hname : t.name ≠ ascii "GET_EMBEDDED_HEALTH_DATA" := by
    intro heq
    exact hs (heq ▸ sectionOf_data)
  simp only [healthStep, if_pos hc, if_neg hname, if_pos hs]

theorem Section.Body.ne_none (hbody : s.Body h ts) : s ≠ .none := by
  rintro rfl
  exact hbody

theorem Section.Same.trans {a b c : HealthData} (h₁ : s.Same a b) (h₂ : s.Same b c) :
    s.Same a c := by
  cases s <;> exact Eq.trans h₁ h₂

theorem Section.Partly.congr {g' : HealthData} (hp : s.Partly h g) (hs : s.Same g' g) :
    s.Partly h g' := by
  cases s with
  | none => exact hp
  | fans =>
      rw [Section.Partly, show g'.fans = g.fans from hs]
      exact hp
  | temps =>
      rw [Section.Partly, show g'.temps = g.temps from hs]
      exact hp
  | supplies =>
      rw [Section.Partly, show g'.supplies = g.supplies from hs]
      exact hp
  | drives =>
      rw [Section.Partly, show g'.drives = g.drives from hs]
      exact hp
  | glance =>
      rw [Section.Partly, show g'.glance = g.glance from hs]
      exact hp

/-- A section that has not been opened. -/
theorem Section.Partly.unopened (hs : s ≠ .none) (hg : s.Same g {}) : s.Partly h g := by
  cases s with
  | none => exact absurd rfl hs
  | fans => exact Or.inl hg
  | temps => exact Or.inl hg
  | supplies => exact Or.inl hg
  | drives => exact Or.inl hg
  | glance => exact ⟨0, hg⟩

theorem Blocks.ne_none {order : List Section} (hb : Blocks h order ts) : ∀ s ∈ order, s ≠ .none := by
  induction hb with
  | done _ => exact fun s hs => absurd hs List.not_mem_nil
  | block _ _ _ hbody _ _ _ _ ih =>
      intro r hr
      rcases List.mem_cons.mp hr with rfl | hr
      · exact hbody.ne_none
      · exact ih r hr

/-- The sections that follow are still empty. -/
theorem same_rest {order : List Section} {g₁ : HealthData} (hnot : s ∉ order)
    (hg : ∀ r ∈ s :: order, r.Same g {}) (hother : ∀ r ≠ s, r.Same g₁ g) :
    ∀ r ∈ order, r.Same g₁ {} := by
  intro r hr
  have hne : r ≠ s := fun heq => hnot (heq ▸ hr)
  exact (hother r hne).trans (hg r (List.mem_cons_of_mem s hr))

/-- **The sections of a report**, one after the other. -/
theorem Blocks.whole {order : List Section} (hb : Blocks h order ts) (hnodup : order.Nodup)
    (hg : ∀ s ∈ order, s.Same g {}) :
    ∃ g', ts.foldl healthStep (g, .none) = (g', .none) ∧ (∀ s ∈ order, s.Same g' h) ∧
      ∀ s ∉ order, s.Same g' g := by
  induction hb generalizing g with
  | done hts => exact ⟨g, foldl_outside hts g, fun s hs => absurd hs List.not_mem_nil,
      fun s _ => by cases s <;> rfl⟩
  | @block s order gap body rest t c hgap hc hs hbody hts hcc hcs _ ih =>
      obtain ⟨hnot, hnodup⟩ := List.nodup_cons.mp hnodup
      obtain ⟨g₁, hrun, hother, -, hsame⟩ :=
        section_run hbody hts (hg s List.mem_cons_self) List.prefix_rfl
      have hg₁ := same_rest hnot hg hother
      obtain ⟨g₂, hrest, hin, hout⟩ := ih hnodup hg₁
      refine ⟨g₂, ?_, ?_, ?_⟩
      · rw [List.foldl_append, foldl_outside hgap, List.foldl_cons, healthStep_open hc hs,
          List.foldl_append, hrun, List.foldl_cons, healthStep_close hcc (hcs ▸ hbody.ne_none), hrest]
      · intro r hr
        rcases List.mem_cons.mp hr with rfl | hr
        · exact (hout r hnot).trans (hsame rfl)
        · exact hin r hr
      · intro r hr
        rw [List.mem_cons, not_or] at hr
        exact (hout r hr.2).trans (hother r hr.1)

/-- The sections in `order` have their first records, and the other parts are those of `g`. -/
def Begun (h : HealthData) (order : List Section) (g g' : HealthData) : Prop :=
  (∀ s ∈ order, s.Partly h g') ∧ ∀ s ∉ order, s.Same g' g

theorem Begun.unopened {order : List Section} (hne : ∀ s ∈ order, s ≠ .none)
    (hg : ∀ s ∈ order, s.Same g {}) : Begun h order g g :=
  ⟨fun s hs => .unopened (hne s hs) (hg s hs), fun s _ => by cases s <;> rfl⟩

/-- **If the tags end early**, every section has its first records. -/
theorem Blocks.begun {order : List Section} (hb : Blocks h order ts) (hnodup : order.Nodup)
    (hg : ∀ s ∈ order, s.Same g {}) (hp : p <+: ts) :
    Begun h order g (p.foldl healthStep (g, .none)).1 := by
  induction hb generalizing g p with
  | done hts =>
      rw [foldl_outside fun t ht => hts t (hp.subset ht)]
      exact .unopened (fun s hs => absurd hs List.not_mem_nil) hg
  | @block s order gap body rest t c hgap hc hs hbody hts hcc hcs hb ih =>
      obtain ⟨hnot, hnodup⟩ := List.nodup_cons.mp hnodup
      have hne := Blocks.ne_none (.block hgap hc hs hbody hts hcc hcs hb)
      rcases prefix_split hp with hgp | ⟨q, rfl, hq⟩
      · rw [foldl_outside fun t ht => hgap t (hgp.subset ht)]
        exact .unopened hne hg
      rw [List.foldl_append, foldl_outside hgap]
      rcases List.prefix_cons_iff.mp hq with rfl | ⟨q, rfl, hin⟩
      · exact .unopened hne hg
      rw [List.foldl_cons, healthStep_open hc hs]
      have hopened : ∀ q, q <+: body → Begun h (s :: order) g (q.foldl healthStep (g, s)).1 := by
        intro q hq
        obtain ⟨g₁, hrun, hother, hpart, -⟩ := section_run hbody hts (hg s List.mem_cons_self) hq
        rw [hrun]
        refine ⟨?_, fun r hr => hother r (List.ne_of_not_mem_cons hr)⟩
        intro r hr
        by_cases heq : r = s
        · exact heq ▸ hpart
        · exact .unopened (hne r hr) ((hother r heq).trans (hg r hr))
      rcases prefix_split hin with hbp | ⟨q, rfl, hclose⟩
      · exact hopened q hbp
      rcases List.prefix_cons_iff.mp hclose with rfl | ⟨q, rfl, hnext⟩
      · rw [List.append_nil]
        exact hopened body List.prefix_rfl
      -- the section is closed, and the next one may begin
      obtain ⟨g₁, hrun, hother, hpart, -⟩ :=
        section_run hbody hts (hg s List.mem_cons_self) List.prefix_rfl
      have hg₁ := same_rest hnot hg hother
      rw [List.foldl_append, hrun, List.foldl_cons, healthStep_close hcc (hcs ▸ hbody.ne_none)]
      obtain ⟨hin, hout⟩ := ih hnodup hg₁ hnext
      refine ⟨?_, ?_⟩
      · intro r hr
        rcases List.mem_cons.mp hr with rfl | hr
        · exact hpart.congr (hout r hnot)
        · exact hin r hr
      · intro r hr
        rw [List.mem_cons, not_or] at hr
        exact (hout r hr.2).trans (hother r hr.1)

/-! ### Reports -/

/-- A report of `h`: the tags up to the end of the data, the one that ends it, and what comes
behind. -/
structure Report (h : HealthData) where
  order : List Section
  each : order.Perm [.fans, .temps, .supplies, .drives, .glance]
  front : List Item
  blocks : Blocks h order (tagsOf front)
  close : TagText
  closing : close.closing = true
  name : close.name = ascii "GET_EMBEDDED_HEALTH_DATA"
  back : List Item
  outside : ∀ t ∈ tagsOf back, Outside t

/-- The text up to the end of the data. -/
def Report.data (r : Report h) : List UInt8 := r.front.flatMap Item.write ++ r.close.write

def Report.text (r : Report h) : List UInt8 := r.data ++ r.back.flatMap Item.write

theorem ne_none_of_perm {order : List Section}
    (h : order.Perm [.fans, .temps, .supplies, .drives, .glance]) (hs : s ∈ order) : s ≠ .none := by
  rw [h.mem_iff] at hs
  rintro rfl
  exact absurd hs (by decide)

theorem Report.nodup (r : Report h) : r.order.Nodup := r.each.symm.nodup (by decide)

theorem Report.mem_order (r : Report h) : s ∈ r.order ↔ s ≠ .none := by
  rw [r.each.mem_iff]
  cases s <;> decide

theorem Report.tags_text (r : Report h) :
    tags r.text = tagsOf r.front ++ r.close.tag :: tagsOf r.back := by
  have htext : r.text =
      (r.front ++ .tag r.close :: r.back).flatMap Item.write ++ [] := by
    rw [Report.text, Report.data, List.flatMap_append, List.flatMap_cons, List.append_nil,
      List.append_assoc]
    rfl
  rw [htext, tags_write _ List.not_mem_nil, tagsOf, List.filterMap_append]
  rfl

/-- **All of a report.** -/
theorem Report.whole (r : Report h) : parseEmbeddedHealth r.text = { h with valid := true } := by
  obtain ⟨g, hrun, hin, hout⟩ := r.blocks.whole r.nodup (g := {}) fun s _ => by cases s <;> rfl
  have hvalid : g.valid = false := hout .none fun hmem => r.mem_order.mp hmem rfl
  have hclose : healthStep (g, .none) r.close.tag = ({ g with valid := true }, .none) := by
    have hc : r.close.tag.closing = true := r.closing
    have hn : r.close.tag.name = ascii "GET_EMBEDDED_HEALTH_DATA" := r.name
    simp only [healthStep, if_pos hc, if_pos hn, ite_self]
  have hfans : g.fans = h.fans := hin .fans (r.mem_order.mpr (by decide))
  have htemps : g.temps = h.temps := hin .temps (r.mem_order.mpr (by decide))
  have hsupplies : g.supplies = h.supplies := hin .supplies (r.mem_order.mpr (by decide))
  have hdrives : g.drives = h.drives := hin .drives (r.mem_order.mpr (by decide))
  have hglance : g.glance = h.glance := hin .glance (r.mem_order.mpr (by decide))
  rw [parseEmbeddedHealth, scanTags_eq, r.tags_text, List.foldl_append, hrun, List.foldl_cons,
    hclose, foldl_outside r.outside, hfans, htemps, hsupplies, hdrives, hglance]

/-- The tags of a report that is cut are the first of those of the data. -/
theorem Report.tags_cut (r : Report h) {p : List UInt8} (hp : p <+: r.text)
    (hlen : p.length < r.data.length) : tags p <+: tagsOf r.front := by
  have hcut : p <+: r.front.flatMap Item.write ++ 0x3C :: r.close.body := by
    refine List.prefix_of_prefix_length_le hp ⟨[0x3E] ++ r.back.flatMap Item.write, ?_⟩ ?_
    · rw [Report.text, Report.data, TagText.write]
      simp only [List.append_assoc, List.cons_append, List.nil_append]
    · rw [Report.data, TagText.write] at hlen
      simp only [List.length_append, List.length_cons, List.length_nil] at hlen ⊢
      omega
  obtain ⟨t, ht⟩ := hcut
  have hbody : 0x3E ∉ 0x3C :: r.close.body := by
    rw [List.mem_cons, not_or]
    exact ⟨by decide, r.close.body_inside⟩
  rw [← tags_write r.front hbody, ← ht]
  exact prefix_tags p t

/-! ### A way to write a report -/

/-- The strings of `h` have neither `"` nor `>` in them, and the numbers are -1 or those of an
`int` that is not negative. -/
structure Able (h : HealthData) : Prop where
  fans : ∀ x ∈ h.fans, fanTable.Able x
  temps : ∀ x ∈ h.temps, tempTable.Able x
  supplies : ∀ x ∈ h.supplies, supplyTable.Able x
  drives : ∀ x ∈ h.drives, driveTable.Able x
  glance : ∀ r ∈ glanceRows, Plain (r.get h.glance)

/-- The name of a section. -/
def Section.name : Section → List UInt8
  | .none => []
  | .fans => ascii "FANS"
  | .temps => ascii "TEMPERATURE"
  | .supplies => ascii "POWER_SUPPLIES"
  | .drives => ascii "DRIVES"
  | .glance => ascii "HEALTH_AT_A_GLANCE"

/-- The tags between the two of a section. -/
def Section.content (h : HealthData) : Section → List XmlTag
  | .none => []
  | .fans => h.fans.flatMap fanTable.record
  | .temps => h.temps.flatMap tempTable.record
  | .supplies => h.supplies.flatMap supplyTable.record
  | .drives => h.drives.flatMap driveTable.record
  | .glance => glanceRows.map fun r => r.tag h.glance

def Section.block (h : HealthData) (s : Section) : List XmlTag :=
  { name := s.name } :: (s.content h ++ [{ name := s.name, closing := true }])

theorem sectionOf_name (hs : s ≠ .none) : sectionOf s.name = s := by
  cases s with
  | none => exact absurd rfl hs
  | fans => decide
  | temps => decide
  | supplies => decide
  | drives => decide
  | glance => decide

theorem Section.body_content (h : HealthData) (hable : Able h) (hs : s ≠ .none) :
    s.Body h (s.content h) := by
  cases s with
  | none => exact hs rfl
  | fans =>
      exact fanTable.writes_records hable.fans
  | temps =>
      exact tempTable.writes_records hable.temps
  | supplies =>
      exact supplyTable.writes_records hable.supplies
  | drives =>
      exact driveTable.writes_records hable.drives
  | glance =>
      have hknown : (glanceRows.map fun r => r.tag h.glance).filter glanceKnown =
          glanceRows.map fun r => r.tag h.glance := by
        rw [List.filter_eq_self]
        intro t ht
        obtain ⟨r, hr, rfl⟩ := List.mem_map.mp ht
        exact decide_eq_true ⟨rfl, List.mem_map.mpr ⟨r, hr, rfl⟩⟩
      rw [Section.Body, Section.content, hknown, glanceFields, List.forall₂_map_left_iff,
        List.forall₂_map_right_iff, List.forall₂_same]
      intro r hr
      refine ⟨rfl, rfl, value_single _ _ _, value_other _ _ ?_⟩
      simp only [glanceRows, List.mem_cons, List.not_mem_nil, or_false] at hr
      rcases hr with rfl | rfl | rfl | rfl | rfl | rfl | rfl
      all_goals decide

theorem Section.content_fits (hable : Able h) :
    ∀ t ∈ s.content h, Stays t ∧ Writable t := by
  cases s with
  | none => nofun
  | fans => exact fanTable.record_fits hable.fans
  | temps => exact tempTable.record_fits hable.temps
  | supplies => exact supplyTable.record_fits hable.supplies
  | drives => exact driveTable.record_fits hable.drives
  | glance =>
      intro t ht
      obtain ⟨r, hr, rfl⟩ := List.mem_map.mp ht
      have hnames : ∀ r ∈ glanceRows, IsName (ascii r.name) ∧ IsName (ascii r.key) := by decide +kernel
      refine ⟨nofun, (hnames r hr).1, ?_⟩
      intro a ha
      rw [List.mem_singleton.mp ha]
      exact ⟨(hnames r hr).2, hable.glance r hr⟩

theorem blocks_simple (hable : Able h) {order : List Section} (hne : ∀ s ∈ order, s ≠ .none) :
    Blocks h order (order.flatMap (Section.block h)) := by
  induction order with
  | nil => exact .done nofun
  | cons s order ih =>
      have hs := hne s List.mem_cons_self
      have hrest := ih fun r hr => hne r (List.mem_cons_of_mem s hr)
      have hstays : ∀ t ∈ s.content h, Stays t := fun t ht => (Section.content_fits hable t ht).1
      have hblock := @Blocks.block h s order [] (s.content h) _ { name := s.name }
        { name := s.name, closing := true } nofun rfl (sectionOf_name hs)
        (s.body_content h hable hs) hstays rfl (sectionOf_name hs) hrest
      rw [List.flatMap_cons, Section.block, List.cons_append, List.append_assoc]
      exact hblock

theorem Blocks.outside {order : List Section} (hb : Blocks h order ts) (ht : Outside t) :
    Blocks h order (t :: ts) := by
  cases hb with
  | done hts => exact .done (List.forall_mem_cons.mpr ⟨ht, hts⟩)
  | @block s order gap body rest u c hgap hc hs hbody hts hcc hcs hrest =>
      exact @Blocks.block h s order (t :: gap) body rest u c (List.forall_mem_cons.mpr ⟨ht, hgap⟩)
        hc hs hbody hts hcc hcs hrest

/-- One of the two tags around the data. -/
def dataTag (closing : Bool) : XmlTag :=
  { name := ascii "GET_EMBEDDED_HEALTH_DATA", closing := closing }

theorem isName_section (hs : s ≠ .none) : IsName s.name := by
  cases s with
  | none => exact absurd rfl hs
  | fans => decide +kernel
  | temps => decide +kernel
  | supplies => decide +kernel
  | drives => decide +kernel
  | glance => decide +kernel

theorem Section.writable_block (hable : Able h) (hs : s ≠ .none) :
    ∀ t ∈ s.block h, Writable t := by
  intro t ht
  rw [Section.block, List.mem_cons, List.mem_append, List.mem_singleton] at ht
  rcases ht with rfl | ht | rfl
  · exact writable_bare (isName_section hs) rfl
  · exact (Section.content_fits hable t ht).2
  · exact writable_bare (isName_section hs) rfl

/-- **A report** without blanks, with the sections in a given order. -/
def Report.simple (h : HealthData) (hable : Able h) (order : List Section)
    (heach : order.Perm [.fans, .temps, .supplies, .drives, .glance]) : Report h where
  order := order
  each := heach
  front := simpleItems (dataTag false :: order.flatMap (Section.block h)) (by
    rw [List.forall_mem_cons]
    refine ⟨writable_bare (by decide +kernel) rfl, ?_⟩
    intro t ht
    obtain ⟨s, hs, ht⟩ := List.mem_flatMap.mp ht
    exact Section.writable_block hable (ne_none_of_perm heach hs) t ht)
  blocks := by
    rw [tagsOf_simple]
    exact (blocks_simple hable fun s hs => ne_none_of_perm heach hs).outside sectionOf_data
  close := TagText.simple (dataTag true) (writable_bare (by decide +kernel) rfl)
  closing := rfl
  name := rfl
  back := []
  outside := nofun

/-! ### Reports are read back -/

/-- **A health report** is read as the data it was written for.  If it is cut before the data ends,
it is not valid, and of each list there are the first records, of which only the last may lack
fields. -/
theorem report_read (h : HealthData) (r : Report h) :
    parseEmbeddedHealth r.text = { h with valid := true } ∧
      ∀ p, p <+: r.text → p.length < r.data.length →
        (parseEmbeddedHealth p).valid = false ∧
          fanTable.shape.Partly h.fans (parseEmbeddedHealth p).fans ∧
          tempTable.shape.Partly h.temps (parseEmbeddedHealth p).temps ∧
          supplyTable.shape.Partly h.supplies (parseEmbeddedHealth p).supplies ∧
          driveTable.shape.Partly h.drives (parseEmbeddedHealth p).drives ∧
          ∃ k, (parseEmbeddedHealth p).glance = glanceStart h.glance k := by
  refine ⟨r.whole, ?_⟩
  intro p hp hlen
  have hbegun : Begun h r.order {} (parseEmbeddedHealth p) := by
    rw [parseEmbeddedHealth, scanTags_eq]
    exact r.blocks.begun r.nodup (fun s _ => by cases s <;> rfl) (r.tags_cut hp hlen)
  obtain ⟨hin, hout⟩ := hbegun
  refine ⟨hout .none fun hmem => r.mem_order.mp hmem rfl, ?_, ?_, ?_, ?_, ?_⟩
  · exact hin .fans (r.mem_order.mpr (by decide))
  · exact hin .temps (r.mem_order.mpr (by decide))
  · exact hin .supplies (r.mem_order.mpr (by decide))
  · exact hin .drives (r.mem_order.mpr (by decide))
  · exact hin .glance (r.mem_order.mpr (by decide))

def sampleData : HealthData where
  fans := [{ label := ascii "Fan 1", zone := ascii "System", status := ascii "Ok", speedPct := 13 }]
  temps := [{ label := ascii "Temp 13", location := ascii "CPU 2", status := ascii "n/a"
              caution := 70 }]
  drives := [{ bay := 1, product := ascii "N/A", status := ascii "Not Installed" }]
  glance := { fans := ascii "Ok", fanRedundancy := ascii "Fully Redundant" }

theorem able_sampleData : Able sampleData where
  fans := by simp +decide [Table.Able, fanTable, Row.text, Row.number, sampleData, Plain]
  temps := by simp +decide [Table.Able, tempTable, Row.text, Row.number, sampleData, Plain]
  supplies := nofun
  drives := by simp +decide [Table.Able, driveTable, Row.text, Row.number, sampleData, Plain]
  glance := by simp +decide [glanceRows, sampleData, Plain]

def sampleReport : Report sampleData :=
  .simple sampleData able_sampleData [.glance, .fans, .temps, .drives, .supplies] (by decide)

theorem report_read_sample :
    parseEmbeddedHealth sampleReport.text = { sampleData with valid := true } ∧
      (parseEmbeddedHealth (sampleReport.text.take 100)).valid = false :=
  ⟨(report_read sampleData sampleReport).1,
    ((report_read sampleData sampleReport).2 _ (List.take_prefix 100 _) (by decide +kernel)).1⟩

end Ilo2.Ribcl
