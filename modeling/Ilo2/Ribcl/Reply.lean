import Ilo2.Lib.Strtol
import Ilo2.Lib.Text
import Ilo2.Ribcl.Command

/-!
# RIBCL replies

`ribcl.hpp`: the scan for attributes, and the three parsers that use it.

* `prefix_attrValues` - what the scan finds in a text is what it finds first in a longer one.
-/

namespace Ilo2.Ribcl

open Text Strtol
open Tls (ascii)

/-! ### The attribute scan -/

/-- The blanks of `ribcl_attr_values`. -/
def isSpace (c : UInt8) : Bool := c = 0x20 ∨ c = 0x09 ∨ c = 0x0D ∨ c = 0x0A

def isNameChar (c : UInt8) : Bool :=
  (0x41 ≤ c ∧ c ≤ 0x5A) ∨ (0x61 ≤ c ∧ c ≤ 0x7A) ∨ (0x30 ≤ c ∧ c ≤ 0x39) ∨ c = 0x5F ∨ c = 0x2D

/-- The first index from `i` on that is no blank. -/
def skipSpace (doc : List UInt8) (i : Nat) : Nat :=
  i + ((doc.drop i).takeWhile isSpace).length

/-- `doc[i]` is there, and `f` holds of it. -/
def at? (doc : List UInt8) (i : Nat) (f : UInt8 → Bool) : Bool := (doc[i]?).any f

/-- The loop of `ribcl_attr_values` at `pos`. -/
def attrLoop (doc name : List UInt8) : (rounds pos : Nat) → List (List UInt8)
  | 0, _ => []
  | rounds + 1, pos =>
      match findFrom name doc pos with
      | none => []
      | some start =>
          let pos := start + name.length
          if start > 0 ∧ at? doc (start - 1) isNameChar then attrLoop doc name rounds pos
          else if at? doc pos isNameChar then attrLoop doc name rounds pos
          else
            let i := skipSpace doc pos
            if ¬ at? doc i (· = 0x3D) then attrLoop doc name rounds pos
            else
              let i := skipSpace doc (i + 1)
              match doc[i]? with
              | none => []
              | some q =>
                  if q ≠ 0x22 ∧ q ≠ 0x27 then attrLoop doc name rounds pos
                  else
                    match findFrom [q] doc (i + 1) with
                    | none => []
                    | some close =>
                        (doc.drop (i + 1)).take (close - i - 1) ::
                          attrLoop doc name rounds (close + 1)

/-- `ribcl_attr_values`.  Every round advances, so `doc.length + 1` rounds are enough. -/
def ribclAttrValues (doc name : List UInt8) : List (List UInt8) :=
  attrLoop doc name (doc.length + 1) 0

/-! ### The parsers -/

structure RibclReply where
  raw : List UInt8 := []
  ok : Bool := false
  message : List UInt8 := []
  hostPower : List UInt8 := []
deriving DecidableEq

/-- `ribcl_parse`. -/
def ribclParse (raw : List UInt8) : RibclReply :=
  let statuses := ribclAttrValues raw (ascii "STATUS")
  let messages := ribclAttrValues raw (ascii "MESSAGE")
  { raw := raw
    ok := statuses ≠ [] ∧ ∀ s ∈ statuses, strtoul 0 s = 0
    message := (messages.find? (· ≠ ascii "No error")).getD []
    hostPower := (ribclAttrValues raw (ascii "HOST_POWER")).getLast?.getD [] }

/-- The first element that starts with `tag`, up to its `/>`. -/
def element (tag raw : List UInt8) : Option (List UInt8) :=
  match find tag raw with
  | none => none
  | some start =>
      match findFrom (ascii "/>") raw start with
      | none => none
      | some close => some ((raw.drop start).take (close - start))

/-- The lambda `one` of the parsers. -/
def one (el : List UInt8) (name : String) : List UInt8 :=
  (ribclAttrValues el (ascii name)).headD []

structure VmStatus where
  valid : Bool := false
  vmApplet : List UInt8 := []
  device : List UInt8 := []
  bootOption : List UInt8 := []
  writeProtect : Bool := false
  imageInserted : Bool := false
  imageUrl : List UInt8 := []
deriving DecidableEq

/-- `parse_vm_status`. -/
def parseVmStatus (raw : List UInt8) : VmStatus :=
  match element (ascii "<GET_VM_STATUS") raw with
  | none => {}
  | some el =>
      { vmApplet := one el "VM_APPLET"
        device := one el "DEVICE"
        bootOption := one el "BOOT_OPTION"
        imageUrl := one el "IMAGE_URL"
        writeProtect := one el "WRITE_PROTECT" = ascii "YES"
        imageInserted := one el "IMAGE_INSERTED" = ascii "YES"
        valid := one el "DEVICE" ≠ [] }

structure FwInfo where
  valid : Bool := false
  firmwareVersion : List UInt8 := []
  firmwareDate : List UInt8 := []
  managementProcessor : List UInt8 := []
  licenseType : List UInt8 := []
deriving DecidableEq

/-- `parse_fw_version`. -/
def parseFwVersion (raw : List UInt8) : FwInfo :=
  match element (ascii "<GET_FW_VERSION") raw with
  | none => {}
  | some el =>
      { firmwareVersion := one el "FIRMWARE_VERSION"
        firmwareDate := one el "FIRMWARE_DATE"
        managementProcessor := one el "MANAGEMENT_PROCESSOR"
        licenseType := one el "LICENSE_TYPE"
        valid := one el "FIRMWARE_VERSION" ≠ [] }

/-- `vm_scripting_licensed`. -/
def vmScriptingLicensed (f : FwInfo) : Bool :=
  f.valid && (find (ascii "Advanced") f.licenseType).isSome

/-! ### Longer texts -/

variable {doc name s t : List UInt8} {i pos : Nat}

theorem at?_append {f : UInt8 → Bool} (hi : i < s.length) (t : List UInt8) :
    at? (s ++ t) i f = at? s i f := by
  rw [at?, at?, List.getElem?_append_left hi]

theorem le_skipSpace (s : List UInt8) (i : Nat) : i ≤ skipSpace s i := Nat.le_add_right _ _

theorem takeWhile_append_of_lt {α : Type} {p : α → Bool} {s : List α}
    (h : (s.takeWhile p).length < s.length) (t : List α) :
    (s ++ t).takeWhile p = s.takeWhile p := by
  induction s with
  | nil => exact absurd h (Nat.not_lt_zero _)
  | cons a s ih =>
      rw [List.cons_append, List.takeWhile_cons, List.takeWhile_cons]
      by_cases ha : p a = true
      · rw [if_pos ha, if_pos ha, ih]
        rw [List.takeWhile_cons, if_pos ha] at h
        exact Nat.lt_of_succ_lt_succ h
      · rw [if_neg ha, if_neg ha]

/-- Where the blanks end within the text they end there in every longer one. -/
theorem skipSpace_append (h : skipSpace s i < s.length) (t : List UInt8) :
    skipSpace (s ++ t) i = skipSpace s i := by
  unfold skipSpace at *
  have hi : i ≤ s.length := by omega
  rw [List.drop_append_of_le_length hi, takeWhile_append_of_lt]
  rw [List.length_drop]
  omega

/-- Up to where the blanks end there are only blanks. -/
theorem isSpace_of_lt_skipSpace {j : Nat} (hij : i ≤ j) (hj : j < skipSpace s i) :
    at? s j isSpace = true := by
  unfold skipSpace at hj
  have hlt : j - i < ((s.drop i).takeWhile isSpace).length := by omega
  have hmem := List.all_eq_true.mp List.all_takeWhile _ (List.getElem_mem hlt)
  have hget : s[j]? = some ((s.drop i).takeWhile isSpace)[j - i] := by
    rw [(List.takeWhile_prefix _).getElem hlt, ← List.getElem?_eq_getElem, List.getElem?_drop,
      show i + (j - i) = j by omega]
  rw [at?, hget]
  exact hmem

/-- The name of an attribute. -/
structure IsName (name : List UInt8) : Prop where
  ne : name ≠ []
  chars : ∀ c ∈ name, isNameChar c = true

theorem not_isSpace {c : UInt8} (h : isNameChar c = true) : isSpace c = false := by
  simp only [isNameChar, isSpace, decide_eq_true_eq, decide_eq_false_iff_not, ← UInt8.toNat_inj,
    UInt8.le_iff_toNat_le, UInt8.reduceToNat] at *
  omega

/-- Among blanks there is no character of a name. -/
theorem not_isNameChar {j : Nat} (hij : i ≤ j) (hj : j < skipSpace s i) :
    at? s j isNameChar = false := by
  have hspace := isSpace_of_lt_skipSpace hij hj
  cases hc : s[j]? with
  | none =>
      rw [at?, hc]
      rfl
  | some c =>
      rw [at?, hc, Option.any_some] at hspace ⊢
      by_contra hname
      rw [Bool.not_eq_false] at hname
      rw [not_isSpace hname] at hspace
      cases hspace

/-- After blanks that run to the end there is no attribute. -/
theorem attrLoop_spaces (hname : IsName name) (h : s.length ≤ skipSpace s pos) (rounds : Nat) :
    attrLoop s name rounds pos = [] := by
  cases rounds with
  | zero => rfl
  | succ rounds =>
      have hnone : findFrom name s pos = none := by
        cases hf : findFrom name s pos with
        | none => rfl
        | some k =>
            obtain ⟨hpos, hst, hle⟩ := findFrom_stands hname.ne hf
            obtain ⟨c, more, rfl⟩ := List.exists_cons_of_ne_nil hname.ne
            rw [List.length_cons] at hle
            have hnone := not_isNameChar hpos (show k < skipSpace s pos by omega)
            obtain ⟨t, ht⟩ := hst
            have hget : s[k]? = some c := by
              rw [← List.head?_drop, ← ht]
              rfl
            rw [at?, hget, Option.any_some, hname.chars c List.mem_cons_self] at hnone
            cases hnone
      rw [attrLoop, hnone]

/-- **The scan of a text** finds the first of the values that the scan of a longer text
finds. -/
theorem prefix_attrLoop (hname : IsName name) (t : List UInt8) {m n : Nat} (hmn : m ≤ n)
    (pos : Nat) : attrLoop s name m pos <+: attrLoop (s ++ t) name n pos := by
  induction m generalizing n pos with
  | zero => exact List.nil_prefix
  | succ m ih =>
      obtain ⟨n, rfl⟩ : ∃ k, n = k + 1 := ⟨n - 1, by omega⟩
      have hmn : m ≤ n := Nat.le_of_succ_le_succ hmn
      rw [attrLoop]
      cases hfind : findFrom name s pos with
      | none => exact List.nil_prefix
      | some start =>
          obtain ⟨-, -, hle⟩ := findFrom_stands hname.ne hfind
          have hpos := List.length_pos_iff.mpr hname.ne
          rw [attrLoop, findFrom_append hname.ne hfind]
          dsimp only
          rw [at?_append (by omega)]
          by_cases hbefore : start > 0 ∧ at? s (start - 1) isNameChar = true
          · rw [if_pos hbefore, if_pos hbefore]
            exact ih hmn _
          rw [if_neg hbefore, if_neg hbefore]
          by_cases hend : s.length ≤ skipSpace s (start + name.length)
          · -- the text ends before the attribute's value
            have hnot : at? s (start + name.length) isNameChar = false := by
              rcases Nat.lt_or_ge (start + name.length) s.length with hlt | hge
              · exact not_isNameChar (Nat.le_refl _) (Nat.lt_of_lt_of_le hlt hend)
              · rw [at?, List.getElem?_eq_none hge]
                rfl
            have heq : at? s (skipSpace s (start + name.length)) (· = 0x3D) = false := by
              rw [at?, List.getElem?_eq_none hend]
              rfl
            rw [if_neg (by rw [hnot]; nofun), if_pos (by rw [heq]; nofun),
              attrLoop_spaces hname hend]
            exact List.nil_prefix
          · have hskip := skipSpace_append (Nat.lt_of_not_le hend) t
            have hle' := le_skipSpace s (start + name.length)
            rw [at?_append (by omega), hskip, at?_append (by omega)]
            by_cases hafter : at? s (start + name.length) isNameChar = true
            · rw [if_pos hafter, if_pos hafter]
              exact ih hmn _
            rw [if_neg hafter, if_neg hafter]
            by_cases hassign : ¬ at? s (skipSpace s (start + name.length)) (· = 0x3D) = true
            · rw [if_pos hassign, if_pos hassign]
              exact ih hmn _
            rw [if_neg hassign, if_neg hassign]
            generalize skipSpace s (start + name.length) + 1 = j
            cases hq : s[skipSpace s j]? with
            | none => exact List.nil_prefix
            | some q =>
                have hlt : skipSpace s j < s.length := (List.getElem?_eq_some_iff.mp hq).1
                rw [skipSpace_append hlt, List.getElem?_append_left hlt, hq]
                dsimp only
                by_cases hquote : q ≠ 0x22 ∧ q ≠ 0x27
                · rw [if_pos hquote, if_pos hquote]
                  exact ih hmn _
                rw [if_neg hquote, if_neg hquote]
                cases hclose : findFrom [q] s (skipSpace s j + 1) with
                | none => exact List.nil_prefix
                | some close =>
                    obtain ⟨hge, -, hle⟩ := findFrom_stands (List.cons_ne_nil q []) hclose
                    rw [List.length_singleton] at hle
                    rw [findFrom_append (List.cons_ne_nil q []) hclose]
                    dsimp only
                    rw [List.drop_append_of_le_length (by omega),
                      List.take_append_of_le_length (by rw [List.length_drop]; omega)]
                    exact List.cons_prefix_cons.mpr ⟨rfl, ih hmn _⟩

theorem prefix_attrValues (hname : IsName name) (s t : List UInt8) :
    ribclAttrValues s name <+: ribclAttrValues (s ++ t) name :=
  prefix_attrLoop hname t (by rw [List.length_append]; omega) 0

/-- An element that is whole is found in every longer text. -/
theorem element_append {tag el : List UInt8} (htag : tag ≠ []) (h : element tag s = some el)
    (t : List UInt8) : element tag (s ++ t) = some el := by
  unfold element at h ⊢
  cases hfind : find tag s with
  | none => simp [hfind] at h
  | some start =>
      rw [hfind] at h
      rw [find_append htag hfind]
      dsimp only at h ⊢
      cases hclose : findFrom (ascii "/>") s start with
      | none => simp [hclose] at h
      | some close =>
          obtain ⟨hge, -, hle⟩ := findFrom_stands (by decide) hclose
          rw [hclose] at h
          rw [findFrom_append (by decide) hclose]
          dsimp only at h ⊢
          rw [List.drop_append_of_le_length (by omega),
            List.take_append_of_le_length (by rw [List.length_drop]; omega)]
          exact h

end Ilo2.Ribcl
