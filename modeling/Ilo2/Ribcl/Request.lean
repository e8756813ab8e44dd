import Ilo2.Lib.Xml
import Ilo2.Ribcl.Command

/-!
# What a request says

The documents of `ribcl.hpp` are put together from text.  Here each command has a tree, whose
attribute values are fixed or have a place for one of the strings of the caller, and reading the
document as XML gives that tree with the strings in their places.

* `escapes_xmlAttrEscape` - what `xml_attr_escape` writes is read back.
* `document_eq` - the document is what is written for the tree.
* `request_parses` - **no string of the caller changes the elements of a request**.
-/

namespace Ilo2.Ribcl

open Xml
open Tls (ascii)

/-! ### The trees -/

/-- A place for the value of an attribute. -/
inductive Slot where
  | fixed (s : String)
  | user
  | password
  | device
  | imageUrl
  | bootOption
  | bootDevice
deriving DecidableEq

/-- What stands there: the string of the caller, or its default. -/
def Slot.value (user pass : List UInt8) (args : RibclArgs) : Slot → List UInt8
  | .fixed s => ascii s
  | .user => user
  | .password => pass
  | .device => if args.device = [] then ascii "CDROM" else args.device
  | .imageUrl => args.imageUrl
  | .bootOption => if args.bootOption = [] then ascii "NO_BOOT" else args.bootOption
  | .bootDevice => if args.bootDevice = [] then ascii "NORMAL" else args.bootDevice

/-- An element, with its names in ASCII. -/
def tag (name : String) (attrs : List (String × Slot)) (children : List (Node Slot)) :
    Node Slot :=
  .element (ascii name) (attrs.map fun a => (ascii a.1, a.2)) children

/-- The end of a line, which is text. -/
def newline : Node Slot := .text (ascii "\r\n")

/-- The element of a command. -/
def commandElement : RibclCommand → Node Slot
  | .getPowerStatus => tag "GET_HOST_POWER_STATUS" [] []
  | .getEmbeddedHealth => tag "GET_EMBEDDED_HEALTH" [] []
  | .getPowerReadings => tag "GET_POWER_READINGS" [] []
  | .getOneTimeBoot => tag "GET_ONE_TIME_BOOT" [] []
  | .getFwVersion => tag "GET_FW_VERSION" [] []
  | .powerOn => tag "SET_HOST_POWER" [("HOST_POWER", .fixed "Yes")] []
  | .powerOff => tag "SET_HOST_POWER" [("HOST_POWER", .fixed "No")] []
  | .forcePowerOff => tag "HOLD_PWR_BTN" [] []
  | .reset => tag "RESET_SERVER" [] []
  | .coldBoot => tag "COLD_BOOT_SERVER" [] []
  | .uidOn => tag "UID_CONTROL" [("UID", .fixed "Yes")] []
  | .uidOff => tag "UID_CONTROL" [("UID", .fixed "No")] []
  | .getVmStatus => tag "GET_VM_STATUS" [("DEVICE", .device)] []
  | .insertVirtualMedia =>
      tag "INSERT_VIRTUAL_MEDIA" [("DEVICE", .device), ("IMAGE_URL", .imageUrl)] []
  | .ejectVirtualMedia => tag "EJECT_VIRTUAL_MEDIA" [("DEVICE", .device)] []
  | .setVmBootOption =>
      tag "SET_VM_STATUS" [("DEVICE", .device)]
        [newline, tag "VM_BOOT_OPTION" [("VALUE", .bootOption)] [], newline]
  | .setOneTimeBoot => tag "SET_ONE_TIME_BOOT" [("value", .bootDevice)] []

/-- The name of the element around it. -/
def wrapperName : RibclCommand → String
  | .getVmStatus | .getFwVersion | .insertVirtualMedia | .ejectVirtualMedia | .setVmBootOption =>
      "RIB_INFO"
  | _ => "SERVER_INFO"

/-- The whole request. -/
def request (c : RibclCommand) : List (Node Slot) :=
  [tag "RIBCL" [("VERSION", .fixed "2.0")]
    [newline,
      tag "LOGIN" [("USER_LOGIN", .user), ("PASSWORD", .password)]
        [newline,
          tag (wrapperName c) [("MODE", .fixed (if ribclIsWrite c then "write" else "read"))]
            [newline, commandElement c, newline],
          newline],
      newline],
    newline]

/-! ### Escaping -/

/-- What `xml_attr_escape` makes of a character. -/
def escapeChar (ch : UInt8) : List UInt8 := xmlAttrEscape [ch]

theorem xmlAttrEscape_eq (s : List UInt8) : xmlAttrEscape s = s.flatMap escapeChar := by
  induction s with
  | nil => rfl
  | cons c s ih =>
      rw [List.flatMap_cons, ← ih, escapeChar, xmlAttrEscape, xmlAttrEscape, xmlAttrEscape,
        List.flatMap_cons, List.flatMap_singleton]

/-- **What `xml_attr_escape` writes is read back**, and no quote and no tag begins in it. -/
theorem escapes_xmlAttrEscape : Escapes escapeChar := by
  have hcases : ∀ c : UInt8, (escapeChar c = [c] ∧ c ≠ 0x26 ∧ c ≠ 0x3C ∧ c ≠ 0x22) ∨
      ∃ ref, escapeChar c = 0x26 :: (ref ++ [0x3B]) ∧ entity ref = some c ∧ 0x3B ∉ ref ∧
        0x22 ∉ ref ∧ 0x3C ∉ ref := by
    intro c
    rw [escapeChar, xmlAttrEscape, List.flatMap_singleton]
    by_cases h₁ : c = 0x26
    · exact Or.inr ⟨ascii "amp", by rw [if_pos h₁]; rfl, by rw [h₁]; rfl, by decide, by decide,
        by decide⟩
    by_cases h₂ : c = 0x3C
    · exact Or.inr ⟨ascii "lt", by rw [if_neg h₁, if_pos h₂]; rfl, by rw [h₂]; rfl, by decide,
        by decide, by decide⟩
    by_cases h₃ : c = 0x3E
    · exact Or.inr ⟨ascii "gt", by rw [if_neg h₁, if_neg h₂, if_pos h₃]; rfl, by rw [h₃]; rfl,
        by decide, by decide, by decide⟩
    by_cases h₄ : c = 0x22
    · exact Or.inr ⟨ascii "quot", by rw [if_neg h₁, if_neg h₂, if_neg h₃, if_pos h₄]; rfl,
        by rw [h₄]; rfl, by decide, by decide, by decide⟩
    by_cases h₅ : c = 0x27
    · exact Or.inr ⟨ascii "apos",
        by rw [if_neg h₁, if_neg h₂, if_neg h₃, if_neg h₄, if_pos h₅]; rfl,
        by rw [h₅]; rfl, by decide, by decide, by decide⟩
    · refine Or.inl ⟨?_, h₁, h₂, h₄⟩
      rw [if_neg h₁, if_neg h₂, if_neg h₃, if_neg h₄, if_neg h₅]
  refine ⟨?_, ?_, ?_⟩
  · intro c s
    rcases hcases c with ⟨h, hamp, -⟩ | ⟨ref, h, hentity, hsemi, -⟩
    · rw [h, List.singleton_append, unescape_cons hamp]
    · rw [h, List.cons_append, List.append_assoc, List.singleton_append,
        unescape_reference hsemi hentity]
  · intro c hmem
    rcases hcases c with ⟨h, -, -, hquote⟩ | ⟨ref, h, -, -, hquote, -⟩
    · rw [h, List.mem_singleton] at hmem
      exact hquote hmem.symm
    · rw [h] at hmem
      simp only [List.mem_cons, List.mem_append, List.not_mem_nil, or_false] at hmem
      rcases hmem with hmem | hmem | hmem
      · exact absurd hmem (by decide)
      · exact hquote hmem
      · exact absurd hmem (by decide)
  · intro c hmem
    rcases hcases c with ⟨h, -, htag, -⟩ | ⟨ref, h, -, -, -, htag⟩
    · rw [h, List.mem_singleton] at hmem
      exact htag hmem.symm
    · rw [h] at hmem
      simp only [List.mem_cons, List.mem_append, List.not_mem_nil, or_false] at hmem
      rcases hmem with hmem | hmem | hmem
      · exact absurd hmem (by decide)
      · exact htag hmem
      · exact absurd hmem (by decide)

/-! ### The document -/

theorem ribclWrapper_eq (c : RibclCommand) : ribclWrapper c = ascii (wrapperName c) := by
  cases c <;> rfl

/-- The element of a command is what `ribcl_body` puts in the middle. -/
theorem innerBody_eq (user pass : List UInt8) (c : RibclCommand) (args : RibclArgs) :
    ((commandElement c).map (Slot.value user pass args)).write escapeChar = innerBody c args := by
  cases c
  case setVmBootOption =>
    simp only [commandElement, tag, newline, Node.map, mapAll, write_element, write_empty,
      write_text, writeAll, writeAttr, List.map_cons, List.map_nil, List.flatMap_cons,
      List.flatMap_nil, List.append_assoc, List.cons_append, List.nil_append, innerBody,
      xmlAttrEscape_eq]
    rfl
  all_goals
    simp only [commandElement, tag, Node.map, mapAll, write_empty, writeAttr, List.map_cons,
      List.map_nil, List.flatMap_cons, List.flatMap_nil, List.append_assoc, List.cons_append,
      List.nil_append, innerBody, xmlAttrEscape_eq]
    rfl

theorem mode_eq (user pass : List UInt8) (c : RibclCommand) (args : RibclArgs) :
    (Slot.value user pass args (.fixed (if ribclIsWrite c then "write" else "read"))).flatMap
      escapeChar = if ribclIsWrite c then ascii "write" else ascii "read" := by
  cases ribclIsWrite c
  · rfl
  · rfl

/-- **The document is what is written for the tree.** -/
theorem document_eq (user pass : List UInt8) (c : RibclCommand) (args : RibclArgs) :
    writeAll escapeChar (mapAll (Slot.value user pass args) (request c)) =
      ribclDocument user pass (ribclBody c args) := by
  have hinner := innerBody_eq user pass c args
  have hmode := mode_eq user pass c args
  simp only [request, tag, newline, Node.map, mapAll, write_element, write_text, writeAll,
    writeAttr, List.map_cons, List.map_nil, List.flatMap_cons, List.flatMap_nil, List.append_assoc,
    List.cons_append, List.nil_append, List.append_nil, hinner, hmode, ribclDocument, ribclBody,
    ribclWrapper_eq, xmlAttrEscape_eq]
  rfl

/-- The trees are well formed, whatever is put in their places. -/
theorem request_wellFormed (c : RibclCommand) : wellFormed (flattenAll (request c)) = true := by
  cases c <;> decide +kernel

/-- **Requests cannot be injected into**: the document of a command, read as XML, is the tree of
the command with the strings of the caller, or their defaults, in their places. -/
theorem request_parses (user pass : List UInt8) (c : RibclCommand) (args : RibclArgs) :
    parse (ribclDocument user pass (ribclBody c args)) =
        some (mapAll (Slot.value user pass args) (request c)) ∧
      ∀ s, unescape (xmlAttrEscape s) = some s := by
  constructor
  · rw [← document_eq]
    apply parse_write escapes_xmlAttrEscape
    rw [flattenAll_map, wellFormed_map]
    exact request_wellFormed c
  · intro s
    rw [xmlAttrEscape_eq]
    exact escapes_xmlAttrEscape.unescape s

end Ilo2.Ribcl
