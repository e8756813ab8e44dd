import Mathlib.Data.List.Basic

/-!
# Formats that are read off the front of a buffer

A reader that leaves the bytes after a value alone can be called on a buffer that is still
growing: then "fails" has to mean "not yet all there".

* `Format.parse_append` - more bytes do not change what has been read.
* `Format.prefix_refused` - **no proper part of an encoding is accepted**.
-/

namespace Codec

universe u v

/-- A format: what is encoded is read back whatever follows, and nothing but an encoding is
accepted. -/
structure Format (α : Type u) (β : Type v) where
  Valid : α → Prop
  encode : α → List β
  parse : List β → Option α
  round : ∀ {a : α}, Valid a → ∀ rest : List β, parse (encode a ++ rest) = some a
  sound : ∀ {p : List β} {a : α}, parse p = some a → Valid a ∧ encode a <+: p

namespace Format

variable {α : Type u} {β : Type v} (f : Format α β) {a : α} {p q : List β}

theorem parse_append (h : f.parse p = some a) (more : List β) : f.parse (p ++ more) = some a := by
  obtain ⟨hvalid, rest, rfl⟩ := f.sound h
  rw [List.append_assoc]
  exact f.round hvalid _

/-- **No proper part of an encoding is accepted.** -/
theorem prefix_refused (ha : f.Valid a) (hq : q <+: f.encode a) (hne : q ≠ f.encode a) :
    f.parse q = none := by
  cases hb : f.parse q with
  | none => rfl
  | some b =>
      obtain ⟨more, hmore⟩ := id hq
      have hlong := f.parse_append hb more
      have hwhole := f.round ha []
      rw [List.append_nil] at hwhole
      rw [hmore, hwhole, Option.some.injEq] at hlong
      subst hlong
      have hle := (f.sound hb).2.length_le
      exact absurd (hq.eq_of_length_le hle) hne

end Format

end Codec
