import Ilo2.Tls.Client

/-!
# What a caller sees of a client

`https_get` and `ribcl_exchange` use a client through `send` and `recv`.  A `Channel` is
these two; `ClientT.channel` is the client's own.

* `Gets ch c rs c'` - from `c`, as many calls of `recv` as `rs` has records bring these
  records, and leave `c'`.
* `Channel.script` - a peer that sends given records, and then nothing but one outcome.
-/

namespace Ilo2.Tls

/-- What a call of `recv` brings. -/
inductive Outcome where
  | data (bs : List UInt8)
  /-- It returned false, and `eof` is set. -/
  | closed (err : Stop)
  /-- It returned false, and `eof` is not set. -/
  | failed (err : Stop)
deriving DecidableEq

structure Channel (C : Type) where
  send : C → List UInt8 → Except Stop Unit × C
  recv : C → Outcome × C

namespace ClientT

variable {T : Type} [Transport T]

/-- The client itself, reading at most `records` records in a call.  Nobody calls `recv`
again once it has failed, so `eof` is what the call that failed made of it. -/
def channel (T : Type) [Transport T] (records : Nat) : Channel (ClientT T) where
  send c data := ClientT.send data c
  recv c :=
    match ClientT.recv records c with
    | (.ok data, c) => (.data data, c)
    | (.error e, c) => (if c.eof then .closed e else .failed e, c)

end ClientT

variable {C : Type} {ch : Channel C} {c c' c'' : C} {bs : List UInt8} {rs rs' : List (List UInt8)}

/-! ### The records of a reply -/

inductive Gets (ch : Channel C) : C → List (List UInt8) → C → Prop
  | nil {c : C} : Gets ch c [] c
  | cons {c c' c'' : C} {bs : List UInt8} {rs : List (List UInt8)} :
      ch.recv c = (.data bs, c') → Gets ch c' rs c'' → Gets ch c (bs :: rs) c''

/-- The next outcome is no data. -/
def Ended (ch : Channel C) (c : C) : Prop := ∀ bs, (ch.recv c).1 ≠ .data bs

theorem Gets.append (h : Gets ch c rs c') (g : Gets ch c' rs' c'') :
    Gets ch c (rs ++ rs') c'' := by
  induction h with
  | nil => exact g
  | cons hrecv _ ih => exact .cons hrecv (ih g)

/-- And the other way round. -/
theorem Gets.split (h : Gets ch c (rs ++ rs') c'') : ∃ c', Gets ch c rs c' ∧ Gets ch c' rs' c'' := by
  induction rs generalizing c with
  | nil => exact ⟨c, .nil, h⟩
  | cons bs rs ih =>
      cases h with
      | cons hrecv hrest =>
          obtain ⟨c', hrs, hrs'⟩ := ih hrest
          exact ⟨c', .cons hrecv hrs, hrs'⟩

/-- Of two runs of calls, one goes on where the other ends. -/
theorem Gets.comparable {c₁ c₂ : C} (h : Gets ch c rs c₁) (g : Gets ch c rs' c₂) :
    (∃ more, rs' = rs ++ more ∧ Gets ch c₁ more c₂) ∨
      ∃ more, rs = rs' ++ more ∧ Gets ch c₂ more c₁ := by
  induction h generalizing rs' with
  | nil => exact Or.inl ⟨rs', rfl, g⟩
  | @cons c d e bs rs hrecv hrest ih =>
      cases g with
      | nil => exact Or.inr ⟨bs :: rs, rfl, .cons hrecv hrest⟩
      | cons hrecv' hrest' =>
          rw [hrecv] at hrecv'
          cases hrecv'
          rcases ih hrest' with ⟨more, rfl, h⟩ | ⟨more, rfl, h⟩
          · exact Or.inl ⟨more, rfl, h⟩
          · exact Or.inr ⟨more, rfl, h⟩

/-- All the records before the end come before it. -/
theorem Gets.extends (h : Gets ch c rs c') (hend : Ended ch c') {d : C} (g : Gets ch c rs' d) :
    ∃ more, rs = rs' ++ more ∧ Gets ch d more c' := by
  rcases h.comparable g with ⟨more, rfl, hmore⟩ | hmore
  · cases hmore with
    | nil => exact ⟨[], by simp, .nil⟩
    | cons hrecv _ => exact absurd (congrArg Prod.fst hrecv) (hend _)
  · exact hmore

/-! ### A scripted peer -/

namespace Channel

/-- The peer sends these records, and then there is nothing but `ending`.  What is sent to
it is accepted. -/
def script (ending : Outcome) : Channel (List (List UInt8)) where
  send rs _ := (.ok (), rs)
  recv
    | [] => (ending, [])
    | bs :: rs => (.data bs, rs)

variable {ending : Outcome}

theorem script_gets (rs : List (List UInt8)) : Gets (script ending) rs rs [] := by
  induction rs with
  | nil => exact .nil
  | cons bs rs ih => exact .cons rfl ih

end Channel

end Ilo2.Tls
