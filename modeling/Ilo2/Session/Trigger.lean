import Ilo2.Lib.Text
import Ilo2.Session.Telnet

/-!
# The trigger of DVC mode

`Telnet::feed`, for any class that overrides `process_dvc`.  Outside DVC mode a matcher of three
states looks for `ESC [ R` or `ESC [ r`; inside, every byte is decrypted if the mode says so and
handed on.

* `Hunting` - what the matcher's state says of the text so far.
* `text_step` - one byte of text.
* `feed_dvc` - bytes in DVC mode.
* `trigger_detected` - **the matcher finds the first place of the trigger**, and what follows it
  is delivered.
-/

namespace Ilo2.Session

open Crypto

/-- A `Telnet` object with the state `σ` of the class derived from it.  `delivered` is what has
been handed to `process_dvc`. -/
structure Telnet (σ : Type) where
  session : CimSession := {}
  state : σ
  delivered : List UInt8 := []

namespace Telnet

variable {σ : Type}

/-- `process_dvc`: whether to stay in DVC mode, and the new state. -/
abbrev ProcessDvc (σ : Type) := σ → UInt8 → Bool × σ

/-- One round of the loop of `feed`. -/
def step (processDvc : ProcessDvc σ) (t : Telnet σ) (c : UInt8) : Telnet σ :=
  if t.session.dvcMode then
    let (byte, session) := t.session.decrypt c
    let (stay, state) := processDvc t.state byte
    { session := { session with dvcMode := stay }
      state := state
      delivered := t.delivered ++ [byte] }
  else { t with session := t.session.text c }

def feed (processDvc : ProcessDvc σ) (t : Telnet σ) (data : List UInt8) : Telnet σ :=
  data.foldl (step processDvc) t

/-- An object on which `setup_decryption` was called with `key`, or not at all. -/
def fresh (key : Option (Vector UInt8 16)) (state : σ) : Telnet σ :=
  { session := key.elim {} ({ : CimSession}.setupDecryption ·), state := state }

/-- The trigger that ends in `c`. -/
def escape (c : UInt8) : List UInt8 := [0x1B, 0x5B] ++ [c]

/-- `R` opens DVC mode with encryption, `r` without. -/
def IsMode (c : UInt8) : Prop := c = 0x52 ∨ c = 0x72

/-- The first trigger of a stream stands at `i` and ends in `c`. -/
structure FirstTrigger (stream : List UInt8) (i : Nat) (c : UInt8) : Prop where
  mode : IsMode c
  stands : Text.Stands (escape c) stream i
  first : ∀ j < i, ∀ d, IsMode d → ¬ Text.Stands (escape d) stream j

/-! ### Text -/

/-- The matcher after the text `pre`, which has no trigger. -/
structure Hunting (pre : List UInt8) (s : CimSession) : Prop where
  mode : s.dvcMode = false
  quiet : ∀ i d, IsMode d → ¬ Text.Stands (escape d) pre i
  esc : s.escState = 1 ↔ [0x1B] <:+ pre
  bracket : s.escState = 2 ↔ [0x1B, 0x5B] <:+ pre

variable {pre : List UInt8} {s : CimSession} {processDvc : ProcessDvc σ} {t : Telnet σ}

theorem Hunting.start {s : CimSession} (hmode : s.dvcMode = false) (hesc : s.escState = 0) :
    Hunting [] s := by
  refine ⟨hmode, ?_, by simp [hesc], by simp [hesc]⟩
  intro i d _ hst
  have hle := hst.le (by simp [escape])
  simp [escape] at hle

/-- The texts that end in the first bytes of a trigger, with one byte more. -/
theorem suffix_esc {c : UInt8} : [0x1B] <:+ pre ++ [c] ↔ c = 0x1B := by
  have h := Text.suffix_concat (p := ([] : List UInt8)) (s := pre) (b := 0x1B) (c := c)
  rw [List.nil_append] at h
  rw [h, eq_comm]
  simp

theorem suffix_bracket {c : UInt8} :
    [0x1B, 0x5B] <:+ pre ++ [c] ↔ [0x1B] <:+ pre ∧ c = 0x5B := by
  have h := Text.suffix_concat (p := ([0x1B] : List UInt8)) (s := pre) (b := 0x5B) (c := c)
  rw [List.singleton_append] at h
  rw [h, eq_comm (a := c)]

/-- The byte `c` ends a trigger. -/
def Ends (pre : List UInt8) (c : UInt8) : Prop := IsMode c ∧ [0x1B, 0x5B] <:+ pre

/-- A text with one byte more has no trigger unless the byte ends one. -/
theorem quiet_concat {c : UInt8} (h : ∀ i d, IsMode d → ¬ Text.Stands (escape d) pre i)
    (hc : ¬ Ends pre c) : ∀ i d, IsMode d → ¬ Text.Stands (escape d) (pre ++ [c]) i := by
  intro i d hd hst
  rcases Text.stands_concat.mp hst with hbefore | ⟨hsuf, rfl, -⟩
  · exact h i d hd hbefore
  · exact hc ⟨hd, hsuf⟩

/-- **One byte of text**: the matcher goes on hunting, or the byte ends a trigger and DVC mode
begins. -/
theorem text_step (h : Hunting pre s) (c : UInt8) :
    (¬ Ends pre c ∧ Hunting (pre ++ [c]) (s.text c) ∧
        (s.text c).rc4Decrypter = s.rc4Decrypter) ∨
      (Ends pre c ∧ s.text c = { s with dvcMode := true, dvcEncryption := c = 0x52 }) := by
  have hend : Ends pre c ↔ IsMode c ∧ s.escState = 2 := by rw [Ends, h.bracket]
  rw [CimSession.text]
  by_cases hesc : c = 0x1B
  · have hnot : ¬ Ends pre c := by
      rintro ⟨hmode, -⟩
      subst hesc
      revert hmode
      simp [IsMode]
    rw [if_pos hesc]
    refine Or.inl ⟨hnot, ⟨h.mode, quiet_concat h.quiet hnot, ?_, ?_⟩, rfl⟩
    · simp [hesc]
    · simp [suffix_bracket, hesc]
  rw [if_neg hesc]
  by_cases hbracket : s.escState = 1 ∧ c = 0x5B
  · have hnot : ¬ Ends pre c := by
      rw [hend, hbracket.1]
      simp
    rw [if_pos hbracket]
    refine Or.inl ⟨hnot, ⟨h.mode, quiet_concat h.quiet hnot, ?_, ?_⟩, rfl⟩
    · rw [suffix_esc]
      simp [hesc]
    · simp [suffix_bracket, ← h.esc, hbracket]
  rw [if_neg hbracket]
  by_cases hR : s.escState = 2 ∧ c = 0x52
  · rw [if_pos hR]
    refine Or.inr ⟨hend.mpr ⟨Or.inl hR.2, hR.1⟩, ?_⟩
    simp [hR.2]
  rw [if_neg hR]
  by_cases hr : s.escState = 2 ∧ c = 0x72
  · rw [if_pos hr]
    refine Or.inr ⟨hend.mpr ⟨Or.inr hr.2, hr.1⟩, ?_⟩
    simp [hr.2]
  rw [if_neg hr]
  have hnot : ¬ Ends pre c := by
    rw [hend]
    rintro ⟨rfl | rfl, h2⟩
    · exact hR ⟨h2, rfl⟩
    · exact hr ⟨h2, rfl⟩
  refine Or.inl ⟨hnot, ⟨h.mode, quiet_concat h.quiet hnot, ?_, ?_⟩, rfl⟩
  · rw [suffix_esc]
    simp [hesc]
  · rw [suffix_bracket, ← h.esc]
    constructor
    · intro h0
      cases h0
    · intro h1
      exact absurd h1 hbracket

/-- **A text without a trigger** is hunted through, and nothing is delivered. -/
theorem feed_text (processDvc : ProcessDvc σ) (hstart : Hunting [] t.session) : ∀ pre : List UInt8,
    (∀ i d, IsMode d → ¬ Text.Stands (escape d) pre i) →
      Hunting pre (t.feed processDvc pre).session ∧
        (t.feed processDvc pre).session.rc4Decrypter = t.session.rc4Decrypter ∧
        (t.feed processDvc pre).delivered = t.delivered := by
  intro pre
  induction pre using List.reverseRecOn with
  | nil => intro _; exact ⟨hstart, rfl, rfl⟩
  | append_singleton pre c ih =>
      intro hquiet
      obtain ⟨hunt, hrc, hdel⟩ := ih fun i d hd hst =>
        hquiet i d hd (Text.stands_concat.mpr (Or.inl hst))
      have hnot : ¬ Ends pre c := by
        rintro ⟨hmode, hsuf⟩
        obtain ⟨front, hfront⟩ := hsuf
        refine hquiet front.length c hmode ?_
        exact Text.stands_concat.mpr (Or.inr ⟨⟨front, hfront⟩, rfl, by simp [← hfront]⟩)
      have hstep : t.feed processDvc (pre ++ [c]) =
          { t.feed processDvc pre with session := (t.feed processDvc pre).session.text c } := by
        rw [feed, List.foldl_append]
        show (t.feed processDvc pre).step processDvc c = _
        rw [step, hunt.mode]
        rfl
      rw [hstep]
      rcases text_step hunt c with ⟨-, hnext, hkeep⟩ | ⟨hend, -⟩
      · exact ⟨hnext, hkeep.trans hrc, hdel⟩
      · exact absurd hend hnot

/-! ### DVC mode -/

/-- A byte in DVC mode. -/
theorem step_dvc (hstay : ∀ st c, (processDvc st c).1 = true) (hmode : t.session.dvcMode = true)
    (c : UInt8) : t.step processDvc c =
      { session := (t.session.decrypt c).2
        state := (processDvc t.state (t.session.decrypt c).1).2
        delivered := t.delivered ++ [(t.session.decrypt c).1] } := by
  have hkeep : (t.session.decrypt c).2.dvcMode = true := by
    rw [CimSession.decrypt]
    split
    · exact hmode
    · exact hmode
  rw [step, if_pos hmode]
  simp only [hstay]
  rw [← hkeep]

/-- **Bytes in DVC mode with encryption** are delivered decrypted. -/
theorem feed_cipher (hstay : ∀ st c, (processDvc st c).1 = true) : ∀ (data : List UInt8)
    {t : Telnet σ} {rc : RC4}, t.session.dvcMode = true → t.session.dvcEncryption = true →
      t.session.rc4Decrypter = some rc →
        (t.feed processDvc data).delivered = t.delivered ++ (rc.crypt data).1 ∧
          (t.feed processDvc data).session.rc4Decrypter = some (rc.crypt data).2 := by
  intro data
  induction data with
  | nil => intro t rc _ _ hrc; exact ⟨(List.append_nil _).symm, hrc⟩
  | cons c data ih =>
      intro t rc hmode henc hrc
      have hdec : t.session.decrypt c = (c ^^^ rc.randomValue.1,
          { t.session with rc4Decrypter := some rc.randomValue.2 }) := by
        simp only [CimSession.decrypt, henc, hrc]
      have hstep := step_dvc hstay hmode c
      rw [hdec] at hstep
      have hnext : (t.step processDvc c).session.rc4Decrypter = some rc.randomValue.2 := by
        rw [hstep]
      obtain ⟨hdel, hrest⟩ := ih (by rw [hstep]; exact hmode) (by rw [hstep]; exact henc) hnext
      refine ⟨hdel.trans ?_, hrest⟩
      rw [hstep, List.append_assoc]
      rfl

/-- **Bytes in DVC mode without encryption**, or without a decrypter, are delivered as they
are. -/
theorem feed_plain (hstay : ∀ st c, (processDvc st c).1 = true) : ∀ (data : List UInt8)
    {t : Telnet σ}, t.session.dvcMode = true →
      t.session.dvcEncryption = false ∨ t.session.rc4Decrypter = none →
        (t.feed processDvc data).delivered = t.delivered ++ data ∧
          (t.feed processDvc data).session.rc4Decrypter = t.session.rc4Decrypter := by
  intro data
  induction data with
  | nil => intro t _ _; exact ⟨(List.append_nil _).symm, rfl⟩
  | cons c data ih =>
      intro t hmode hplain
      have hdec : t.session.decrypt c = (c, t.session) := by
        rw [CimSession.decrypt]
        rcases hplain with henc | hnone
        · rw [henc]
        · rw [hnone]
          cases t.session.dvcEncryption with
          | false => rfl
          | true => rfl
      have hstep := step_dvc hstay hmode c
      rw [hdec] at hstep
      obtain ⟨hdel, hrest⟩ := ih (t := t.step processDvc c) (by rw [hstep]; exact hmode)
        (by rw [hstep]; exact hplain)
      refine ⟨hdel.trans ?_, hrest.trans (by rw [hstep])⟩
      rw [hstep, List.append_assoc]
      rfl

/-! ### The whole stream -/

/-- Receive buffers are fed one after the other. -/
theorem feed_flatten (t : Telnet σ) (buffers : List (List UInt8)) :
    buffers.foldl (feed processDvc) t = t.feed processDvc buffers.flatten :=
  List.foldl_flatten.symm

theorem hunting_fresh (key : Option (Vector UInt8 16)) (state : σ) :
    Hunting [] (fresh key state).session := by
  cases key with
  | none => exact Hunting.start rfl rfl
  | some key => exact Hunting.start rfl rfl

theorem decrypter_fresh (key : Option (Vector UInt8 16)) (state : σ) :
    (fresh key state).session.rc4Decrypter = key.map RC4.ofSeed := by
  cases key with
  | none => rfl
  | some key => rfl

/-- **The trigger is found**: when it ends, the object is in DVC mode, nothing has been
delivered, and the decrypter is as it was. -/
theorem feed_trigger (processDvc : ProcessDvc σ) (key : Option (Vector UInt8 16)) (state : σ)
    {stream : List UInt8} {i : Nat} {c : UInt8} (h : FirstTrigger stream i c) : ∃ t : Telnet σ,
      (fresh key state).feed processDvc stream = t.feed processDvc (stream.drop (i + 3)) ∧
        t.session.dvcMode = true ∧ t.session.dvcEncryption = (c = 0x52 : Bool) ∧
        t.session.rc4Decrypter = key.map RC4.ofSeed ∧ t.delivered = [] := by
  obtain ⟨rest, hrest⟩ := h.stands
  have hle := h.stands.le (by simp [escape])
  have hpre : stream = (stream.take i ++ [0x1B, 0x5B]) ++ ([c] ++ rest) := by
    calc stream = stream.take i ++ stream.drop i := (List.take_append_drop i stream).symm
      _ = _ := by rw [← hrest, escape, List.append_assoc, List.append_assoc]
  have hlen : (stream.take i).length = i := by
    rw [List.length_take]
    omega
  have hdrop : stream.drop (i + 3) = rest := by
    rw [← List.drop_drop, ← hrest]
    rfl
  have hquiet : ∀ j d, IsMode d →
      ¬ Text.Stands (escape d) (stream.take i ++ [0x1B, 0x5B]) j := by
    intro j d hd hst
    have hj := hst.le (by simp [escape])
    simp only [escape, List.length_append, List.length_cons, List.length_nil, hlen] at hj
    refine h.first j (by omega) d hd ?_
    rw [hpre]
    exact hst.append (by simp only [List.length_append, List.length_cons, List.length_nil]; omega)
  obtain ⟨hunt, hrc, hdel⟩ := feed_text processDvc (hunting_fresh key state) _ hquiet
  have hend : Ends (stream.take i ++ [0x1B, 0x5B]) c := ⟨h.mode, List.suffix_append _ _⟩
  rcases text_step hunt c with ⟨hnot, -, -⟩ | ⟨-, htext⟩
  · exact absurd hend hnot
  · refine ⟨((fresh key state).feed processDvc (stream.take i ++ [0x1B, 0x5B])).step processDvc c,
      ?_, ?_⟩
    · rw [hdrop]
      conv_lhs => rw [hpre, feed, List.foldl_append, List.foldl_append]
      rfl
    · rw [step, hunt.mode]
      simp only [Bool.false_eq_true, if_false, htext]
      exact ⟨trivial, trivial, hrc.trans (decrypter_fresh key state), hdel⟩

/-- **The matcher finds the first trigger of the stream**, however it is cut into buffers, and
delivers what follows it: byte `i` added to byte `i` of the keystream if the trigger asks for
encryption and a key is set up, as it is otherwise.  No byte of the keystream is used but for
these; without a trigger nothing is delivered. -/
theorem trigger_detected (processDvc : ProcessDvc σ)
    (hstay : ∀ st c, (processDvc st c).1 = true) (key : Option (Vector UInt8 16)) (state : σ)
    (buffers : List (List UInt8)) :
    let stream := buffers.flatten
    let t := buffers.foldl (feed processDvc) (fresh key state)
    (∀ i c, FirstTrigger stream i c →
      let rest := stream.drop (i + 3)
      (∀ k, key = some k → c = 0x52 →
        t.delivered.length = rest.length ∧
        (∀ j : Nat, t.delivered[j]? =
          rest[j]?.map (· ^^^ Keystream.byte RC4.randomValue (RC4.ofSeed k) j)) ∧
        t.session.rc4Decrypter =
          some (Keystream.after RC4.randomValue (RC4.ofSeed k) rest.length)) ∧
      (key = none ∨ c = 0x72 →
        t.delivered = rest ∧ t.session.rc4Decrypter = key.map RC4.ofSeed)) ∧
    ((∀ i c, IsMode c → ¬ Text.Stands (escape c) stream i) →
      t.delivered = [] ∧ t.session.rc4Decrypter = key.map RC4.ofSeed) := by
  intro stream t
  have ht : t = (fresh key state).feed processDvc stream := feed_flatten _ _
  constructor
  · intro i c hfirst
    obtain ⟨t₁, hfeed, hmode, henc, hrc, hdel⟩ :=
      feed_trigger processDvc key state hfirst
    rw [ht, hfeed]
    constructor
    · rintro k rfl rfl
      obtain ⟨hbytes, hafter⟩ := feed_cipher hstay (stream.drop (i + 3)) hmode
        (henc.trans (by simp)) hrc
      rw [hdel, List.nil_append] at hbytes
      refine ⟨?_, ?_, ?_⟩
      · rw [hbytes, RC4.crypt, Keystream.length_crypt]
      · intro j
        rw [hbytes, RC4.crypt, Keystream.getElem?_crypt]
      · rw [hafter, RC4.crypt, Keystream.crypt_snd]
    · intro hplain
      have hno : t₁.session.dvcEncryption = false ∨ t₁.session.rc4Decrypter = none := by
        rcases hplain with rfl | rfl
        · exact Or.inr hrc
        · exact Or.inl (henc.trans (by simp))
      obtain ⟨hbytes, hafter⟩ := feed_plain hstay (stream.drop (i + 3)) hmode hno
      rw [hdel, List.nil_append] at hbytes
      exact ⟨hbytes, hafter.trans hrc⟩
  · intro hquiet
    rw [ht]
    obtain ⟨-, hrc, hdel⟩ :=
      feed_text processDvc (hunting_fresh key state) stream hquiet
    exact ⟨hdel, hrc.trans (decrypter_fresh key state)⟩

/-- A repeated start of the trigger, across two buffers, and `process_dvc` of the base class. -/
theorem trigger_detected_restart :
    ([[0x1B, 0x1B, 0x5B], [0x52, 0x41, 0x42]].foldl (feed fun _ _ => (true, ()))
      (fresh none ())).delivered = [0x41, 0x42] := by
  have h := (trigger_detected (fun _ _ => (true, ())) (fun _ _ => rfl) none ()
    [[0x1B, 0x1B, 0x5B], [0x52, 0x41, 0x42]]).1 1 0x52
  have hfirst : FirstTrigger ([[0x1B, 0x1B, 0x5B], [0x52, 0x41, 0x42]] : List (List UInt8)).flatten
      1 0x52 := by
    refine ⟨Or.inl rfl, ⟨[0x41, 0x42], rfl⟩, ?_⟩
    intro j hj d _ hst
    have hzero : j = 0 := by omega
    subst hzero
    obtain ⟨rest, hrest⟩ := hst
    simp [escape] at hrest
  exact ((h hfirst).2 (Or.inl rfl)).1

end Telnet

end Ilo2.Session
