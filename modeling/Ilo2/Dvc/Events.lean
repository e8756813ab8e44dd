import Ilo2.Dvc.CommandBuffer

/-!
# The hooks that a run calls

What is known of every call of a virtual hook: tiles are 16 pixels wide and lie on the
grid of 16, a resolution is not empty, and `on_change_key` is called in state 46 alone,
for command 9 and a 0 bit.

* `processDvc_fits` - what holds of every hook of a byte.
* `changeKey_mem_processDvc` - **`on_change_key` is called for the bytes that are not
  `Quiet`**, those in which a round executes command 9.
-/

namespace Ilo2.Dvc

open Checked

/-- State 46 is about to execute command 9. -/
def Rekeys (d : DvcDecoder) : Prop :=
  d.bits.decoderState = 46 ∧ d.cmdLast = 9 ∧ d.bits.ibAcc &&& 1 = 0

instance (d : DvcDecoder) : Decidable (Rekeys d) := by
  unfold Rekeys
  infer_instance

/-- What is known of a hook; `rekey` is what is known of `on_change_key`. -/
def Event.Fits (rekey : Prop) : Event → Prop
  | .paste _ x y len => 16 ∣ x ∧ 16 ∣ y ∧ len = 16
  | .setDimensions w h => w ≠ 0 ∧ h ≠ 0
  | .changeKey => rekey
  | _ => True

theorem Event.Fits.mono {p q : Prop} (h : p → q) {e : Event} (he : e.Fits p) : e.Fits q := by
  cases e <;> first | exact h he | exact he

namespace DvcDecoder

variable {d d' : DvcDecoder} {s : Nat} {ev : List Event} {rekey : Prop}

theorem pasteLoop_fits (paint : Bool) (block : Vector Nat 256) (sizeX : Nat) {y : Nat}
    (hy : 16 ∣ y) {count x lastx : Nat} (hx : 16 ∣ x) :
    ∀ e ∈ (pasteLoop paint block sizeX y count x lastx).2, e.Fits rekey := by
  induction count generalizing x lastx with
  | zero => intro e he; cases he
  | succ count ih =>
      have hone : ∀ e ∈ (if paint then [Event.paste block x y 16] else []), e.Fits rekey := by
        intro e he
        split at he
        · rw [List.mem_singleton.mp he]
          exact ⟨hx, hy, rfl⟩
        · cases he
      intro e he
      unfold pasteLoop at he
      dsimp only at he
      split at he
      · exact hone e he
      · rcases List.mem_append.mp he with he | he
        · exact hone e he
        · exact ih (Nat.dvd_add hx (Nat.dvd_refl 16)) e he

theorem nextBlock_fits (d : DvcDecoder) (count : Nat) :
    ∀ e ∈ (d.nextBlock count).2, e.Fits rekey :=
  pasteLoop_fits _ _ _ (Nat.dvd_mul_left 16 _) (Nat.dvd_mul_left 16 _)

theorem casePrint_fits (d : DvcDecoder) : ∀ e ∈ d.casePrint.2, e.Fits rekey := by
  intro e he
  unfold casePrint at he
  split at he
  · cases he
  · dsimp only at he
    split at he
    all_goals first | (rw [List.mem_singleton.mp he]; trivial) | cases he

theorem caseFatal_fits (d : DvcDecoder) : ∀ e ∈ d.caseFatal.2, e.Fits rekey := by
  obtain ⟨n, ev, heq, hrefresh⟩ := d.caseFatal_counts
  rw [heq]
  intro e he
  rw [hrefresh e he]
  trivial

theorem caseMode_fits (d : DvcDecoder) : ∀ e ∈ d.caseMode.2, e.Fits rekey := by
  intro e he
  unfold caseMode at he
  dsimp only at he
  split at he
  · simp only [List.mem_cons, List.not_mem_nil, or_false] at he
    rcases he with rfl | rfl <;> trivial
  · rename_i hvideo
    simp only [decide_eq_true_eq, not_not] at hvideo
    simp only [List.mem_cons, List.not_mem_nil, or_false] at he
    rcases he with rfl | rfl | rfl
    · exact hvideo
    · trivial
    · trivial

theorem execCommand_fits (h : d.execCommand = .ok (d', ev)) :
    ∀ e ∈ ev, e.Fits (d.cmdLast = 9) := by
  cases execCommand_cases h with
  | rekey hcmd _ =>
      intro e he
      rw [List.mem_singleton.mp he]
      exact hcmd
  | _ => simp [Event.Fits]

/-- **The hooks of one `switch`.** -/
theorem dispatch_fits (h : d.dispatch s = .ok (d', ev)) :
    ∀ e ∈ ev, e.Fits (s = 46 ∧ d.cmdLast = 9 ∧ d.bits.code = 0) := by
  unfold dispatch at h
  split at h
  case h_23 =>
    have h : d.caseCommand = .ok (d', ev) := h
    obtain ⟨-, -, rfl⟩ | ⟨hcode, f, hexec, -⟩ := caseCommand_cases h
    · intro e he
      cases he
    · intro e he
      exact (execCommand_fits hexec e he).mono fun h9 => ⟨rfl, h9, hcode⟩
  case h_25 =>
    obtain ⟨-, rfl⟩ := ok_pair h
    exact casePrint_fits d
  case h_27 =>
    obtain ⟨-, rfl⟩ := ok_pair h
    exact caseFatal_fits d
  case h_32 =>
    obtain ⟨-, rfl⟩ := ok_pair h
    exact caseMode_fits d
  case h_28 | h_29 | h_30 =>
    obtain ⟨-, rfl⟩ := ok_pair h
    exact nextBlock_fits _ _
  case h_21 =>
    obtain ⟨e, he, h⟩ := bind_eq_ok.mp h
    cases h
    simp [Event.Fits]
  case h_18 =>
    cases h
    simp [Event.Fits]
  case h_11 | h_12 | h_13 | h_16 | h_17 | h_19 | h_20 | h_24 | h_26 | h_31 | h_33 | h_34 =>
    cases h
    simp
  all_goals
    rw [(quiet_eq_ok h).2]
    simp

theorem complete_eq (d : DvcDecoder) : d.complete =
    if d.bits.nextState = 2 ∧ d.pixelCount = 256 then
      (d.nextBlock 1).1.cache.cachePrune >>= fun c =>
        .ok ((d.nextBlock 1).1.setCache c, (d.nextBlock 1).2)
    else .ok (d, []) := rfl

theorem complete_fits (h : d.complete = .ok (d', ev)) : ∀ e ∈ ev, e.Fits rekey := by
  rw [complete_eq] at h
  have hfits := @nextBlock_fits rekey d 1
  generalize d.nextBlock 1 = r at h hfits
  split at h
  · obtain ⟨c, -, h⟩ := bind_eq_ok.mp h
    cases h
    exact hfits
  · cases h
    simp

/-- **The hooks of one round.** -/
theorem iterate_fits (hlt : d.bits.decoderState < 48) (h : d.iterate = .ok (.next d' ev)) :
    ∀ e ∈ ev, e.Fits (Rekeys d) := by
  obtain ⟨d₁, d₂, d₃, ev₁, ev₂, hw, rfl, -⟩ := iterate_next hlt h
  obtain ⟨hd₁, hst⟩ := fetch_eq hw.fetch
  intro e he
  rcases List.mem_append.mp he with he | he
  · refine (dispatch_fits hw.dispatch e he).mono ?_
    rintro ⟨h46, h9, hcode⟩
    have h46' := hst.symm.trans h46
    have hw1 : width d.bits.decoderState = 1 := by rw [h46']; decide
    refine ⟨h46', ?_, (fetch_bit (hw1 ▸ hw.fetch)).symm.trans hcode⟩
    rw [hd₁] at h9
    exact h9
  · exact complete_fits hw.complete e he

/-- The loop calls no hook that its rounds do not call. -/
theorem loop_fits {fuel n : Nat} : ∀ {d : DvcDecoder} {ev : List Event}, LoopInv d →
    loop fuel d = .ok (n, d', ev) → ∀ e ∈ ev, e.Fits True := by
  induction fuel with
  | zero => intro d ev _ h; cases h
  | succ fuel ih =>
      intro d ev hinv h
      obtain ⟨r, hr, hround⟩ := bind_eq_ok.mp h
      cases r with
      | wait =>
          cases hround
          simp
      | exit m e ev' =>
          obtain ⟨-, -, rfl⟩ := iterate_exit hinv hr
          cases hround
          simp
      | next e ev' =>
          obtain ⟨⟨m, e', ev''⟩, hrec, he⟩ := bind_eq_ok.mp hround
          cases he
          intro e he
          rcases List.mem_append.mp he with he | he
          · exact (iterate_fits hinv.lt hr e he).mono fun _ => trivial
          · exact ih (iterate_keeps hinv hr).1 hrec e he

/-- **The hooks of one byte.** -/
theorem processDvc_fits (hinv : ByteInv d) {c : UInt8} (h : d.processDvc c = .ok (d', ev)) :
    ∀ e ∈ ev, e.Fits True := by
  obtain ⟨e, n, e', ev', -, hbusy, hloop, -, rfl⟩ := loop_of_processDvc hinv h
  have hfits := loop_fits hbusy hloop
  split
  · intro e he
    rcases List.mem_append.mp he with he | he
    · exact hfits e he
    · rw [List.mem_singleton.mp he]
      trivial
  · exact hfits

/-! ### The bytes that rekey -/

/-- A round calls `on_change_key` if and only if it executes command 9. -/
theorem changeKey_mem_iterate (hinv : LoopInv d) (h : d.iterate = .ok (.next d' ev)) :
    .changeKey ∈ ev ↔ Rekeys d := by
  constructor
  · intro hmem
    exact iterate_fits hinv.lt h _ hmem
  · rintro ⟨h46, h9, hbit⟩
    obtain ⟨d₁, d₂, d₃, ev₁, ev₂, hw, rfl, -⟩ := iterate_next hinv.lt h
    obtain ⟨hd₁, hst⟩ := fetch_eq hw.fetch
    have hw1 : width d.bits.decoderState = 1 := by rw [h46]; decide
    have hcode : d₁.bits.code = 0 := (fetch_bit (hw1 ▸ hw.fetch)).trans hbit
    have hlast : d₁.cmdLast = 9 := by rw [hd₁]; exact h9
    have hdisp := hw.dispatch
    rw [hst, h46] at hdisp
    have hdisp : d₁.caseCommand = .ok (d₂, ev₁) := hdisp
    obtain ⟨hne, -, -⟩ | ⟨-, e, hexec, -⟩ := caseCommand_cases hdisp
    · exact absurd hcode hne
    unfold execCommand at hexec
    rw [hlast] at hexec
    obtain ⟨b, -, he⟩ := bind_eq_ok.mp hexec
    cases he
    exact List.mem_append_left _ (List.mem_singleton_self _)

/-- No round of the loop executes command 9. -/
def LoopQuiet : (fuel : Nat) → DvcDecoder → Prop
  | 0, _ => True
  | fuel + 1, d =>
      match d.iterate with
      | .ok (.next d' _) => ¬ Rekeys d ∧ LoopQuiet fuel d'
      | _ => True

/-- The byte `c` does not make the decoder execute command 9. -/
def Quiet (d : DvcDecoder) (c : UInt8) : Prop := ∀ e, d.enter c = .ok e → LoopQuiet e.rounds e

theorem changeKey_mem_loop {fuel n : Nat} : ∀ {d : DvcDecoder} {ev : List Event}, LoopInv d →
    loop fuel d = .ok (n, d', ev) → (.changeKey ∈ ev ↔ ¬ LoopQuiet fuel d) := by
  induction fuel with
  | zero => intro d ev _ h; cases h
  | succ fuel ih =>
      intro d ev hinv h
      obtain ⟨r, hr, hround⟩ := bind_eq_ok.mp h
      unfold LoopQuiet
      rw [hr]
      cases r with
      | wait =>
          cases hround
          simp
      | exit m e ev' =>
          obtain ⟨-, -, rfl⟩ := iterate_exit hinv hr
          cases hround
          simp
      | next e ev' =>
          obtain ⟨⟨m, e', ev''⟩, hrec, he⟩ := bind_eq_ok.mp hround
          cases he
          have hmem := changeKey_mem_iterate hinv hr
          have hrest := ih (iterate_keeps hinv hr).1 hrec
          dsimp only at hrest ⊢
          rw [List.mem_append, hmem, hrest, not_and_or, not_not]

/-- **`on_change_key` is called for the bytes that are not quiet.** -/
theorem changeKey_mem_processDvc (hinv : ByteInv d) {c : UInt8}
    (h : d.processDvc c = .ok (d', ev)) : .changeKey ∈ ev ↔ ¬ d.Quiet c := by
  obtain ⟨e, n, e', ev', he, hbusy, hloop, -, rfl⟩ := loop_of_processDvc hinv h
  have hquiet : d.Quiet c ↔ LoopQuiet e.rounds e := by
    constructor
    · intro hq
      exact hq e he
    · intro hq e' he'
      rw [he] at he'
      cases he'
      exact hq
  rw [hquiet, ← changeKey_mem_loop hbusy hloop]
  split
  · simp
  · rfl

end DvcDecoder

end Ilo2.Dvc
