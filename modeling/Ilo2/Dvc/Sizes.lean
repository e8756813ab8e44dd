import Ilo2.Dvc.Grid

/-!
# How large a screen gets

A mode command counts the screen in tiles, with seven bits each way, and four bits more for the
rows of an incomplete tile.

* `SizeInv` - the counts that have been read have seven bits.
* `processDvc_within` - **a resolution is within 2032 × 2047**.
-/

namespace Ilo2.Dvc

open Checked

/-- A resolution that a mode command can have. -/
def Event.Within : Event → Prop
  | .setDimensions w h => w ≤ 2032 ∧ h ≤ 2047
  | _ => True

/-- The column and the counts have seven bits. -/
structure SizeInv (d : DvcDecoder) : Prop where
  newx : d.newx < 128
  sizeX : d.sizeX < 128
  sizeY : d.sizeY < 128

/-- The counts are all that matters. -/
theorem SizeInv.of_eq {d d' : DvcDecoder} (h : SizeInv d) (hnewx : d'.newx = d.newx)
    (hsizeX : d'.sizeX = d.sizeX) (hsizeY : d'.sizeY = d.sizeY) : SizeInv d' :=
  ⟨hnewx ▸ h.newx, hsizeX ▸ h.sizeX, hsizeY ▸ h.sizeY⟩

theorem SizeInv.of_layout {d d' : DvcDecoder} (h : SizeInv d) (hlayout : d'.layout = d.layout) :
    SizeInv d' := by
  simp only [DvcDecoder.layout, Prod.mk.injEq] at hlayout
  obtain ⟨⟨-, -, hnewx⟩, ⟨hsizeX, hsizeY⟩, -, -⟩ := hlayout
  exact h.of_eq hnewx hsizeX hsizeY

namespace DvcDecoder

variable {d d' : DvcDecoder} {s : Nat} {ev : List Event}

theorem nextBlock_within (d : DvcDecoder) (count : Nat) :
    ∀ e ∈ (d.nextBlock count).2, e.Within := by
  intro e he
  obtain ⟨x, rfl⟩ := nextBlock_hooks d count e he
  trivial

/-- A resolution is set by a mode command alone. -/
theorem caseMode_within (hs : SizeInv d) (hcode : d.bits.code < 16) :
    ∀ e ∈ d.caseMode.2, e.Within := by
  have hx := hs.sizeX
  have hy := hs.sizeY
  intro e he
  unfold caseMode at he
  dsimp only at he
  split at he
  · simp only [List.mem_cons, List.not_mem_nil, or_false] at he
    rcases he with rfl | rfl <;> trivial
  · simp only [List.mem_cons, List.not_mem_nil, or_false] at he
    rcases he with rfl | rfl | rfl
    · exact ⟨by omega, by omega⟩
    · trivial
    · trivial

theorem casePrint_within (d : DvcDecoder) : ∀ e ∈ d.casePrint.2, e.Within := by
  intro e he
  unfold casePrint at he
  split at he
  · cases he
  · dsimp only at he
    split at he
    all_goals first | (rw [List.mem_singleton.mp he]; trivial) | cases he

/-- **The hooks of one `switch`.** -/
theorem dispatch_within (hs : SizeInv d) (hcode : s = 47 → d.bits.code < 16)
    (h : d.dispatch s = .ok (d', ev)) : ∀ e ∈ ev, e.Within := by
  unfold dispatch at h
  split at h
  case h_23 =>
    have h : d.caseCommand = .ok (d', ev) := h
    obtain ⟨-, -, rfl⟩ | ⟨-, f, hexec, -⟩ := caseCommand_cases h
    · intro e he
      cases he
    · cases execCommand_cases hexec <;> simp [Event.Within]
  case h_25 =>
    obtain ⟨-, rfl⟩ := ok_pair h
    exact casePrint_within d
  case h_27 =>
    obtain ⟨-, rfl⟩ := ok_pair h
    obtain ⟨n, ev, heq, hrefresh⟩ := d.caseFatal_counts
    rw [heq]
    intro e he
    rw [hrefresh e he]
    trivial
  case h_32 =>
    obtain ⟨-, rfl⟩ := ok_pair h
    exact caseMode_within hs (hcode rfl)
  case h_28 | h_29 | h_30 =>
    obtain ⟨-, rfl⟩ := ok_pair h
    exact nextBlock_within _ _
  case h_21 =>
    obtain ⟨e, he, h⟩ := bind_eq_ok.mp h
    cases h
    simp [Event.Within]
  case h_18 =>
    cases h
    simp [Event.Within]
  case h_11 | h_12 | h_13 | h_16 | h_17 | h_19 | h_20 | h_24 | h_26 | h_31 | h_33 | h_34 =>
    cases h
    simp
  all_goals
    rw [(quiet_eq_ok h).2]
    simp

end DvcDecoder

/-! ### The counts -/

variable {t : Step}

/-- The bits that a state has read. -/
theorem Step.Went.code_lt (h : t.Went) (hinv : LoopInv t.before) {s n : Nat} (hs : t.state = s)
    (hwidth : width s = n) (hn : 1 ≤ n) : t.read.bits.code < 2 ^ n := by
  have hcode := (h.read_inv hinv).code
  rw [hs, hwidth] at hcode
  exact hcode hn

theorem SizeInv.mode {d : DvcDecoder} (hs : SizeInv d) : SizeInv d.caseMode.1 := by
  unfold DvcDecoder.caseMode
  dsimp only
  split <;> exact hs.of_eq rfl rfl rfl

/-- **The counts after a `switch`**: the states that read one read seven bits. -/
theorem SizeInv.switched (hs : SizeInv t.before) (hinv : LoopInv t.before) (h : t.Went) :
    SizeInv t.switched := by
  have hread : SizeInv t.read := hs.of_layout h.layout_read
  by_cases hp : DvcDecoder.Places t.state
  swap
  · exact hs.of_layout (h.layout_switched hinv hp)
  have hkeeps : t.state = 0 ∨ t.state = 20 ∨ t.state = 21 ∨ t.state = 29 ∨ t.state = 30 ∨
      t.state = 34 ∨ t.state = 39 → SizeInv t.switched := by
    rintro (hp | hp | hp | hp | hp | hp | hp)
    all_goals
      rw [(h.switched_eq hp rfl).1]
      exact hread.of_eq rfl rfl rfl
  have hcases : t.state = 17 ∨ t.state = 26 ∨ t.state = 40 ∨ t.state = 47 ∨
      (t.state = 0 ∨ t.state = 20 ∨ t.state = 21 ∨ t.state = 29 ∨ t.state = 30 ∨ t.state = 34 ∨
        t.state = 39) := by
    unfold DvcDecoder.Places at hp
    omega
  rcases hcases with h17 | h26 | h40 | h47 | hkeep
  · -- A column.
    have hcode := h.code_lt hinv h17 (show width 17 = 7 by decide) (by decide)
    rw [(h.switched_eq h17 rfl).1]
    refine ⟨?_, hread.sizeX, hread.sizeY⟩
    show (if 17 = 17 ∧ t.read.bits.code > t.read.sizeX then 0 else t.read.bits.code) < 128
    split <;> omega
  · -- A column, or a width that state 40 takes.
    have hcode := h.code_lt hinv h26 (show width 26 = 7 by decide) (by decide)
    rw [(h.switched_eq h26 rfl).1]
    refine ⟨?_, hread.sizeX, hread.sizeY⟩
    show (if 26 = 17 ∧ t.read.bits.code > t.read.sizeX then 0 else t.read.bits.code) < 128
    split <;> omega
  · -- A height.
    have hcode := h.code_lt hinv h40 (show width 40 = 7 by decide) (by decide)
    rw [(h.switched_eq h40 rfl).1]
    exact ⟨hread.newx, hread.newx, hcode⟩
  · have hsw : t.switched = t.read.caseMode.1 := (h.switched_eq h47 rfl).1
    rw [hsw]
    exact hread.mode
  · exact hkeeps hkeep

theorem SizeInv.round (hs : SizeInv t.before) (hinv : LoopInv t.before) (h : t.Went) :
    SizeInv t.after ∧ ∀ e ∈ t.hooks, e.Within := by
  have hswitched := hs.switched hinv h
  have hread : SizeInv t.read := hs.of_layout h.layout_read
  have hhooks := DvcDecoder.dispatch_within hread
    (fun h47 => h.code_lt hinv h47 (show width 47 = 4 by decide) (by decide)) h.switch
  obtain ⟨-, -, c, hcomp, hev⟩ | ⟨-, hcomp, hev⟩ := DvcDecoder.complete_cases h.complete
  · refine ⟨?_, ?_⟩
    · unfold Step.after
      rw [hcomp]
      exact hswitched.of_eq rfl rfl rfl
    · unfold Step.hooks
      rw [hev]
      exact List.forall_mem_append.mpr ⟨hhooks, DvcDecoder.nextBlock_within _ _⟩
  · refine ⟨?_, ?_⟩
    · unfold Step.after
      rw [hcomp]
      exact hswitched.of_eq rfl rfl rfl
    · unfold Step.hooks
      rw [hev, List.append_nil]
      exact hhooks

/-! ### A run -/

variable {d d' : DvcDecoder} {ev : List Event}

theorem loop_within {fuel n : Nat} : ∀ {d : DvcDecoder} {ev : List Event}, LoopInv d →
    SizeInv d → DvcDecoder.loop fuel d = .ok (n, d', ev) →
    SizeInv d' ∧ ∀ e ∈ ev, e.Within := by
  induction fuel with
  | zero => intro d ev _ _ h; cases h
  | succ fuel ih =>
      intro d ev hinv hs h
      obtain ⟨r, hr, hround⟩ := bind_eq_ok.mp h
      cases r with
      | wait =>
          cases hround
          exact ⟨hs, fun e he => by cases he⟩
      | exit m e ev' =>
          obtain ⟨-, hfetch, rfl⟩ := DvcDecoder.iterate_exit hinv hr
          have heq := (DvcDecoder.fetch_eq hfetch).1
          cases hround
          refine ⟨?_, fun e he => by cases he⟩
          rw [heq]
          exact hs.of_eq rfl rfl rfl
      | next e ev' =>
          obtain ⟨t, -, rfl, hwent, rfl, rfl⟩ := went_of_iterate hinv hr
          obtain ⟨hafter, hhooks⟩ := hs.round hinv hwent
          obtain ⟨⟨m, e', ev''⟩, hrec, he⟩ := bind_eq_ok.mp hround
          cases he
          obtain ⟨hend, hrest⟩ := ih (iterate_keeps hinv hr).1 hafter hrec
          exact ⟨hend, List.forall_mem_append.mpr ⟨hhooks, hrest⟩⟩

/-- **One byte.** -/
theorem processDvc_within (hinv : ByteInv d) (hs : SizeInv d) {c : UInt8}
    (h : d.processDvc c = .ok (d', ev)) : SizeInv d' ∧ ∀ e ∈ ev, e.Within := by
  obtain ⟨e, n, e', ev', henter, hbusy, hloop, rfl, rfl⟩ := loop_of_processDvc hinv h
  obtain ⟨f, henter', -, heq, -⟩ := enter_ok hinv c
  rw [henter] at henter'
  cases henter'
  have hentered : SizeInv e := by
    rw [heq]
    exact hs.of_eq rfl rfl rfl
  obtain ⟨hend, hhooks⟩ := loop_within hbusy hentered hloop
  split
  · refine ⟨hend.of_eq rfl rfl rfl, List.forall_mem_append.mpr ⟨hhooks, fun e he => ?_⟩⟩
    rw [List.mem_singleton.mp he]
    trivial
  · exact ⟨hend, hhooks⟩

end Ilo2.Dvc
