import Ilo2.Dvc.Leftover

/-!
# Resynchronisation

Two decoders that have been restarted agree but for what is left over, and stay so, with
one exception: with an empty palette state 31 jumps through the stale `next_1_[31]`.  From
there both go astray: whatever the jump leads to finds no colour, and waits in state 38 for
the next marker, which restarts both at the same byte.

* `near_of_feed` - two such decoders call the same hooks for every stream that one of them
  takes, calls of `on_refresh_screen` aside.
* `resync_erases` - **a reset marker erases the past**, if and only if no parameter is stored
  past the end of `cmd_p_buff`.
-/

namespace Ilo2.Dvc

open Checked DvcBits

/-- What a decoder that is astray keeps until the next restart. -/
def DvcDecoder.frame (d : DvcDecoder) : Nat × Nat × Int × Bool × Vector Nat 256 × Nat :=
  (d.sizeX, d.sizeY, d.yClipped, d.videoDetected, d.block, d.bits.zeroCount)

/-- On its way to the error state, or there. -/
def Astray (d : DvcDecoder) : Prop :=
  d.bits.decoderState = 38 ∨ (d.cache.ccActive = 0 ∧ d.bits.decoderState ∈ [4, 5, 6, 7, 32, 35])

/-- The states that a decoder passes through between two resets. -/
def Inner (s : Nat) : Prop := s ≠ 0 ∧ s ≠ 35 ∧ s ≠ 43

/-- Two decoders that agree, or have both gone astray. -/
def Together (d e : DvcDecoder) : Prop :=
  (Agree d.bits.decoderState d e ∧ Inner d.bits.decoderState) ∨
    (Astray d ∧ Astray e ∧ d.frame = e.frame)

/-- The calls that are compared. -/
def visible (ev : List Event) : List Event := ev.filter (· ≠ .refreshScreen)

theorem visible_append (ev ev' : List Event) : visible (ev ++ ev') = visible ev ++ visible ev' :=
  List.filter_append ..

theorem visible_refresh {ev : List Event} (h : ∀ e ∈ ev, e = .refreshScreen) : visible ev = [] := by
  apply List.filter_eq_nil_iff.mpr
  intro e he
  rw [h e he]
  decide

namespace DvcDecoder

variable {d d' e : DvcDecoder} {x : Leftover} {s n : Nat} {ev : List Event}

/-! ### Astray -/

theorem pixfan_mem (a : Nat) : pixfan a = 38 ∨ pixfan a ∈ [4, 5, 6, 7, 32, 35] := by
  rcases pixfan_cases a with h | h | h | h | h | h <;> rw [h] <;> decide

/-- An empty palette has no colour. -/
theorem casePalette_empty (h : d.cache.ccActive = 0) :
    ∃ code, d.casePalette s = .ok (((d.setCode code).setCache d.cache).setNext 38) := by
  obtain ⟨code, hcode⟩ := paletteCode_ok d s
  refine ⟨code, ?_⟩
  have hfind : d.cache.cacheFind code = .ok (-1, d.cache) := by
    unfold DvcCache.cacheFind
    rw [h]
    rfl
  unfold casePalette
  rw [hcode, ok_bind, hfind, ok_bind]
  exact if_pos rfl

/-- A round that goes astray, or is. -/
structure Strays (d d' : DvcDecoder) (ev : List Event) : Prop where
  astray : Astray d'
  frame : d'.frame = d.frame
  refresh : ∀ e ∈ ev, e = Event.refreshScreen

/-- The round ends in an astray state: the completion branch is not taken. -/
theorem strays_of_went {d₁ d₂ d₃ : DvcDecoder} {ev ev' : List Event}
    (hw : Went d d₁ d₂ d₃ ev ev') (hframe : d₂.frame = d.frame)
    (hnext : d₂.bits.nextState = 38 ∨
      (d₂.cache.ccActive = 0 ∧ d₂.bits.nextState ∈ [4, 5, 6, 7, 32, 35]))
    (hev : ∀ e ∈ ev, e = Event.refreshScreen) :
    Strays d { d₃ with bits.decoderState := d₃.bits.nextState } (ev ++ ev') := by
  have hne : d₂.bits.nextState ≠ 2 := by
    rcases hnext with h | ⟨-, h⟩
    · omega
    · intro h2
      rw [h2] at h
      exact absurd h (by decide)
  have hcomp := hw.complete
  rw [complete_of_ne hne] at hcomp
  cases hcomp
  rw [List.append_nil]
  exact ⟨hnext, hframe, hev⟩

theorem iterate_astray (hinv : LoopInv d) (h : Astray d) (hit : d.iterate = .ok (.next d' ev)) :
    Strays d d' ev := by
  have hs : d.bits.decoderState ∈ [38, 4, 5, 6, 7, 32, 35] := by
    rcases h with h | ⟨-, h⟩
    · rw [h]
      decide
    · exact List.mem_cons_of_mem _ h
  have hhunt : d.bits.decoderState ≠ HUNT := by
    intro he
    rw [he] at hs
    exact absurd hs (by decide)
  obtain ⟨d₁, d₂, d₃, ev₁, ev₂, hw, rfl, rfl⟩ := iterate_next hinv.lt hit
  obtain ⟨hd₁, hst⟩ := fetch_eq hw.fetch
  have hzc := (fetch_moves hinv.data hinv.lt hhunt hw.fetch).1.zeroCount
  have hframe₁ : d₁.frame = d.frame := by
    rw [hd₁]
    unfold frame
    rw [← hzc]
  have hactive₁ : d₁.cache = d.cache := by rw [hd₁]
  have hdisp := hw.dispatch
  rw [hst] at hdisp
  rcases h with h38 | ⟨hactive, hmem⟩
  · have hnext := fetch_next hinv.data hinv.lt (by omega) hw.fetch
    have hnext : d₁.bits.nextState = 38 := by
      rw [hnext, h38]
      split <;> decide
    rw [h38] at hdisp
    obtain ⟨rfl, rfl⟩ : d₁.caseFatal.1 = d₂ ∧ d₁.caseFatal.2 = ev₁ := ok_pair hdisp
    obtain ⟨n, ev, heq, hrefresh⟩ := d₁.caseFatal_counts
    rw [heq] at hw ⊢
    exact strays_of_went hw hframe₁ (Or.inl hnext) hrefresh
  by_cases h35 : d.bits.decoderState = 35
  · rw [h35] at hdisp
    cases hdisp
    obtain ⟨L, hP, -⟩ := hinv.data.palette
    obtain ⟨a, ha⟩ := hP.pixcode
    have hnext : (d₁.setNext d₁.cache.pixcode).bits.nextState = pixfan a := by
      rw [hactive₁]
      exact ha
    refine strays_of_went hw hframe₁ ?_ nofun
    rw [hnext]
    exact (pixfan_mem a).imp_right fun h => ⟨hactive₁ ▸ hactive, h⟩
  · have hpalette : d₁.dispatch d.bits.decoderState =
        quiet (d₁.casePalette d.bits.decoderState) := by
      simp only [List.mem_cons, List.not_mem_nil, or_false] at hmem
      rcases hmem with h | h | h | h | h | h
      all_goals first | (rw [h]; rfl) | exact absurd h h35
    obtain ⟨code, hcode⟩ := casePalette_empty (s := d.bits.decoderState)
      (show d₁.cache.ccActive = 0 by rw [hactive₁]; exact hactive)
    rw [hpalette, hcode] at hdisp
    cases hdisp
    exact strays_of_went hw hframe₁ (Or.inl rfl) nofun

/-- **The error state keeps what the screen needs**, and calls for a refresh at most. -/
theorem loop_astray {fuel : Nat} : ∀ {d : DvcDecoder} {ev : List Event}, LoopInv d → Astray d →
    loop fuel d = .ok (n, d', ev) → n = 0 ∧ Strays d d' ev := by
  induction fuel with
  | zero =>
      intro d ev _ _ h
      cases h
  | succ fuel ih =>
      intro d ev hinv ha h
      obtain ⟨r, hr, hround⟩ := bind_eq_ok.mp h
      cases r with
      | wait =>
          cases hround
          exact ⟨rfl, ha, rfl, nofun⟩
      | exit m e ev' =>
          have h37 := (iterate_keeps hinv hr).2.1
          rcases ha with h38 | ⟨-, hmem⟩
          · omega
          · rw [h37] at hmem
            exact absurd hmem (by decide)
      | next e ev' =>
          obtain ⟨⟨m, e', ev''⟩, hrec, he⟩ := bind_eq_ok.mp hround
          cases he
          have hone := iterate_astray hinv ha hr
          obtain ⟨hm, hrest⟩ := ih (iterate_keeps hinv hr).1 hone.astray hrec
          refine ⟨hm, hrest.astray, hrest.frame.trans hone.frame, fun o ho => ?_⟩
          rcases List.mem_append.mp ho with ho | ho
          · exact hone.refresh o ho
          · exact hrest.refresh o ho

/-! ### Together -/

theorem fetch_inherit {need : Nat} (hlt : d.bits.decoderState < 48)
    (hnext : d'.bits.code = 0 ∨
      look 0 x.next1 d.bits.decoderState = look 0 d.next1 d.bits.decoderState)
    (h : d.fetch need = .ok d') : (d.inherit x).fetch need = .ok (d'.inherit x) := by
  have hst := (fetch_eq h).2
  obtain ⟨b, hb, h⟩ := bind_eq_ok.mp h
  obtain ⟨n, hn, h⟩ := bind_eq_ok.mp h
  cases h
  have hst : b.decoderState = d.bits.decoderState := hst
  have hb' : (d.inherit x).bits.getBits need = .ok b := hb
  unfold fetch
  rw [hb', ok_bind]
  have hn' : rd Fault.table (if b.code = 0 then next0 else (d.inherit x).next1) b.decoderState =
      .ok n := by
    rw [hst, rd_eq_look 0 hlt] at hn ⊢
    rw [← hn]
    split
    · rfl
    · rename_i hcode
      exact congrArg Except.ok (hnext.resolve_left hcode)
  rw [hn']
  rfl

/-- The completion branch. -/
theorem complete_inherit (hd : Covers d.bits.nextState d.held x.toHeld) {n : Nat}
    (hn : d.bits.nextState = n) (h : d.complete = .ok (d', ev)) :
    ∃ x', (d.inherit x).complete = .ok (d'.inherit x', ev) ∧
      Covers d'.bits.nextState d'.held x'.toHeld ∧ (d'.bits.nextState = n ∨ d'.bits.nextState = 1) := by
  unfold complete at h ⊢
  by_cases hc : d.bits.nextState = 2 ∧ d.pixelCount = 256
  · rw [if_pos hc] at h
    rw [if_pos (show (d.inherit x).bits.nextState = 2 ∧ (d.inherit x).pixelCount = 256 from hc)]
    obtain ⟨L, hP, hP'⟩ := hd.palette
    obtain ⟨c, hprune, hPc⟩ := hP.cachePrune_spec
    obtain ⟨c', hprune', hPc'⟩ := hP'.cachePrune_spec
    have hprune : (d.nextBlock 1).1.cache.cachePrune = .ok c := hprune
    have hprune' : ((d.inherit x).nextBlock 1).1.cache.cachePrune = .ok c' := hprune'
    dsimp only at h ⊢
    rw [hprune, ok_bind] at h
    rw [hprune', ok_bind]
    cases h
    exact ⟨{ x with cache := c', next1 := x.next1.set 31 c'.next131 }, rfl,
      .free (Or.inl rfl) ⟨_, hPc, hPc'⟩, Or.inr rfl⟩
  · rw [if_neg hc] at h
    rw [if_neg (show ¬ ((d.inherit x).bits.nextState = 2 ∧ (d.inherit x).pixelCount = 256) from hc)]
    cases h
    exact ⟨x, rfl, hd, Or.inl hn⟩

/-- State 31 with an empty palette: the jump goes astray. -/
theorem iterate_stray (hinv : LoopInv d) (h31 : d.bits.decoderState = 31)
    (hbit : d.bits.ibAcc &&& 1 = 1) (hactive : d.cache.ccActive = 0)
    (hit : d.iterate = .ok (.next d' ev)) : Strays d d' ev := by
  obtain ⟨d₁, d₂, d₃, ev₁, ev₂, hw, rfl, rfl⟩ := iterate_next hinv.lt hit
  obtain ⟨hd₁, hst⟩ := fetch_eq hw.fetch
  have hw1 : width d.bits.decoderState = 1 := by rw [h31]; decide
  have hfetch := hw.fetch
  have hbits := hw.bits
  rw [hw1] at hfetch hbits
  rw [fetch_one hbits hinv.lt, hbit, if_neg (by decide), h31] at hfetch
  have hdisp := hw.dispatch
  rw [hst, h31] at hdisp
  cases hdisp
  have hnext : d₁.bits.nextState = look 0 d.next1 31 := by
    rw [← Except.ok.inj hfetch]
  have hcache : d₁.cache = d.cache := by rw [hd₁]
  refine strays_of_went hw ?_ ?_ nofun
  · rw [← Except.ok.inj hfetch]
    rfl
  · rw [hnext, hinv.data.next1, look_set (by decide), if_pos rfl, hcache]
    obtain ⟨L, hP, -⟩ := hinv.data.palette
    rcases hP.next131 with h | ⟨a, h⟩
    · rw [h]
      exact Or.inr ⟨hactive, by decide⟩
    · rw [h]
      exact (pixfan_mem a).imp_right fun h => ⟨hactive, h⟩

/-- The tables of two agreeing decoders differ in the patched entry at most, and there
only while the palette is empty. -/
theorem look_next1 (hd : DataInv d) (he : DataInv (d.inherit x)) (h : Covers s d.held x.toHeld)
    (hs : s ≠ 31 ∨ d.cache.ccActive ≠ 0) : look 0 x.next1 s = look 0 d.next1 s := by
  have hx : x.next1 = next1Init.set 31 x.cache.next131 := he.next1
  rw [hx, hd.next1, look_set (by decide), look_set (by decide)]
  by_cases h31 : s = 31
  · rw [if_pos h31, if_pos h31]
    obtain ⟨L, hP, hP'⟩ := h.palette
    have hactive : x.cache.ccActive = d.cache.ccActive := hP'.ranked.len.symm.trans hP.ranked.len
    have hpos : 1 ≤ d.cache.ccActive := Nat.pos_of_ne_zero (hs.resolve_left (not_not.mpr h31))
    have hfan : d.cache.next131 = pixfan d.cache.ccActive := (hP.fan hpos).2
    have hfan' : x.cache.next131 = pixfan x.cache.ccActive := (hP'.fan (hactive ▸ hpos)).2
    rw [hfan, hfan', hactive]
  · rw [if_neg h31, if_neg h31]

/-- The successor that a round looks up, in a state between two resets. -/
theorem fetch_flow {need : Nat} (hinv : LoopInv d) (hs : Inner d.bits.decoderState)
    (h31 : d'.bits.code = 0 ∨ d.bits.decoderState ≠ 31 ∨ d.cache.ccActive ≠ 0)
    (h : d.fetch need = .ok d') : Flow d.bits.decoderState d'.bits.nextState := by
  have htab := flow_tables _ hinv.lt hs
  rw [fetch_look hinv.lt h]
  split
  · exact htab.1
  rename_i hcode
  rw [hinv.data.next1, look_set (by decide)]
  split
  · rename_i hs31
    have hpos := (h31.resolve_left hcode).resolve_left (not_not.mpr hs31)
    obtain ⟨L, hP, -⟩ := hinv.data.palette
    rw [(hP.fan (Nat.pos_of_ne_zero hpos)).2, hs31]
    rcases pixfan_cases d.cache.ccActive with h | h | h | h | h | h <;> rw [h] <;> decide +kernel
  · rename_i hs31
    exact htab.2 hs31

/-- **A round of two agreeing decoders.** -/
theorem iterate_together {e' : DvcDecoder} {ev' : List Event} (hd : LoopInv d)
    (he : LoopInv (d.inherit x)) (h : Covers d.bits.decoderState d.held x.toHeld)
    (hs : Inner d.bits.decoderState) (hit : d.iterate = .ok (.next d' ev))
    (hit' : (d.inherit x).iterate = .ok (.next e' ev')) :
    Together d' e' ∧ visible ev = visible ev' := by
  obtain ⟨L, hP, hP'⟩ := h.palette
  have hactive : x.cache.ccActive = d.cache.ccActive := hP'.ranked.len.symm.trans hP.ranked.len
  by_cases hstray : d.bits.decoderState = 31 ∧ d.bits.ibAcc &&& 1 = 1 ∧ d.cache.ccActive = 0
  · obtain ⟨h31, hbit, hempty⟩ := hstray
    have hone := iterate_stray hd h31 hbit hempty hit
    have hother := iterate_stray he h31 hbit (hactive.trans hempty) hit'
    refine ⟨Or.inr ⟨hone.astray, hother.astray, hone.frame.trans hother.frame.symm⟩, ?_⟩
    rw [visible_refresh hone.refresh, visible_refresh hother.refresh]
  obtain ⟨d₁, d₂, d₃, ev₁, ev₂, hw, rfl, rfl⟩ := iterate_next hd.lt hit
  obtain ⟨e₁, e₂, e₃, ev₁', ev₂', hw', rfl, rfl⟩ := iterate_next he.lt hit'
  obtain ⟨hd₁, hst⟩ := fetch_eq hw.fetch
  have h31 : d₁.bits.code = 0 ∨ d.bits.decoderState ≠ 31 ∨ d.cache.ccActive ≠ 0 := by
    by_cases hs31 : d.bits.decoderState = 31
    · have hw1 : width d.bits.decoderState = 1 := by rw [hs31]; decide
      have hbit := fetch_bit (hw1 ▸ hw.fetch)
      have hmod : d.bits.ibAcc &&& 1 = d.bits.ibAcc % 2 := Nat.and_one_is_mod _
      by_cases hempty : d.cache.ccActive = 0
      · have hne : d.bits.ibAcc &&& 1 ≠ 1 := fun hb => hstray ⟨hs31, hb, hempty⟩
        exact Or.inl (by omega)
      · exact Or.inr (Or.inr hempty)
    · exact Or.inr (Or.inl hs31)
  have hfetch := fetch_inherit (x := x) hd.lt (h31.imp_right (look_next1 hd.data he.data h)) hw.fetch
  obtain rfl : d₁.inherit x = e₁ := Except.ok.inj (hfetch.symm.trans hw'.fetch)
  have hflow := fetch_flow hd hs h31 hw.fetch
  have h37 : d.bits.decoderState ≠ 37 := hst ▸ hw.state
  obtain ⟨d₁', hok, hfetched⟩ := fetch_ok hd hw.bits
  obtain rfl : d₁ = d₁' := Except.ok.inj (hw.fetch.symm.trans hok)
  have hheld : d₁.held = d.held := by rw [hd₁]; rfl
  have hfits : d.bits.decoderState = 24 → d₁.cmdPCount ≤ 256 := fun h24 =>
    hfetched.count ▸ fits_of_iterate hd hit h24 (h24 ▸ hw.bits)
  obtain ⟨d₂', e₂', ev, hdisp, hdisp', hagree, hf⟩ :=
    dispatch_follows (hfetched.read h37) (hheld ▸ h) hflow hs hfits
  have hstate : d₁.bits.decoderState = d.bits.decoderState := hst
  have hdisp₁ := hw.dispatch
  have hdisp₂ := hw'.dispatch
  have hstate' : (d₁.inherit x).bits.decoderState = d.bits.decoderState := hst
  rw [hstate, hdisp] at hdisp₁
  rw [hstate', hdisp'] at hdisp₂
  cases hdisp₁
  cases hdisp₂
  have hcomp' := hw'.complete
  rw [hagree.rest] at hcomp'
  obtain ⟨x', hcomp, hcovers, hn⟩ := complete_inherit (x := e₂.leftover) hagree.covers rfl hw.complete
  rw [hcomp] at hcomp'
  cases hcomp'
  refine ⟨Or.inl ⟨⟨rfl, hcovers⟩, ?_⟩, rfl⟩
  rcases hn with hn | hn
  · exact hn ▸ hf.inner
  · show Inner d₃.bits.nextState
    rw [hn]
    exact ⟨by decide, by decide, by decide⟩

end DvcDecoder

/-! ### The loop -/

/-- What `process_dvc` makes of the end of the loop. -/
def settle (n : Nat) (d : DvcDecoder) : DvcDecoder := if n ≠ 0 then d.resync else d

namespace DvcDecoder

variable {d d' e e' : DvcDecoder} {n m : Nat} {ev ev' : List Event}

/-- The bits and the state decide how a round ends. -/
theorem iterate_kind {r : Round} (hinv : LoopInv d) (hit : d.iterate = .ok r) :
    match r with
    | .wait => d.bits.ibBcnt < width d.bits.decoderState
    | .exit _ _ _ => d.bits.decoderState = 37
    | .next _ _ => width d.bits.decoderState ≤ d.bits.ibBcnt ∧ d.bits.decoderState ≠ 37 := by
  have hkeeps := iterate_keeps hinv hit
  cases r with
  | wait => exact hkeeps
  | exit n e ev => exact hkeeps.2.1
  | next e ev =>
      obtain ⟨d₁, d₂, d₃, ev₁, ev₂, hw, -, -⟩ := iterate_next hinv.lt hit
      exact ⟨hw.bits, (fetch_eq hw.fetch).2 ▸ hw.state⟩

/-- What two decoders that are together have in common. -/
theorem Together.frame (h : Together d e) : d.frame = e.frame := by
  rcases h with ⟨h, -⟩ | ⟨-, -, h⟩
  · rw [h.rest]
    rfl
  · exact h

/-- Two decoders that agree leave the loop in the same state. -/
theorem exit_together {x : Leftover} (hd : LoopInv d) (he : LoopInv (d.inherit x))
    (hcovers : Covers d.bits.decoderState d.held x.toHeld)
    (hr : d.iterate = .ok (.exit n d' ev)) (hr' : (d.inherit x).iterate = .ok (.exit m e' ev')) :
    n = m ∧ Together (settle n d') (settle m e') ∧ visible ev = visible ev' := by
  obtain ⟨h37, hfetch, rfl⟩ := iterate_exit hd hr
  obtain ⟨-, hfetch', rfl⟩ := iterate_exit he hr'
  obtain ⟨rfl, -⟩ := iterate_keeps hd hr
  obtain ⟨rfl, -⟩ := iterate_keeps he hr'
  have hsame := fetch_inherit (x := x) hd.lt
    (Or.inr (look_next1 hd.data he.data hcovers (by omega))) hfetch
  obtain rfl := Except.ok.inj (hsame.symm.trans hfetch')
  have hcache : d'.cache = d.cache := by rw [(fetch_eq hfetch).1]
  have hP : ∃ L, PaletteInv d'.cache L ∧ PaletteInv x.cache L := hcache ▸ hcovers.palette
  have hinner : Inner 38 := ⟨by decide, by decide, by decide⟩
  exact ⟨rfl, Or.inl ⟨⟨rfl, .free (Or.inr rfl) hP⟩, hinner⟩, rfl⟩

theorem loop_together {fuel : Nat} : ∀ {d e : DvcDecoder} {ev ev' : List Event}, LoopInv d →
    LoopInv e → Together d e → loop fuel d = .ok (n, d', ev) → loop fuel e = .ok (m, e', ev') →
    n = m ∧ Together (settle n d') (settle m e') ∧ visible ev = visible ev' := by
  induction fuel with
  | zero =>
      intro d e ev ev' _ _ _ h
      cases h
  | succ fuel ih =>
      intro d e ev ev' hd he htog h h'
      rcases htog with ⟨hagree, hinner⟩ | ⟨ha, ha', hframe⟩
      · obtain ⟨r, hr, hround⟩ := bind_eq_ok.mp h
        obtain ⟨r', hr', hround'⟩ := bind_eq_ok.mp h'
        obtain ⟨x, rfl⟩ : ∃ x, e = d.inherit x := ⟨_, hagree.rest⟩
        have hbits : (d.inherit x).bits = d.bits := rfl
        have hkind := iterate_kind hd hr
        have hkind' := iterate_kind he hr'
        rw [hbits] at hkind'
        have h37 : width 37 = 0 := by decide
        cases r with
        | wait =>
            cases r' with
            | wait =>
                cases hround
                cases hround'
                exact ⟨rfl, Or.inl ⟨hagree, hinner⟩, rfl⟩
            | exit _ _ _ => rw [hkind', h37] at hkind; omega
            | next _ _ => omega
        | exit n₁ d₁ ev₁ =>
            cases r' with
            | wait => rw [hkind, h37] at hkind'; omega
            | exit n₂ e₁ ev₂ =>
                cases hround
                cases hround'
                exact exit_together hd he hagree.covers hr hr'
            | next _ _ => exact absurd hkind hkind'.2
        | next d₁ ev₁ =>
            cases r' with
            | wait => omega
            | exit _ _ _ => exact absurd hkind' hkind.2
            | next e₁ ev₂ =>
                obtain ⟨⟨n', d₂, evd⟩, hrec, hd₂⟩ := bind_eq_ok.mp hround
                obtain ⟨⟨m', e₂, eve⟩, hrec', he₂⟩ := bind_eq_ok.mp hround'
                cases hd₂
                cases he₂
                obtain ⟨htog, hev⟩ := iterate_together hd he hagree.covers hinner hr hr'
                have hkeeps := iterate_keeps hd hr
                have hkeeps' := iterate_keeps he hr'
                obtain ⟨hn, hlast, hev'⟩ := ih hkeeps.1 hkeeps'.1 htog hrec hrec'
                exact ⟨hn, hlast, by rw [visible_append, visible_append, hev, hev']⟩
      · obtain ⟨rfl, hone⟩ := loop_astray hd ha h
        obtain ⟨rfl, hother⟩ := loop_astray he ha' h'
        refine ⟨rfl, Or.inr ⟨hone.astray, hother.astray, ?_⟩, ?_⟩
        · exact hone.frame.trans (hframe.trans hother.frame.symm)
        · rw [visible_refresh hone.refresh, visible_refresh hother.refresh]

/-- No state on the way to the error state stores a parameter. -/
theorem loopFits_astray {fuel : Nat} : ∀ {d : DvcDecoder}, LoopInv d → Astray d →
    LoopFits fuel d := by
  induction fuel with
  | zero => intro d _ _; trivial
  | succ fuel ih =>
      intro d hinv ha
      have hfits : Fits d := by
        intro h24
        rcases ha with h38 | ⟨-, hmem⟩
        · omega
        · rw [h24] at hmem
          exact absurd hmem (by decide)
      obtain ⟨r, hr, hkeeps⟩ := iterate_ok hinv hfits
      refine ⟨hfits, ?_⟩
      rw [hr]
      cases r with
      | next d' ev => exact ih hkeeps.1 (iterate_astray hinv ha hr).astray
      | _ => trivial

/-- **Two decoders that are together** store their parameters at the same places. -/
theorem loopFits_together {fuel : Nat} : ∀ {d e : DvcDecoder}, LoopInv d → LoopInv e →
    Together d e → LoopFits fuel d → LoopFits fuel e := by
  induction fuel with
  | zero => intro d e _ _ _ _; trivial
  | succ fuel ih =>
      intro d e hd he htog hfits
      rcases htog with ⟨hagree, hinner⟩ | ⟨-, ha', -⟩
      · obtain ⟨x, rfl⟩ : ∃ x, e = d.inherit x := ⟨_, hagree.rest⟩
        obtain ⟨hround, hrest⟩ := hfits
        obtain ⟨r, hr, -⟩ := iterate_ok hd hround
        have hround' : Fits (d.inherit x) := hround
        obtain ⟨r', hr', hkeeps'⟩ := iterate_ok he hround'
        refine ⟨hround', ?_⟩
        rw [hr']
        have hbits : (d.inherit x).bits = d.bits := rfl
        have hkind := iterate_kind hd hr
        have hkind' := iterate_kind he hr'
        rw [hbits] at hkind'
        cases r' with
        | next e₁ ev₂ =>
            cases r with
            | wait => omega
            | exit _ _ _ => exact absurd hkind hkind'.2
            | next d₁ ev₁ =>
                rw [hr] at hrest
                obtain ⟨htog, -⟩ := iterate_together hd he hagree.covers hinner hr hr'
                exact ih (iterate_keeps hd hr).1 hkeeps'.1 htog hrest
        | _ => trivial
      · exact loopFits_astray he ha'

/-! ### A byte -/

/-- Two decoders that are together, or both in a marker. -/
def Near (d e : DvcDecoder) : Prop :=
  Together d e ∨ (d.bits.decoderState = HUNT ∧ e.bits.decoderState = HUNT ∧ d.frame = e.frame)

theorem Near.frame (h : Near d e) : d.frame = e.frame := by
  rcases h with h | ⟨-, -, h⟩
  · exact Together.frame h
  · exact h

/-- **Two decoders that are restarted agree**, once they agree on the frame. -/
theorem restarted_agree (hd : ByteInv d) (he : ByteInv e)
    (hsize : d.sizeX = e.sizeX ∧ d.sizeY = e.sizeY)
    (hclip : d.yClipped = e.yClipped) (hvideo : d.videoDetected = e.videoDetected)
    (hblock : d.block = e.block) : Together d.restarted e.restarted := by
  obtain ⟨L, hP, -⟩ := hd.data.palette
  obtain ⟨L', hP', -⟩ := he.data.palette
  have hrest : e.restarted = d.restarted.inherit e.restarted.leftover := by
    show e.restarted = { e.restarted with
      sizeX := d.sizeX, sizeY := d.sizeY, yClipped := d.yClipped
      videoDetected := d.videoDetected, block := d.block, inhibit := d.inhibit }
    rw [hsize.1, hsize.2, hclip, hvideo, hblock, hd.data.inhibit, ← he.data.inhibit]
    rfl
  exact Or.inl ⟨⟨hrest, .free (Or.inl rfl) ⟨[], hP.cacheReset_spec, hP'.cacheReset_spec⟩⟩,
    (show Inner 1 from ⟨by decide, by decide, by decide⟩)⟩

/-- What a byte adds to the bits is the same in two decoders that are together. -/
theorem enter_together {c : UInt8} {d₀ e₀ : DvcDecoder} (h : Together d e)
    (hd : d₀ = { d with
      bits := { d.bits with
        ibAcc := d.bits.ibAcc ||| c.toNat <<< d.bits.ibBcnt
        ibBcnt := d.bits.ibBcnt + 8
        zeroCount := zeroRun d.bits.zeroCount c }
      countBytes := d.countBytes + 1 })
    (he : e₀ = { e with
      bits := { e.bits with
        ibAcc := e.bits.ibAcc ||| c.toNat <<< e.bits.ibBcnt
        ibBcnt := e.bits.ibBcnt + 8
        zeroCount := zeroRun e.bits.zeroCount c }
      countBytes := e.countBytes + 1 }) : Together d₀ e₀ := by
  have hframe := Together.frame h
  rcases h with ⟨hagree, hinner⟩ | ⟨ha, ha', -⟩
  · obtain ⟨x, rfl⟩ : ∃ x, e = d.inherit x := ⟨_, hagree.rest⟩
    subst hd he
    exact Or.inl ⟨⟨rfl, hagree.covers⟩, hinner⟩
  · subst hd he
    refine Or.inr ⟨ha, ha', ?_⟩
    simp only [DvcDecoder.frame, Prod.mk.injEq] at hframe ⊢
    obtain ⟨h1, h2, h3, h4, h5, h6⟩ := hframe
    exact ⟨h1, h2, h3, h4, h5, by rw [h6]⟩

theorem enter_near {c : UInt8} {d₀ e₀ : DvcDecoder} (hd : ByteInv d) (he : ByteInv e)
    (hzc : d.bits.zeroCount = e.bits.zeroCount) (h : Together d e)
    (hc : d.bits.zeroCount + right c.toNat ≤ 30) (henter : d.enter c = .ok d₀)
    (henter' : e.enter c = .ok e₀) : Together d₀ e₀ := by
  obtain ⟨d₁, hd₁, heq⟩ := enter_plain hd.bcnt hc
  obtain ⟨e₁, he₁, heq'⟩ := enter_plain he.bcnt (hzc ▸ hc)
  obtain rfl := Except.ok.inj (henter.symm.trans hd₁)
  obtain rfl := Except.ok.inj (henter'.symm.trans he₁)
  exact enter_together h heq heq'

/-- **A byte of two decoders that are near.** -/
theorem byte_near {c : UInt8} (hd : ByteInv d) (he : ByteInv e) (hmd : MarkerInv d)
    (hme : MarkerInv e) (h : Near d e) (hbyte : d.processDvc c = .ok (d', ev))
    (hbyte' : e.processDvc c = .ok (e', ev')) : Near d' e' ∧ visible ev = visible ev' := by
  have hframe := h.frame
  simp only [DvcDecoder.frame, Prod.mk.injEq] at hframe
  obtain ⟨hx, hy, hclip, hvideo, hblock, hzc⟩ := hframe
  rcases Nat.lt_or_ge 30 (d.bits.zeroCount + right c.toNat) with hc | hc
  · have hone := byte_marker hd hmd hc
    have hother := byte_marker he hme (hzc ▸ hc)
    by_cases h0 : c = 0
    · rw [if_pos h0] at hone hother
      obtain ⟨b, n, hone, hs, hz, -⟩ := hone
      obtain ⟨b', n', hother, hs', hz', -⟩ := hother
      rw [hone] at hbyte
      rw [hother] at hbyte'
      cases hbyte
      cases hbyte'
      refine ⟨Or.inr ⟨hs, hs', ?_⟩, rfl⟩
      simp only [DvcDecoder.frame, Prod.mk.injEq]
      exact ⟨hx, hy, hclip, hvideo, hblock, by rw [hz, hz', hzc]⟩
    · rw [if_neg h0] at hone hother
      rw [hone] at hbyte
      rw [hother] at hbyte'
      cases hbyte
      cases hbyte'
      exact ⟨Or.inl (restarted_agree hd he ⟨hx, hy⟩ hclip hvideo hblock), rfl⟩
  · have htog : Together d e := by
      rcases h with h | ⟨hs, -, -⟩
      · exact h
      · have := hmd.hunt.mp hs
        omega
    obtain ⟨d₀, n, d₁, evd, henter, hinv, hloop, rfl, rfl⟩ := loop_of_processDvc hd hbyte
    obtain ⟨e₀, m, e₁, eve, henter', hinv', hloop', rfl, rfl⟩ := loop_of_processDvc he hbyte'
    have htog₀ := enter_near hd he hzc htog hc henter henter'
    -- a common bound on the rounds of both loops
    have hfuel : measure d₀ < measure d₀ + measure e₀ + 1 := by omega
    have hfuel' : measure e₀ < measure d₀ + measure e₀ + 1 := by omega
    rw [loop_fuel hinv (measure_lt_rounds d₀) hfuel] at hloop
    rw [loop_fuel hinv' (measure_lt_rounds e₀) hfuel'] at hloop'
    obtain ⟨rfl, hsettle, hev⟩ := loop_together hinv hinv' htog₀ hloop hloop'
    refine ⟨Or.inl hsettle, ?_⟩
    split
    · rw [visible_append, visible_append, hev]
    · exact hev

/-- A byte that one of them takes, the other takes too. -/
theorem byteFits_near {c : UInt8} (hd : ByteInv d) (he : ByteInv e) (hmd : MarkerInv d)
    (hme : MarkerInv e) (h : Near d e) (hfits : d.ByteFits c) : e.ByteFits c := by
  have hzc : d.bits.zeroCount = e.bits.zeroCount := congrArg (fun f => f.2.2.2.2.2) h.frame
  rcases Nat.lt_or_ge 30 (d.bits.zeroCount + right c.toNat) with hc | hc
  · have hother := byte_marker he hme (hzc ▸ hc)
    by_cases h0 : c = 0
    · rw [if_pos h0] at hother
      obtain ⟨b, n, hother, -⟩ := hother
      exact byteFits_of_processDvc he hother
    · rw [if_neg h0] at hother
      exact byteFits_of_processDvc he hother
  · have htog : Together d e := by
      rcases h with h | ⟨hs, -, -⟩
      · exact h
      · have := hmd.hunt.mp hs
        omega
    obtain ⟨d₀, henter, hinv, -⟩ := enter_ok hd c
    obtain ⟨e₀, henter', hinv', -⟩ := enter_ok he c
    have htog₀ := enter_near hd he hzc htog hc henter henter'
    rw [byteFits_iff henter] at hfits
    rw [byteFits_iff henter']
    have hstored := loopFits_together hinv hinv' htog₀ hfits
    rcases htog₀ with ⟨hagree, -⟩ | ⟨-, ha', -⟩
    · have hrounds : e₀.rounds = d₀.rounds := by
        rw [hagree.rest]
        rfl
      rwa [hrounds]
    · exact loopFits_astray hinv' ha'

/-- **Two decoders that are near call the same hooks**, for every stream that one of them
takes. -/
theorem near_of_feed {w : List UInt8} : ∀ {d e d' : DvcDecoder} {ev : List Event}, ByteInv d →
    ByteInv e → MarkerInv d → MarkerInv e → Near d e → d.feed w = .ok (d', ev) →
    ∃ e' ev', e.feed w = .ok (e', ev') ∧ visible ev = visible ev' := by
  induction w with
  | nil =>
      intro d e d' ev _ _ _ _ _ hfeed
      cases hfeed
      exact ⟨e, [], rfl, rfl⟩
  | cons c w ih =>
      intro d e d' ev hd he hmd hme h hfeed
      obtain ⟨d₁, ev₁, ev₂, hbyte, hrest, rfl⟩ := feed_cons_ok hfeed
      have hfits := byteFits_near hd he hmd hme h (byteFits_of_processDvc hd hbyte)
      obtain ⟨e₁, ev₁', hbyte'⟩ := processDvc_of_fits he hfits
      obtain ⟨hnear, hev⟩ := byte_near hd he hmd hme h hbyte hbyte'
      obtain ⟨e', ev₂', hrest', hevs⟩ := ih (processDvc_keeps hd hbyte)
        (processDvc_keeps he hbyte') (markerInv_byte hd hmd hbyte) (markerInv_byte he hme hbyte')
        hnear hrest
      refine ⟨e', ev₁' ++ ev₂', ?_, ?_⟩
      · rw [feed_cons hbyte', hrest', ok_bind]
      · rw [visible_append, visible_append, hev, hevs]

/-- What a restart leaves of the screen. -/
structure SameScreen (d e : DvcDecoder) : Prop where
  sizeX : d.sizeX = e.sizeX
  sizeY : d.sizeY = e.sizeY
  yClipped : d.yClipped = e.yClipped
  videoDetected : d.videoDetected = e.videoDetected
  block : d.block = e.block

/-- In state 1, with no bits left. -/
def Restarted (d : DvcDecoder) : Prop :=
  d.bits.decoderState = 1 ∧ d.bits.ibBcnt = 0 ∧ d.bits.ibAcc = 0

/-- Two decoders are given the same reset marker.  Both are restarted; and if they are left with
the same screen, they call the same hooks for the stream `w`, calls of `on_refresh_screen`
aside. -/
def Erases (d₀ e₀ : DvcDecoder) (c : UInt8) (w : List UInt8) : Prop :=
  ∃ d e evd eve, d₀.feed (marker c) = .ok (d, evd) ∧ e₀.feed (marker c) = .ok (e, eve) ∧
    d.Restarted ∧ e.Restarted ∧
    (SameScreen d e → ∃ d' e' ev ev', d.feed w = .ok (d', ev) ∧ e.feed w = .ok (e', ev') ∧
      visible ev = visible ev')

/-- No parameter is stored past the end of `cmd_p_buff`: in the markers, nor then in `w`, where
the two are asked for the same hooks. -/
def MarkerFits (d₀ e₀ : DvcDecoder) (c : UInt8) (w : List UInt8) : Prop :=
  d₀.StreamFits (marker c) ∧ e₀.StreamFits (marker c) ∧
    ∀ d e evd eve, d₀.feed (marker c) = .ok (d, evd) → e₀.feed (marker c) = .ok (e, eve) →
      SameScreen d e → d.StreamFits w

/-- **A reset marker erases the past** of any two decoders, if and only if no parameter is
stored past the end of `cmd_p_buff`. -/
theorem resync_erases {us vs : List UInt8} {d₀ e₀ : DvcDecoder} {evd eve : List Event}
    {c : UInt8} (hd : feed {} us = .ok (d₀, evd)) (he : feed {} vs = .ok (e₀, eve)) (hc : c ≠ 0)
    (w : List UInt8) : Erases d₀ e₀ c w ↔ MarkerFits d₀ e₀ c w := by
  have hinv := feed_keeps .fresh hd
  have hinv' := feed_keeps .fresh he
  have hm := markerInv_feed .fresh markerInv_fresh hd
  have hm' := markerInv_feed .fresh markerInv_fresh he
  constructor
  · rintro ⟨d, e, ev, ev', hmark, hmark', -, -, hsame⟩
    refine ⟨(feed_ok_iff hinv).mp ⟨d, ev, hmark⟩, (feed_ok_iff hinv').mp ⟨e, ev', hmark'⟩, ?_⟩
    intro d₁ e₁ ev₁ ev₁' h h' hscreen
    rw [hmark] at h
    rw [hmark'] at h'
    cases h
    cases h'
    obtain ⟨d', e', evw, evw', hw, -⟩ := hsame hscreen
    exact (feed_ok_iff (feed_keeps hinv hmark)).mp ⟨d', evw, hw⟩
  · rintro ⟨hfits, hfits', hsame⟩
    obtain ⟨d, ev, hmark⟩ := feed_of_fits hinv hfits
    obtain ⟨e, ev', hmark'⟩ := feed_of_fits hinv' hfits'
    have hsame := hsame d e ev ev' hmark hmark'
    obtain ⟨d₁, rfl, hd₁, hdr⟩ := restarted_of_feed hinv hm hc hmark
    obtain ⟨e₁, rfl, he₁, her⟩ := restarted_of_feed hinv' hm' hc hmark'
    refine ⟨_, _, ev, ev', hmark, hmark', ⟨rfl, rfl, rfl⟩, ⟨rfl, rfl, rfl⟩, fun hscreen => ?_⟩
    obtain ⟨d', evw, hw⟩ := feed_of_fits hdr (hsame hscreen)
    have hnear : Near d₁.restarted e₁.restarted := Or.inl (restarted_agree hd₁ he₁
      ⟨hscreen.sizeX, hscreen.sizeY⟩ hscreen.yClipped hscreen.videoDetected hscreen.block)
    obtain ⟨e', evw', hw', hev⟩ := near_of_feed hdr her (markerInv_restarted d₁)
      (markerInv_restarted e₁) hnear hw
    exact ⟨d', e', evw, evw', hw, hw', hev⟩

instance (d e : DvcDecoder) : Decidable (SameScreen d e) :=
  decidable_of_iff (d.sizeX = e.sizeX ∧ d.sizeY = e.sizeY ∧ d.yClipped = e.yClipped ∧
    d.videoDetected = e.videoDetected ∧ d.block.toList = e.block.toList)
    ⟨fun ⟨a, b, c, d, e⟩ => ⟨a, b, c, d, Vector.toList_inj.mp e⟩,
      fun ⟨a, b, c, d, e⟩ => ⟨a, b, c, d, Vector.toList_inj.mpr e⟩⟩

/-- A stream that is cut in a command, and a command 9. -/
def cutCommand : List UInt8 := [0xFD, 0xFF]

def rekeyCommand : List UInt8 := [0x1D, 0x12]

theorem cutCommand_taken : ∃ d₀ d e evd ev eve, feed {} cutCommand = .ok (d₀, evd) ∧
    d₀.feed (marker 1) = .ok (d, ev) ∧ feed {} (marker 1) = .ok (e, eve) ∧ SameScreen d e ∧
    (d.feed rekeyCommand).isOk = true := by
  have htaken : (feed {} cutCommand >>= fun c => c.1.feed (marker 1) >>= fun p =>
      feed {} (marker 1) >>= fun q =>
        pure (decide (SameScreen p.1 q.1) && (p.1.feed rekeyCommand).isOk)).toOption =
      some true := by decide +kernel
  obtain ⟨⟨d₀, evd⟩, hcut, hrest⟩ := bind_eq_ok.mp (ok_of_toOption htaken)
  obtain ⟨⟨d, ev⟩, hd, hrest⟩ := bind_eq_ok.mp hrest
  obtain ⟨⟨e, eve⟩, he, hrest⟩ := bind_eq_ok.mp hrest
  obtain ⟨hscreen, hok⟩ := Bool.and_eq_true_iff.mp (Except.ok.inj hrest)
  exact ⟨d₀, d, e, evd, ev, eve, hcut, hd, he, of_decide_eq_true hscreen, hok⟩

theorem resync_erases_after_command : ∃ d₀ d e evd ev eve d' e' evw evw',
    feed {} cutCommand = .ok (d₀, evd) ∧ d₀.feed (marker 1) = .ok (d, ev) ∧
      feed {} (marker 1) = .ok (e, eve) ∧ d.feed rekeyCommand = .ok (d', evw) ∧
      e.feed rekeyCommand = .ok (e', evw') ∧ visible evw = visible evw' := by
  obtain ⟨d₀, d, e, evd, ev, eve, hcut, hd, he, hscreen, hok⟩ := cutCommand_taken
  have hinv := feed_keeps .fresh hcut
  have hfits : MarkerFits d₀ {} 1 rekeyCommand := by
    refine ⟨(feed_ok_iff hinv).mp ⟨d, ev, hd⟩, (feed_ok_iff .fresh).mp ⟨e, eve, he⟩, ?_⟩
    intro d₁ e₁ ev₁ ev₁' h h' _
    rw [hd] at h
    cases h
    exact streamFits_of_isOk (feed_keeps hinv hd) hok
  have hempty : feed {} [] = .ok ({}, []) := rfl
  obtain ⟨d₁, e₁, ev₁, eve₁, hd₁, he₁, -, -, hsame⟩ :=
    (resync_erases hcut hempty (by decide) rekeyCommand).mpr hfits
  rw [hd] at hd₁
  rw [he] at he₁
  cases hd₁
  cases he₁
  obtain ⟨d', e', evw, evw', hw, hw', hev⟩ := hsame hscreen
  exact ⟨d₀, d, e, evd, ev, eve, d', e', evw, evw', hcut, hd, he, hw, hw', hev⟩

/-- **Not every stream is erased**: with the command of 258 parameters behind the marker both
decoders run past the end of `cmd_p_buff`. -/
theorem resync_overruns : ¬ ∀ (us vs : List UInt8) (d₀ e₀ : DvcDecoder) (evd eve : List Event)
    (c : UInt8), feed {} us = .ok (d₀, evd) → feed {} vs = .ok (e₀, eve) → c ≠ 0 →
    ∀ w, Erases d₀ e₀ c w := by
  intro hall
  obtain ⟨d, e, ev, ev', hd, he, -, -, hsame⟩ :=
    hall [] [] {} {} [] [] 1 rfl rfl (by decide) (paramOverrun ++ [0xFF])
  rw [hd] at he
  cases he
  obtain ⟨d', e', evw, evw', hw, -⟩ := hsame ⟨rfl, rfl, rfl, rfl, rfl⟩
  have hstop : (feed {} (marker 1 ++ (paramOverrun ++ [0xFF]))).isOk = false := by decide +kernel
  rw [feed_append hd, hw] at hstop
  cases hstop

end DvcDecoder

end Ilo2.Dvc
