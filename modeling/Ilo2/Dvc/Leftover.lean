import Ilo2.Dvc.Marker

/-!
# What a restart leaves over

A reset marker clears the position, the palette and the counters, and leaves the rest as it
is: slots of the palette, `pixcode` and `next_1_[31]`, `last_color`, the command and the
print string.  `Agree s d e`: two decoders in state `s` differ in what `s` does not use.

* `dispatch_follows` - **one `switch` keeps the agreement** and calls the same hooks.
-/

namespace Ilo2.Dvc

open Checked

/-! ### The fields that a restart leaves alone -/

/-- Those that are read again. -/
structure Held where
  cache : DvcCache
  lastColor : Nat
  newx : Nat
  cmdLast : Nat
  printchan : Nat
  printstring : String

/-- With those that are not, and the table that `sync_next1` patches. -/
structure Leftover extends Held where
  next1 : Vector Nat 48
  color : Nat
  newy : Nat
  blue : Nat
  scaleX : Nat
  scaleY : Nat
  screenX : Nat
  screenY : Nat
  cmdPBuff : Vector Nat 256
  framerate : Nat
  seized : Bool

namespace DvcDecoder

def held (d : DvcDecoder) : Held :=
  ⟨d.cache, d.lastColor, d.newx, d.cmdLast, d.printchan, d.printstring⟩

def leftover (d : DvcDecoder) : Leftover :=
  { d.held with
    next1 := d.next1, color := d.color, newy := d.newy, blue := d.blue, scaleX := d.scaleX
    scaleY := d.scaleY, screenX := d.screenX, screenY := d.screenY, cmdPBuff := d.cmdPBuff
    framerate := d.framerate, seized := d.seized }

/-- The decoder with `x` left over. -/
def inherit (d : DvcDecoder) (x : Leftover) : DvcDecoder :=
  { d with
    cache := x.cache, lastColor := x.lastColor, newx := x.newx, cmdLast := x.cmdLast
    printchan := x.printchan, printstring := x.printstring, next1 := x.next1, color := x.color
    newy := x.newy, blue := x.blue, scaleX := x.scaleX, scaleY := x.scaleY, screenX := x.screenX
    screenY := x.screenY, cmdPBuff := x.cmdPBuff, framerate := x.framerate, seized := x.seized }

end DvcDecoder

/-- The states between a colour and the last pixel of it. -/
def usesColor (s : Nat) : Bool := (10 ≤ s ∧ s ≤ 14) ∨ s = 33

/-- The states that set `last_color`, or fail. -/
def setsColor (s : Nat) : Bool := (3 ≤ s ∧ s ≤ 8) ∨ s = 32 ∨ s = 42

/-- What state `s` uses is the same in `a` and in `b`. -/
structure Covers (s : Nat) (a b : Held) : Prop where
  palette : ∃ L, PaletteInv a.cache L ∧ PaletteInv b.cache L
  lastColor : usesColor s = true → b.lastColor = a.lastColor
  newx : s = 39 ∨ s = 40 → b.newx = a.newx
  cmdLast : s = 46 → b.cmdLast = a.cmdLast
  print : s = 45 → b.printchan = a.printchan ∧ b.printstring = a.printstring

/-- A step from state `s` to state `n`: what `n` uses, `s` used or set. -/
structure Flow (s n : Nat) : Prop where
  color : usesColor n = true → usesColor s = true ∨ setsColor s = true
  newx : n = 39 ∨ n = 40 → s = 17 ∨ s = 26
  cmdLast : n = 46 → s = 24
  print : n = 45 → s = 44 ∨ s = 45
  inner : n ≠ 0 ∧ n ≠ 35 ∧ n ≠ 43

theorem flow_iff (s n : Nat) : Flow s n ↔
    (usesColor n = true → usesColor s = true ∨ setsColor s = true) ∧
    (n = 39 ∨ n = 40 → s = 17 ∨ s = 26) ∧ (n = 46 → s = 24) ∧ (n = 45 → s = 44 ∨ s = 45) ∧
    (n ≠ 0 ∧ n ≠ 35 ∧ n ≠ 43) :=
  ⟨fun ⟨a, b, c, d, e⟩ => ⟨a, b, c, d, e⟩, fun ⟨a, b, c, d, e⟩ => ⟨a, b, c, d, e⟩⟩

instance (s n : Nat) : Decidable (Flow s n) := decidable_of_iff _ (flow_iff s n).symm

theorem flow_tables : ∀ s < 48, s ≠ 0 ∧ s ≠ 35 ∧ s ≠ 43 →
    Flow s (look 0 next0 s) ∧ (s ≠ 31 → Flow s (look 0 next1Init s)) := by
  decide +kernel

/-- The states that a case of the `switch` may put in the place of the successor. -/
theorem flow_const : ∀ s < 48, ∀ n ∈ [1, 37, 38, 44], Flow s n := by decide +kernel

theorem Covers.of_flow {s n : Nat} {a b : Held} (hf : Flow s n)
    (hP : ∃ L, PaletteInv a.cache L ∧ PaletteInv b.cache L)
    (hcolor : usesColor s = true ∨ setsColor s = true → b.lastColor = a.lastColor)
    (hnewx : s = 17 ∨ s = 26 → b.newx = a.newx) (hcmd : s = 24 → b.cmdLast = a.cmdLast)
    (hprint : s = 44 ∨ s = 45 → b.printchan = a.printchan ∧ b.printstring = a.printstring) :
    Covers n a b where
  palette := hP
  lastColor h := hcolor (hf.color h)
  newx h := hnewx (hf.newx h)
  cmdLast h := hcmd (hf.cmdLast h)
  print h := hprint (hf.print h)

/-- The start state and the error state use the palette alone. -/
theorem Covers.free {n : Nat} {a b : Held} (hn : n = 1 ∨ n = 38)
    (hP : ∃ L, PaletteInv a.cache L ∧ PaletteInv b.cache L) : Covers n a b := by
  rcases hn with rfl | rfl <;>
    exact ⟨hP, fun h => absurd h (by decide), fun h => absurd h (by decide),
      fun h => absurd h (by decide), fun h => absurd h (by decide)⟩

/-- A state that sets none of them. -/
theorem Covers.keep {s n : Nat} {a b : Held} (h : Covers s a b) (hf : Flow s n)
    (hs : setsColor s = false ∧ s ≠ 17 ∧ s ≠ 26 ∧ s ≠ 24 ∧ s ≠ 44) : Covers n a b := by
  obtain ⟨hc, h17, h26, h24, h44⟩ := hs
  refine .of_flow hf h.palette (fun h' => h.lastColor (h'.resolve_right ?_)) (fun h' => by omega)
    (fun h' => absurd h' h24) (fun h' => h.print (h'.resolve_left h44))
  rw [hc]
  decide

/-- Two decoders in state `s`, alike but for what `s` does not use. -/
structure Agree (s : Nat) (d e : DvcDecoder) : Prop where
  rest : e = d.inherit e.leftover
  covers : Covers s d.held e.held

/-- What two agreeing decoders make of state `s`. -/
def Follows (s : Nat) (r r' : Except Fault (DvcDecoder × List Event)) : Prop :=
  ∃ d e ev, r = .ok (d, ev) ∧ r' = .ok (e, ev) ∧ Agree d.bits.nextState d e ∧
    Flow s d.bits.nextState

/-- The same, of a case that calls no hook. -/
def Goes (s : Nat) (r r' : Except Fault DvcDecoder) : Prop :=
  ∃ d e, r = .ok d ∧ r' = .ok e ∧ Agree d.bits.nextState d e ∧ Flow s d.bits.nextState

namespace DvcDecoder

variable {d : DvcDecoder} {x : Leftover} {s : Nat}

theorem quiet_follows {r r' : Except Fault DvcDecoder} (h : Goes s r r') :
    Follows s (quiet r) (quiet r') := by
  obtain ⟨d, e, rfl, rfl, ha, hf⟩ := h
  exact ⟨d, e, [], rfl, rfl, ha, hf⟩

/-! ### Pixels -/

theorem putPixel_inherit (hp : d.pixelCount ≤ 256) (hl : x.lastColor = d.lastColor) :
    ∃ d', d.putPixel = .ok d' ∧ (d.inherit x).putPixel = .ok (d'.inherit x) ∧ d'.held = d.held ∧
      (d'.bits.nextState = d.bits.nextState ∨ d'.bits.nextState = 38) := by
  unfold putPixel
  by_cases h : d.pixelCount ≥ 256
  · rw [if_pos h, if_pos (show (d.inherit x).pixelCount ≥ 256 from h)]
    exact ⟨_, rfl, rfl, rfl, Or.inr rfl⟩
  · rw [if_neg h, if_neg (show ¬ (d.inherit x).pixelCount ≥ 256 from h), wr_of_lt (by omega)]
    refine ⟨_, rfl, ?_, rfl, Or.inl rfl⟩
    show (wr Fault.block d.block d.pixelCount x.lastColor >>= _) = _
    rw [hl, wr_of_lt (by omega)]
    rfl

theorem emitRun_inherit (n : Nat) : ∀ {d : DvcDecoder}, d.pixelCount ≤ 256 →
    x.lastColor = d.lastColor → ∃ d', emitRun n d = .ok d' ∧
      emitRun n (d.inherit x) = .ok (d'.inherit x) ∧ d'.held = d.held ∧
      (d'.bits.nextState = d.bits.nextState ∨ d'.bits.nextState = 38) := by
  induction n with
  | zero => intro d _ _; exact ⟨d, rfl, rfl, rfl, Or.inl rfl⟩
  | succ n ih =>
      intro d hp hl
      unfold emitRun
      by_cases h : d.pixelCount ≥ 256
      · rw [if_pos h, if_pos (show (d.inherit x).pixelCount ≥ 256 from h)]
        exact ⟨_, rfl, rfl, rfl, Or.inr rfl⟩
      · rw [if_neg h, if_neg (show ¬ (d.inherit x).pixelCount ≥ 256 from h), wr_of_lt (by omega),
          ok_bind]
        obtain ⟨d', hd', he', hheld, hnext⟩ := ih
          (d := { d with
            block := d.block.set d.pixelCount d.lastColor, pixelCount := d.pixelCount + 1 })
          (show d.pixelCount + 1 ≤ 256 by omega) hl
        refine ⟨d', hd', ?_, hheld, hnext⟩
        show (wr Fault.block d.block d.pixelCount x.lastColor >>= _) = _
        rw [hl, wr_of_lt (by omega), ok_bind]
        exact he'

/-- A successor of state `s`, or the error state. -/
theorem flow_or_fatal {n : Nat} (hlt : s < 48) (hf : Flow s d.bits.nextState)
    (hn : n = d.bits.nextState ∨ n = 38) : Flow s n := by
  rcases hn with rfl | rfl
  · exact hf
  · exact flow_const s hlt 38 (by decide)

/-- The pixel states use `last_color`. -/
theorem putPixel_goes (hr : ReadInv d s) (h : Covers s d.held x.toHeld)
    (hf : Flow s d.bits.nextState) (hs : usesColor s = true) :
    Goes s d.putPixel (d.inherit x).putPixel := by
  obtain ⟨d', hd', he', hheld, hnext⟩ := putPixel_inherit hr.data.pixels (h.lastColor hs)
  have hf' := flow_or_fatal hr.lt hf hnext
  refine ⟨d', _, hd', he', ⟨rfl, ?_⟩, hf'⟩
  rw [hheld]
  exact h.keep hf' (by revert hs; unfold usesColor setsColor; simp; omega)

theorem emitRun_goes (hr : ReadInv d s) (h : Covers s d.held x.toHeld)
    (hf : Flow s d.bits.nextState) (hs : usesColor s = true) (n v : Nat) :
    Goes s (emitRun n (d.setCode v)) (emitRun n ((d.inherit x).setCode v)) := by
  obtain ⟨d', hd', he', hheld, hnext⟩ :=
    emitRun_inherit n (d := d.setCode v) hr.data.pixels (h.lastColor hs)
  have hf' := flow_or_fatal hr.lt hf hnext
  refine ⟨d', _, hd', he', ⟨rfl, ?_⟩, hf'⟩
  rw [hheld]
  exact h.keep hf' (by revert hs; unfold usesColor setsColor; simp; omega)

theorem caseRun_goes (hr : ReadInv d 12) (h : Covers 12 d.held x.toHeld)
    (hf : Flow 12 d.bits.nextState) : Goes 12 d.caseRun (d.inherit x).caseRun := by
  unfold caseRun
  have hnext {n : Nat} (hn : Flow 12 n) : Goes 12 (.ok (d.setNext n)) (.ok ((d.inherit x).setNext n)) :=
    ⟨_, _, rfl, rfl, ⟨rfl, h.keep hn (by decide)⟩, hn⟩
  by_cases h7 : d.bits.code = 7
  · rw [if_pos h7, if_pos (show (d.inherit x).bits.code = 7 from h7)]
    exact hnext (by decide)
  rw [if_neg h7, if_neg (show (d.inherit x).bits.code ≠ 7 from h7)]
  by_cases h6 : d.bits.code = 6
  · rw [if_pos h6, if_pos (show (d.inherit x).bits.code = 6 from h6)]
    exact hnext (by decide)
  rw [if_neg h6, if_neg (show (d.inherit x).bits.code ≠ 6 from h6)]
  exact emitRun_goes hr h hf (by decide) _ _

/-! ### Colours -/

/-- The colour states set `last_color`, and use nothing. -/
theorem putColor_goes {i : Int} (hi : 0 ≤ i ∧ i < 4096) (hp : d.pixelCount ≤ 256) (hlt : s < 48)
    (hP : ∃ L, PaletteInv d.cache L ∧ PaletteInv x.cache L) (hf : Flow s d.bits.nextState)
    (hs : s ≠ 17 ∧ s ≠ 26 ∧ s ≠ 24 ∧ s ≠ 44 ∧ s ≠ 45) :
    Goes s (d.putColor i) ((d.inherit x).putColor i) := by
  obtain ⟨d', hd', he', hheld, hnext⟩ := putPixel_inherit
    (d := { d with lastColor := dvcColorRemap i.toNat })
    (x := { x with lastColor := dvcColorRemap i.toNat }) hp rfl
  have hf' := flow_or_fatal hlt hf hnext
  unfold putColor
  rw [colorRemapTable_ok hi, ok_bind, ok_bind]
  refine ⟨d', _, hd', he', ⟨rfl, ?_⟩, hf'⟩
  rw [hheld]
  exact .of_flow hf' hP (fun _ => rfl) (fun h => by omega) (fun h => by omega) (fun h => by omega)

/-- The colour that a state looks up depends on the palette only. -/
theorem paletteCode_inherit (hP : ∃ L, PaletteInv d.cache L ∧ PaletteInv x.cache L) :
    (d.inherit x).paletteCode s = d.paletteCode s := by
  obtain ⟨L, hP, hP'⟩ := hP
  have hactive : x.cache.ccActive = d.cache.ccActive := hP'.ranked.len.symm.trans hP.ranked.len
  unfold paletteCode
  by_cases h1 : d.cache.ccActive = 1
  · rw [if_pos h1, if_pos (show (d.inherit x).cache.ccActive = 1 from hactive.trans h1),
      d.cache.rd_rank (by decide), (d.inherit x).cache.rd_rank (by decide)]
    have h := hP.ranked.rank_lt (show 0 < d.cache.ccActive by omega)
    have h' := hP'.ranked.rank_lt (show 0 < x.cache.ccActive by omega)
    have hsame : x.cache.rank 0 = d.cache.rank 0 := by omega
    exact congrArg Except.ok hsame
  · rw [if_neg h1, if_neg (show (d.inherit x).cache.ccActive ≠ 1 from hactive ▸ h1)]
    rfl

/-- The palette of a decoder is one, whatever its slots. -/
theorem palette_range {L : List (Int × Bool)} (hd : DataInv d) (hP : PaletteInv d.cache L) :
    ∀ p ∈ L, 0 ≤ p.1 ∧ p.1 < 4096 := by
  obtain ⟨L', hP', hrange⟩ := hd.palette
  rw [← hP.rankOrder_eq, hP'.rankOrder_eq]
  exact hrange

theorem casePalette_goes (hr : ReadInv d s) (h : Covers s d.held x.toHeld)
    (hf : Flow s d.bits.nextState) (hs : setsColor s = true) :
    Goes s (d.casePalette s) ((d.inherit x).casePalette s) := by
  have hs' : s ≠ 17 ∧ s ≠ 26 ∧ s ≠ 24 ∧ s ≠ 44 ∧ s ≠ 45 := by
    revert hs
    unfold setsColor
    simp
    omega
  obtain ⟨L, hP, hP'⟩ := h.palette
  have hrange := palette_range hr.data hP
  obtain ⟨code, hcode⟩ := paletteCode_ok d s
  obtain ⟨c, hc, hPc⟩ := hP.cacheFind_spec code
  obtain ⟨c', hc', hPc'⟩ := hP'.cacheFind_spec code
  rw [if_pos (Int.natCast_nonneg code)] at hc hPc hc' hPc'
  have hc' : (d.inherit x).cache.cacheFind code = _ := hc'
  have hc : d.cache.cacheFind code = _ := hc
  unfold casePalette
  rw [paletteCode_inherit h.palette, hcode, ok_bind, ok_bind, hc, hc', ok_bind, ok_bind]
  dsimp only
  cases hpick : (MoveToFront.pick L (code : Int).toNat).1 with
  | none =>
      rw [Option.getD_none, if_pos rfl, if_pos rfl]
      have hf' := flow_const s hr.lt 38 (by decide)
      exact ⟨_, _, rfl, rfl, ⟨rfl, .free (Or.inr rfl) ⟨_, hPc, hPc'⟩⟩, hf'⟩
  | some col =>
      obtain ⟨p, hp, rfl⟩ := List.mem_map.mp (MoveToFront.pick_fst_mem hpick)
      have hcol := hrange p hp
      rw [Option.getD_some, if_neg (by omega), if_neg (by omega)]
      exact putColor_goes (x := { x with cache := c', next1 := x.next1.set 31 c'.next131 }) hcol
        hr.data.pixels hr.lt ⟨_, hPc, hPc'⟩ hf hs'

/-- Case 42 once the palette has answered. -/
theorem caseColor_eq {hit : Nat} {c : DvcCache}
    (hc : d.cache.cacheLru (d.red ||| d.green ||| d.bits.code : Nat) = .ok (hit, c)) :
    d.caseColor =
      let e := { d with
        blue := d.bits.code, color := d.red ||| d.green ||| d.bits.code }.setCache c
      if hit ≠ 0 then .ok (e.setNext 38) else e.putColor (d.red ||| d.green ||| d.bits.code : Nat) := by
  unfold caseColor
  dsimp only
  rw [hc, ok_bind]
  rfl

theorem caseColor_goes (hp : d.pixelCount ≤ 256) (hP : ∃ L, PaletteInv d.cache L ∧ PaletteInv x.cache L)
    (hf : Flow s d.bits.nextState) (hs : s = 8 ∨ s = 42) (hred : d.red < 4096)
    (hgreen : d.green < 4096) (hcode : d.bits.code < 4096) :
    Goes s d.caseColor (d.inherit x).caseColor := by
  obtain ⟨L, hP, hP'⟩ := hP
  have hcol : d.red ||| d.green ||| d.bits.code < 4096 :=
    Nat.or_lt_two_pow (n := 12) (Nat.or_lt_two_pow (n := 12) hred hgreen) hcode
  obtain ⟨c, hc, hPc⟩ := hP.cacheLru_spec (d.red ||| d.green ||| d.bits.code : Nat)
  obtain ⟨c', hc', hPc'⟩ := hP'.cacheLru_spec (d.red ||| d.green ||| d.bits.code : Nat)
  rw [caseColor_eq hc, caseColor_eq (d := d.inherit x) hc']
  dsimp only
  split
  · have hf' := flow_const s (by omega) 38 (by decide)
    exact ⟨_, _, rfl, rfl, ⟨rfl, .free (Or.inr rfl) ⟨_, hPc, hPc'⟩⟩, hf'⟩
  · exact putColor_goes (d := DvcDecoder.setCache { d with
        blue := d.bits.code, color := d.red ||| d.green ||| d.bits.code } c)
      (x := { x with
        blue := d.bits.code, color := d.red ||| d.green ||| d.bits.code, cache := c'
        next1 := x.next1.set 31 c'.next131 })
      ⟨Int.natCast_nonneg _, Int.ofNat_lt.mpr hcol⟩ hp (by omega) ⟨_, hPc, hPc'⟩ hf (by omega)

/-! ### The other cases -/

theorem alignBits_inherit (d : DvcDecoder) (x : Leftover) : ∃ b,
    d.alignBits = .ok { d with bits := b } ∧
      (d.inherit x).alignBits = .ok { d.inherit x with bits := b } ∧
      b.nextState = d.bits.nextState := by
  unfold alignBits
  by_cases h : d.bits.ibBcnt &&& 7 ≠ 0
  · have h7 : d.bits.ibBcnt &&& 7 ≤ 7 := Nat.and_le_right
    have hle : d.bits.ibBcnt &&& 7 ≤ d.bits.ibBcnt := Nat.and_le_left
    obtain ⟨acc, code, he, -, -⟩ := d.bits.getBits_ok (n := d.bits.ibBcnt &&& 7) (by omega) hle
    have he' : (d.inherit x).bits.getBits ((d.inherit x).bits.ibBcnt &&& 7) = _ := he
    rw [if_pos h, if_pos (show (d.inherit x).bits.ibBcnt &&& 7 ≠ 0 from h), he, he']
    exact ⟨_, rfl, rfl, rfl⟩
  · rw [if_neg h, if_neg (show ¬ (d.inherit x).bits.ibBcnt &&& 7 ≠ 0 from h)]
    exact ⟨d.bits, rfl, rfl, rfl⟩

theorem caseTimeout_goes (hr : ReadInv d 27) (h : Covers 27 d.held x.toHeld)
    (hf : Flow 27 d.bits.nextState) : Goes 27 d.caseTimeout (d.inherit x).caseTimeout := by
  unfold caseTimeout
  dsimp only
  by_cases hdouble : d.timeoutCount = d.countBytes - 1
  · obtain ⟨b, hb, hb', hn⟩ := alignBits_inherit (d.setNext 38) x
    have hb' : ((d.inherit x).setNext 38).alignBits = _ := hb'
    have hf' : Flow 27 b.nextState := hn ▸ flow_const 27 hr.lt 38 (by decide)
    rw [if_pos hdouble,
      if_pos (show (d.inherit x).timeoutCount = (d.inherit x).countBytes - 1 from hdouble), hb, hb']
    exact ⟨_, _, rfl, rfl, ⟨rfl, h.keep hf' (by decide)⟩, hf'⟩
  · obtain ⟨b, hb, hb', hn⟩ := alignBits_inherit d x
    have hf' : Flow 27 b.nextState := hn ▸ hf
    rw [if_neg hdouble,
      if_neg (show (d.inherit x).timeoutCount ≠ (d.inherit x).countBytes - 1 from hdouble), hb, hb']
    exact ⟨_, _, rfl, rfl, ⟨rfl, h.keep hf' (by decide)⟩, hf'⟩

/-- A command: `cmd_last` is what state 24 stored. -/
theorem execCommand_follows (hr : ReadInv d 46) (h : Covers 46 d.held x.toHeld)
    (hf : Flow 46 d.bits.nextState) : Follows 46 d.execCommand (d.inherit x).execCommand := by
  have hcmd : x.cmdLast = d.cmdLast := h.cmdLast rfl
  have hkeep {n : Nat} (hn : Flow 46 n) : Covers n d.held x.toHeld := h.keep hn (by decide)
  have hkeep' {n : Nat} (hn : Flow 46 n) :
      Covers n d.held { x.toHeld with cmdLast := d.cmdLast } := by
    rw [← hcmd]
    exact hkeep hn
  unfold execCommand
  rw [show (d.inherit x).cmdLast = d.cmdLast from hcmd]
  split
  · have hn := flow_const 46 hr.lt 37 (by decide)
    exact ⟨_, _, _, rfl, rfl, ⟨rfl, hkeep hn⟩, hn⟩
  · have hn := flow_const 46 hr.lt 44 (by decide)
    exact ⟨_, _, _, rfl, rfl, ⟨rfl, hkeep hn⟩, hn⟩
  case h_7 =>
    obtain ⟨b, hb, hb', hn⟩ := alignBits_inherit d x
    have hf' : Flow 46 b.nextState := hn ▸ hf
    rw [hb, hb']
    exact ⟨_, _, _, rfl, rfl, ⟨rfl, hkeep hf'⟩, hf'⟩
  case h_3 | h_4 | h_8 => exact ⟨_, _, _, rfl, rfl, ⟨rfl, hkeep' hf⟩, hf⟩
  all_goals exact ⟨_, _, _, rfl, rfl, ⟨rfl, hkeep hf⟩, hf⟩

theorem caseCommand_follows (hr : ReadInv d 46) (h : Covers 46 d.held x.toHeld)
    (hf : Flow 46 d.bits.nextState) : Follows 46 d.caseCommand (d.inherit x).caseCommand := by
  unfold caseCommand
  by_cases hcode : d.bits.code ≠ 0
  · rw [if_pos hcode, if_pos (show (d.inherit x).bits.code ≠ 0 from hcode)]
    exact ⟨_, _, _, rfl, rfl, ⟨rfl, h.keep hf (by decide)⟩, hf⟩
  · rw [if_neg hcode, if_neg (show ¬ (d.inherit x).bits.code ≠ 0 from hcode)]
    obtain ⟨d', e', ev, hd', he', ha, hf'⟩ := execCommand_follows hr h hf
    rw [hd', he']
    refine ⟨_, _, _, rfl, rfl, ⟨?_, ha.covers⟩, hf'⟩
    rw [ha.rest]
    rfl

theorem casePrint_follows (hr : ReadInv d 45) (h : Covers 45 d.held x.toHeld)
    (hf : Flow 45 d.bits.nextState) :
    Follows 45 (.ok d.casePrint) (.ok (d.inherit x).casePrint) := by
  obtain ⟨hchan, hstr⟩ := h.print rfl
  by_cases hcode : d.bits.code ≠ 0
  · refine ⟨{ d with printstring := d.printstring.push (Char.ofNat d.bits.code) },
      { d.inherit x with printstring := d.printstring.push (Char.ofNat d.bits.code) }, [], ?_, ?_,
      ⟨rfl, ?_⟩, hf⟩
    · exact congrArg Except.ok (if_pos hcode)
    · have hstr : (d.inherit x).printstring = d.printstring := hstr
      rw [← hstr]
      exact congrArg Except.ok (if_pos hcode)
    · exact .of_flow hf h.palette (fun h => absurd h (by decide)) (fun h => by omega)
        (fun h => by omega) fun _ => ⟨hchan, rfl⟩
  · have hn := flow_const 45 hr.lt 1 (by decide)
    refine ⟨d.setNext 1, (d.inherit x).setNext 1, _, congrArg Except.ok (if_neg hcode), ?_,
      ⟨rfl, h.keep hn (by decide)⟩, hn⟩
    have hchan : (d.inherit x).printchan = d.printchan := hchan
    have hstr : (d.inherit x).printstring = d.printstring := hstr
    rw [← hchan, ← hstr]
    exact congrArg Except.ok (if_neg hcode)

theorem caseFatal_follows (h : Covers 38 d.held x.toHeld) (hf : Flow 38 d.bits.nextState) :
    Follows 38 (.ok d.caseFatal) (.ok (d.inherit x).caseFatal) := by
  have hc (n : Nat) : Covers d.bits.nextState { d with fatalCount := n }.held x.toHeld :=
    h.keep hf (by decide)
  by_cases hcount : d.fatalCount + 1 ≠ 12000000
  · exact ⟨{ d with fatalCount := d.fatalCount + 1 },
      { d.inherit x with fatalCount := d.fatalCount + 1 }, _, congrArg Except.ok (if_pos hcount),
      congrArg Except.ok (if_pos hcount), ⟨rfl, hc _⟩, hf⟩
  · exact ⟨{ d with fatalCount := 41 }, { d.inherit x with fatalCount := 41 }, _,
      congrArg Except.ok (if_neg hcount), congrArg Except.ok (if_neg hcount), ⟨rfl, hc _⟩, hf⟩

theorem caseMode_follows (h : Covers 47 d.held x.toHeld) (hf : Flow 47 d.bits.nextState) :
    Follows 47 (.ok d.caseMode) (.ok (d.inherit x).caseMode) := by
  obtain ⟨L, hP, hP'⟩ := h.palette
  have hc : Covers d.bits.nextState
      { d.held with cache := d.cache.cacheReset } { x.toHeld with cache := x.cache.cacheReset } :=
    .of_flow hf ⟨[], hP.cacheReset_spec, hP'.cacheReset_spec⟩
      (fun h => absurd h (by decide)) (fun h => absurd h (by decide)) (fun h => absurd h (by decide))
      (fun h => absurd h (by decide))
  unfold caseMode
  dsimp only
  by_cases hvideo : ¬ decide (d.sizeX * 16 ≠ 0 ∧ d.sizeY * 16 + d.bits.code ≠ 0) = true
  · rw [if_pos hvideo]
    exact ⟨_, _, _, rfl, congrArg Except.ok (if_pos hvideo), ⟨rfl, hc⟩, hf⟩
  · rw [if_neg hvideo]
    exact ⟨_, _, _, rfl, congrArg Except.ok (if_neg hvideo), ⟨rfl, hc⟩, hf⟩

theorem nextBlock_follows (hlt : s < 48) (count : Nat)
    (h : ∀ n, Flow s n → Covers n d.held x.toHeld) :
    Follows s (.ok (d.nextBlock count)) (.ok ((d.inherit x).nextBlock count)) := by
  have hn := flow_const s hlt 1 (by decide)
  exact ⟨_, _, _, rfl, rfl, ⟨rfl, h 1 hn⟩, hn⟩

/-- **The `switch` does not read what is left over**: two agreeing decoders call the same
hooks and agree again, in every state that a decoder passes through between two resets. -/
theorem dispatch_follows (hr : ReadInv d s) (h : Covers s d.held x.toHeld)
    (hf : Flow s d.bits.nextState) (hs : s ≠ 0 ∧ s ≠ 35 ∧ s ≠ 43)
    (hfits : s = 24 → d.cmdPCount ≤ 256) :
    Follows s (d.dispatch s) ((d.inherit x).dispatch s) := by
  obtain ⟨h0, h35, h43⟩ := hs
  have hd := hr.data
  have hnib : width s = 4 → d.bits.code < 2 ^ 4 := fun hw => hw ▸ hr.code (by omega)
  unfold dispatch
  split
  case h_1 | h_2 | h_3 | h_4 | h_5 | h_6 =>
    exact quiet_follows (casePalette_goes hr h hf (by decide))
  case h_7 => exact quiet_follows (caseRun_goes hr h hf)
  case h_8 => exact quiet_follows (emitRun_goes hr h hf (by decide) _ _)
  case h_9 => exact quiet_follows (emitRun_goes hr h hf (by decide) _ d.bits.code)
  case h_10 => exact quiet_follows (putPixel_goes hr h hf (by decide))
  case h_11 => exact absurd rfl h35
  case h_14 =>
    have hr4 : d.bits.code <<< 8 < 4096 := ReadInv.channel_lt (hnib (by decide)) (by decide)
    have hg4 : d.bits.code <<< 4 < 4096 := ReadInv.channel_lt (hnib (by decide)) (by decide)
    exact quiet_follows (caseColor_goes
      (d := { d with red := d.bits.code <<< 8, green := d.bits.code <<< 4 })
      (x := x) hd.pixels h.palette hf (Or.inl rfl) hr4 hg4
      (Nat.lt_trans (hnib (by decide)) (by decide)))
  case h_15 =>
    exact quiet_follows (caseColor_goes hd.pixels h.palette hf (Or.inr rfl) hd.red hd.green
      (Nat.lt_trans (hnib (by decide)) (by decide)))
  case h_26 => exact absurd rfl h0
  case h_33 => exact absurd rfl h43
  case h_12 | h_13 | h_19 | h_20 =>
    exact ⟨_, _, _, rfl, rfl, ⟨rfl, h.keep hf (by decide)⟩, hf⟩
  case h_16 | h_17 =>
    exact ⟨_, _, _, rfl, rfl, ⟨rfl, .of_flow hf h.palette (fun h => absurd h (by decide))
      (fun _ => rfl) (fun h => absurd h (by decide)) (fun h => absurd h (by decide))⟩, hf⟩
  case h_21 =>
    obtain ⟨d', e', hd', he', ha, hf'⟩ := caseTimeout_goes hr h hf
    rw [hd', he']
    exact ⟨d', e', _, rfl, rfl, ha, hf'⟩
  case h_22 =>
    obtain ⟨buff, hparam⟩ := caseParam_ok (hfits rfl)
    obtain ⟨buff', hparam'⟩ := caseParam_ok (d := d.inherit x) (hfits rfl)
    refine quiet_follows ⟨_, _, hparam, hparam', ⟨rfl, ?_⟩, hf⟩
    exact .of_flow hf h.palette (fun h => absurd h (by decide)) (fun h => absurd h (by decide))
      (fun _ => rfl) (fun h => absurd h (by decide))
  case h_23 => exact caseCommand_follows hr h hf
  case h_24 =>
    exact ⟨_, _, _, rfl, rfl, ⟨rfl, .of_flow hf h.palette (fun h => absurd h (by decide))
      (fun h => absurd h (by decide)) (fun h => absurd h (by decide)) (fun _ => ⟨rfl, rfl⟩)⟩, hf⟩
  case h_25 => exact casePrint_follows hr h hf
  case h_27 => exact caseFatal_follows h hf
  case h_28 => exact nextBlock_follows (by decide) 1 fun n hn => h.keep hn (by decide)
  case h_29 =>
    exact nextBlock_follows (d := d.setCode (d.bits.code + 2)) (by decide) (d.bits.code + 2)
      fun n hn => h.keep hn (by decide)
  case h_30 => exact nextBlock_follows (by decide) d.bits.code fun n hn => h.keep hn (by decide)
  case h_18 =>
    obtain ⟨y, rfl⟩ : ∃ y : Leftover, x = { y with newx := d.newx } :=
      ⟨x, by rw [show d.newx = x.newx from (h.newx (Or.inl rfl)).symm]⟩
    exact ⟨_, _, _, rfl, rfl, ⟨rfl, h.keep hf (by decide)⟩, hf⟩
  case h_31 =>
    obtain ⟨y, rfl⟩ : ∃ y : Leftover, x = { y with newx := d.newx } :=
      ⟨x, by rw [show d.newx = x.newx from (h.newx (Or.inr rfl)).symm]⟩
    exact ⟨_, _, _, rfl, rfl, ⟨rfl, h.keep hf (by decide)⟩, hf⟩
  case h_32 => exact caseMode_follows h hf
  case h_34 =>
    have hsets : setsColor s = false := by
      apply Bool.eq_false_iff.mpr
      intro hset
      unfold setsColor at hset
      rcases of_decide_eq_true hset with ⟨h3, h8⟩ | rfl | rfl
      · obtain rfl | rfl | rfl | rfl | rfl | rfl :
            s = 3 ∨ s = 4 ∨ s = 5 ∨ s = 6 ∨ s = 7 ∨ s = 8 := by omega
        all_goals contradiction
      · contradiction
      · contradiction
    exact ⟨d, d.inherit x, [], rfl, rfl, ⟨rfl, h.keep hf ⟨hsets, by assumption, by assumption,
      by assumption, by assumption⟩⟩, hf⟩

end DvcDecoder

end Ilo2.Dvc
