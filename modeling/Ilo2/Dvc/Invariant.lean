import Ilo2.Dvc.Decoder
import Ilo2.Dvc.Palette

/-!
# The invariant of the decoder

What holds whenever `process_bits` is about to run a round of its loop
(`LoopInv`), and what holds between two bytes (`ByteInv`).

* Nothing faults but the store into `cmd_p_buff`: every table, palette, remap and block
  index is in range, and `get_bits` is asked for at most 8 bits and never for more than
  there are.  `Fits` asks of a round that its parameter goes into the buffer.
* The loop ends: a round takes a bit, and the five states that read nothing lead to
  states that do (`OkNext`), so `rounds` bounds their number.
* At most 7 bits are left for the next byte.  Only state 37 leaves the loop with bits
  unread, and it is reached from state 46 alone, which follows an 8-bit read.

The early exit with 6 never happens: no state but 45, 38 and 43 is its own
successor.  For state 1 this needs the fact that a command state has no pixels
pending, which is why `isCommand` is here.
-/

namespace Ilo2.Dvc

open Checked

/-- The states between two tiles, in which a command is being read. -/
def isCommand (s : Nat) : Bool :=
  s = 1 ∨ (15 ≤ s ∧ s ≤ 30) ∨ s = 34 ∨ s = 39 ∨ s = 40 ∨ (44 ≤ s ∧ s ≤ 47)

/-- The number of bits state `s` reads. -/
def width (s : Nat) : Nat := look 0 bitsToRead s

/-- What is true of every step from state `s` to state `n`. -/
structure OkNext (s n : Nat) : Prop where
  lt : n < 48
  param : n = 46 → s = 24
  quit : n = 37 → s = 46
  progress : width s = 0 → 0 < width n
  moves : n = s → s = 45 ∨ s = 38 ∨ s = 43
  command : isCommand n = true → isCommand s = true ∨ s = 0

theorem okNext_iff (s n : Nat) : OkNext s n ↔ n < 48 ∧ (n = 46 → s = 24) ∧ (n = 37 → s = 46) ∧
    (width s = 0 → 0 < width n) ∧ (n = s → s = 45 ∨ s = 38 ∨ s = 43) ∧
    (isCommand n = true → isCommand s = true ∨ s = 0) :=
  ⟨fun ⟨a, b, c, d, e, f⟩ => ⟨a, b, c, d, e, f⟩, fun ⟨a, b, c, d, e, f⟩ => ⟨a, b, c, d, e, f⟩⟩

instance (s n : Nat) : Decidable (OkNext s n) := decidable_of_iff _ (okNext_iff s n).symm

/-! ### The tables -/

theorem width_le : ∀ s < 48, width s ≤ 8 := by decide +kernel

/-- Both successors of the tables are fine, the patched entry and the entry that
case 35 replaces aside. -/
theorem okNext_tables : ∀ s < 48, s ≠ 35 → s ≠ 37 →
    OkNext s (look 0 next0 s) ∧ (s ≠ 31 → OkNext s (look 0 next1Init s)) := by
  decide +kernel

theorem okNext_fatal : ∀ s < 48, OkNext s 38 := by decide +kernel

theorem okNext_start : ∀ s < 48, isCommand s = true → s ≠ 1 → OkNext s 1 := by decide +kernel

theorem pixfan_cases (a : Nat) : pixfan a = 38 ∨ pixfan a = 4 ∨ pixfan a = 5 ∨ pixfan a = 6 ∨
    pixfan a = 7 ∨ pixfan a = 32 := by
  unfold pixfan
  split_ifs <;> simp

theorem okNext_pixfan (a : Nat) : OkNext 35 (pixfan a) ∧ OkNext 31 (pixfan a) := by
  rcases pixfan_cases a with h | h | h | h | h | h <;> rw [h] <;> decide +kernel

/-! ### The data of the decoder -/

/-- The part of the invariant that does not mention the state or the bits. -/
structure DataInv (d : DvcDecoder) : Prop where
  palette : ∃ L, PaletteInv d.cache L ∧ ∀ p ∈ L, 0 ≤ p.1 ∧ p.1 < 4096
  next1 : d.next1 = next1Init.set 31 d.cache.next131 DvcDecoder.patched
  red : d.red < 4096
  green : d.green < 4096
  pixels : d.pixelCount ≤ 256
  inhibit : d.inhibit = false

/-- The decoder after a read in state `s`, on its way into the `switch`. -/
structure ReadInv (d : DvcDecoder) (s : Nat) : Prop where
  data : DataInv d
  state : d.bits.decoderState = s
  lt : s < 48
  ne : s ≠ 37
  next : s ≠ 35 → OkNext s d.bits.nextState
  code : 1 ≤ width s → d.bits.code < 2 ^ width s
  empty : isCommand s = true → d.pixelCount = 0

/-- What the `switch` in state `s` makes of `d`. -/
structure Switched (d : DvcDecoder) (s : Nat) (d' : DvcDecoder) : Prop where
  data : DataInv d'
  state : d'.bits.decoderState = s
  bcnt : d'.bits.ibBcnt ≤ d.bits.ibBcnt
  next : OkNext s d'.bits.nextState
  empty : isCommand s = true ∨ s = 0 → d'.pixelCount = 0

namespace DataInv

variable {d d' : DvcDecoder}

theorem of_eq (h : DataInv d) (hc : d'.cache = d.cache) (hn : d'.next1 = d.next1)
    (hr : d'.red = d.red) (hg : d'.green = d.green) (hp : d'.pixelCount ≤ 256)
    (hi : d'.inhibit = d.inhibit) : DataInv d' where
  palette := hc ▸ h.palette
  next1 := by rw [hn, hc]; exact h.next1
  red := hr ▸ h.red
  green := hg ▸ h.green
  pixels := hp
  inhibit := hi.trans h.inhibit

/-- A cache operation followed by `sync_next1` keeps the patched entry in step. -/
theorem synced (h : DataInv d) {c : DvcCache} {L : List (Int × Bool)} (hc : PaletteInv c L)
    (hL : ∀ p ∈ L, 0 ≤ p.1 ∧ p.1 < 4096) (hcache : d'.cache = c)
    (hn : d'.next1 = d.next1.set 31 c.next131 DvcDecoder.patched)
    (hr : d'.red = d.red) (hg : d'.green = d.green) (hp : d'.pixelCount ≤ 256)
    (hi : d'.inhibit = d.inhibit) : DataInv d' where
  palette := ⟨L, hcache ▸ hc, hL⟩
  next1 := by rw [hn, h.next1, hcache]; simp
  red := hr ▸ h.red
  green := hg ▸ h.green
  pixels := hp
  inhibit := hi.trans h.inhibit

end DataInv

namespace ReadInv

variable {d d' : DvcDecoder} {s : Nat}

/-- A case that keeps the successor and takes no bits back. -/
theorem keep (h : ReadInv d s) (hs : s ≠ 35) (hd : DataInv d')
    (hst : d'.bits.decoderState = d.bits.decoderState) (hb : d'.bits.ibBcnt ≤ d.bits.ibBcnt)
    (hn : d'.bits.nextState = d.bits.nextState)
    (hp : (d'.pixelCount = d.pixelCount ∧ s ≠ 0) ∨ d'.pixelCount = 0) : Switched d s d' where
  data := hd
  state := hst.trans h.state
  bcnt := hb
  next := hn ▸ h.next hs
  empty he := by
    rcases hp with ⟨hp, h0⟩ | hp
    · rw [hp, h.empty (he.resolve_right h0)]
    · exact hp

end ReadInv

/-! ### The cases of the switch -/

namespace DvcDecoder

variable {d : DvcDecoder} {s : Nat}

theorem colorRemapTable_ok {i : Int} (h : 0 ≤ i ∧ i < 4096) :
    colorRemapTable i = .ok (dvcColorRemap i.toNat) := if_pos h

theorem paletteCode_ok (d : DvcDecoder) (s : Nat) : ∃ code, d.paletteCode s = .ok code := by
  unfold paletteCode
  split_ifs
  · exact ⟨_, d.cache.rd_rank (by decide)⟩
  all_goals exact ⟨_, rfl⟩

/-- `putPixel` never writes past the block; the successor stays or becomes 38. -/
theorem putPixel_ok (h : d.pixelCount ≤ 256) : ∃ b p n, d.putPixel =
      .ok { d with block := b, pixelCount := p, bits.nextState := n } ∧
    p ≤ 256 ∧ d.pixelCount ≤ p ∧ (n = d.bits.nextState ∨ n = 38) := by
  unfold putPixel
  by_cases hp : d.pixelCount ≥ 256
  · rw [if_pos hp]
    exact ⟨d.block, d.pixelCount, 38, rfl, h, le_rfl, Or.inr rfl⟩
  · rw [if_neg hp, wr_of_lt (by omega)]
    exact ⟨_, d.pixelCount + 1, d.bits.nextState, rfl, by omega, by omega, Or.inl rfl⟩

theorem emitRun_ok (n : Nat) : ∀ d : DvcDecoder, d.pixelCount ≤ 256 → ∃ b p nx, emitRun n d =
      .ok { d with block := b, pixelCount := p, bits.nextState := nx } ∧
    p ≤ 256 ∧ d.pixelCount ≤ p ∧ (nx = d.bits.nextState ∨ nx = 38) := by
  induction n with
  | zero => intro d h; exact ⟨d.block, d.pixelCount, d.bits.nextState, rfl, h, le_rfl, Or.inl rfl⟩
  | succ n ih =>
      intro d h
      unfold emitRun
      by_cases hp : d.pixelCount ≥ 256
      · rw [if_pos hp]
        exact ⟨d.block, d.pixelCount, 38, rfl, h, le_rfl, Or.inr rfl⟩
      · rw [if_neg hp, wr_of_lt (by omega), ok_bind]
        obtain ⟨b, p, nx, he, h1, h2, h3⟩ := ih
          { d with block := d.block.set d.pixelCount d.lastColor, pixelCount := d.pixelCount + 1 }
          (show d.pixelCount + 1 ≤ 256 by omega)
        exact ⟨b, p, nx, he, h1, by simp only at h2; omega, h3⟩

/-- Dropping the bits up to a byte boundary asks for no more than there are. -/
theorem alignBits_ok (d : DvcDecoder) : ∃ acc code cnt, d.alignBits =
      .ok { d with bits := { d.bits with ibAcc := acc, code := code, ibBcnt := cnt } } ∧
    cnt ≤ d.bits.ibBcnt := by
  unfold alignBits
  by_cases h : d.bits.ibBcnt &&& 7 ≠ 0
  · have h7 : d.bits.ibBcnt &&& 7 ≤ 7 := Nat.and_le_right
    have hle : d.bits.ibBcnt &&& 7 ≤ d.bits.ibBcnt := Nat.and_le_left
    obtain ⟨acc, code, he, -, -⟩ := d.bits.getBits_ok (n := d.bits.ibBcnt &&& 7) (by omega) hle
    rw [if_pos h, he]
    exact ⟨acc, code, _, rfl, Nat.sub_le _ _⟩
  · rw [if_neg h]
    exact ⟨_, _, _, rfl, le_rfl⟩

/-- A parameter that goes into the buffer. -/
theorem caseParam_ok (h : d.cmdPCount ≤ 256) : ∃ buff, d.caseParam =
    .ok { d with cmdPBuff := buff, cmdPCount := d.cmdPCount + 1, cmdLast := d.bits.code } := by
  unfold caseParam
  split
  · rw [wr_of_lt (by omega)]
    exact ⟨_, rfl⟩
  · exact ⟨_, rfl⟩

/-- A parameter that does not. -/
theorem caseParam_overruns (h : 256 < d.cmdPCount) :
    d.caseParam = .error (.command (d.cmdPCount - 1)) := by
  unfold caseParam
  rw [if_pos (by omega), wr, dif_neg (by omega)]
  rfl

end DvcDecoder

namespace ReadInv

variable {d d' : DvcDecoder} {s : Nat}

/-- A successor of state `s`, or the error state. -/
theorem next_or_fatal (h : ReadInv d s) (hs : s ≠ 35) {n : Nat}
    (hn : n = d.bits.nextState ∨ n = 38) : OkNext s n := by
  rcases hn with rfl | rfl
  · exact h.next hs
  · exact okNext_fatal s h.lt

/-- The pixel states are not command states, so the pixels they leave are free. -/
theorem pixel (h : ReadInv d s) (hs : ¬ (isCommand s = true ∨ s = 0)) (hd : DataInv d')
    (hst : d'.bits.decoderState = d.bits.decoderState) (hb : d'.bits.ibBcnt = d.bits.ibBcnt)
    (hn : OkNext s d'.bits.nextState) : Switched d s d' where
  data := hd
  state := hst.trans h.state
  bcnt := Nat.le_of_eq hb
  next := hn
  empty he := absurd he hs

theorem putPixel_switched (h : ReadInv d s) (hs : ¬ (isCommand s = true ∨ s = 0)) (hs35 : s ≠ 35)
    {e : DvcDecoder} (he : DataInv e) (hst : e.bits.decoderState = d.bits.decoderState)
    (hb : e.bits.ibBcnt = d.bits.ibBcnt) (hn : e.bits.nextState = d.bits.nextState) :
    ∃ d', e.putPixel = .ok d' ∧ Switched d s d' := by
  obtain ⟨b, p, n, hput, hp, -, hnx⟩ := DvcDecoder.putPixel_ok he.pixels
  exact ⟨_, hput, h.pixel hs (he.of_eq rfl rfl rfl rfl hp rfl) hst hb
    (h.next_or_fatal hs35 (hn ▸ hnx))⟩

theorem emitRun_switched (h : ReadInv d s) (hs : ¬ (isCommand s = true ∨ s = 0)) (hs35 : s ≠ 35)
    {e : DvcDecoder} (n : Nat) (he : DataInv e) (hst : e.bits.decoderState = d.bits.decoderState)
    (hb : e.bits.ibBcnt = d.bits.ibBcnt) (hn : e.bits.nextState = d.bits.nextState) :
    ∃ d', DvcDecoder.emitRun n e = .ok d' ∧ Switched d s d' := by
  obtain ⟨b, p, nx, hput, hp, -, hnx⟩ := DvcDecoder.emitRun_ok n e he.pixels
  exact ⟨_, hput, h.pixel hs (he.of_eq rfl rfl rfl rfl hp rfl) hst hb
    (h.next_or_fatal hs35 (hn ▸ hnx))⟩

theorem putColor_switched (h : ReadInv d s) (hs : ¬ (isCommand s = true ∨ s = 0)) (hs35 : s ≠ 35)
    {e : DvcDecoder} {i : Int} (hi : 0 ≤ i ∧ i < 4096) (he : DataInv e)
    (hst : e.bits.decoderState = d.bits.decoderState)
    (hb : e.bits.ibBcnt = d.bits.ibBcnt) (hn : e.bits.nextState = d.bits.nextState) :
    ∃ d', e.putColor i = .ok d' ∧ Switched d s d' := by
  rw [DvcDecoder.putColor, DvcDecoder.colorRemapTable_ok hi, ok_bind]
  exact h.putPixel_switched hs hs35 (he.of_eq rfl rfl rfl rfl he.pixels rfl) hst hb hn

/-- A palette colour is always in range of `color_remap_table`. -/
theorem casePalette_switched (h : ReadInv d s) (hs : ¬ (isCommand s = true ∨ s = 0))
    (hs35 : s ≠ 35) : ∃ d', d.casePalette s = .ok d' ∧ Switched d s d' := by
  obtain ⟨L, hP, hL⟩ := h.data.palette
  obtain ⟨code, hcode⟩ := DvcDecoder.paletteCode_ok d s
  obtain ⟨c, hc, hPc⟩ := hP.cacheFind_spec code
  rw [if_pos (Int.natCast_nonneg code)] at hc hPc
  have hL' := MoveToFront.forall_keys_pick (P := fun k => 0 ≤ k ∧ k < 4096) hL (code : Int).toNat
  have hdata : DataInv ((d.setCode code).setCache c) :=
    h.data.synced hPc hL' rfl rfl rfl rfl h.data.pixels rfl
  rw [DvcDecoder.casePalette, hcode, ok_bind, hc, ok_bind]
  dsimp only
  cases hpick : (MoveToFront.pick L (code : Int).toNat).1 with
  | none =>
      rw [Option.getD_none, if_pos rfl]
      exact ⟨_, rfl, h.pixel hs (hdata.of_eq rfl rfl rfl rfl hdata.pixels rfl) rfl rfl
        (okNext_fatal s h.lt)⟩
  | some col =>
      obtain ⟨p, hp, rfl⟩ := List.mem_map.mp (MoveToFront.pick_fst_mem hpick)
      have hrange := hL p hp
      rw [Option.getD_some, if_neg (by omega)]
      exact h.putColor_switched hs hs35 hrange hdata rfl rfl rfl

/-- A new colour is at most 12 bits wide. -/
theorem caseColor_switched (h : ReadInv d s) (hs : ¬ (isCommand s = true ∨ s = 0)) (hs35 : s ≠ 35)
    {e : DvcDecoder} (he : DataInv e) (hcode : e.bits.code < 4096) (hbits : e.bits = d.bits) :
    ∃ d', e.caseColor = .ok d' ∧ Switched d s d' := by
  obtain ⟨L, hP, hL⟩ := he.palette
  have hcol : e.red ||| e.green ||| e.bits.code < 4096 :=
    Nat.or_lt_two_pow (n := 12) (Nat.or_lt_two_pow (n := 12) he.red he.green) hcode
  have hrange : (0 : Int) ≤ (e.red ||| e.green ||| e.bits.code : Nat) ∧
      ((e.red ||| e.green ||| e.bits.code : Nat) : Int) < 4096 :=
    ⟨Int.natCast_nonneg _, Int.ofNat_lt.mpr hcol⟩
  obtain ⟨c, hc, hPc⟩ := hP.cacheLru_spec (e.red ||| e.green ||| e.bits.code : Nat)
  have hL' := MoveToFront.forall_keys_touch (P := fun k => 0 ≤ k ∧ k < 4096) hL 17 hrange
  have hdata : DataInv (DvcDecoder.setCache
      { e with blue := e.bits.code, color := e.red ||| e.green ||| e.bits.code } c) :=
    he.synced hPc hL' rfl rfl rfl rfl he.pixels rfl
  have hst := congrArg DvcBits.decoderState hbits
  have hb := congrArg DvcBits.ibBcnt hbits
  rw [DvcDecoder.caseColor]
  dsimp only
  rw [hc, ok_bind]
  dsimp only
  split
  · exact ⟨_, rfl, h.pixel hs (hdata.of_eq rfl rfl rfl rfl hdata.pixels rfl) hst hb
      (okNext_fatal s h.lt)⟩
  · exact h.putColor_switched hs hs35 hrange hdata hst hb (congrArg DvcBits.nextState hbits)

theorem caseRun_switched (h : ReadInv d 12) : ∃ d', d.caseRun = .ok d' ∧ Switched d 12 d' := by
  unfold DvcDecoder.caseRun
  have hdata {n : Nat} : DataInv (d.setNext n) := h.data.of_eq rfl rfl rfl rfl h.data.pixels rfl
  split
  · exact ⟨_, rfl, h.pixel (by decide) hdata rfl rfl (by decide +kernel : OkNext 12 14)⟩
  · split
    · exact ⟨_, rfl, h.pixel (by decide) hdata rfl rfl (by decide +kernel : OkNext 12 13)⟩
    · exact h.emitRun_switched (by decide) (by decide) _
        (h.data.of_eq rfl rfl rfl rfl h.data.pixels rfl) rfl rfl rfl

theorem nextBlock_switched (h : ReadInv d s) (hs : isCommand s = true) (hs1 : s ≠ 1)
    {e : DvcDecoder} (he : DataInv e) (hst : e.bits.decoderState = d.bits.decoderState)
    (hb : e.bits.ibBcnt = d.bits.ibBcnt) (count : Nat) : Switched d s (e.nextBlock count).1 where
  data := he.of_eq rfl rfl rfl rfl (Nat.zero_le 256) rfl
  state := hst.trans h.state
  bcnt := Nat.le_of_eq hb
  next := okNext_start s h.lt hs hs1
  empty _ := rfl

theorem caseTimeout_switched (h : ReadInv d 27) :
    ∃ d', d.caseTimeout = .ok d' ∧ Switched d 27 d' := by
  unfold DvcDecoder.caseTimeout
  dsimp only
  split
  · obtain ⟨acc, code, cnt, hal, hcnt⟩ := (d.setNext 38).alignBits_ok
    rw [hal]
    exact ⟨_, rfl, h.data.of_eq rfl rfl rfl rfl h.data.pixels rfl, h.state, hcnt,
      okNext_fatal 27 h.lt, fun _ => h.empty (by decide)⟩
  · obtain ⟨acc, code, cnt, hal, hcnt⟩ := d.alignBits_ok
    rw [hal]
    exact ⟨_, rfl, h.keep (by decide) (h.data.of_eq rfl rfl rfl rfl h.data.pixels rfl) rfl hcnt rfl
      (Or.inl ⟨rfl, by decide⟩)⟩

/-- A command may send the decoder to states 37 and 44, and leaves everything the
invariant is about alone otherwise. -/
theorem execCommand_switched (h : ReadInv d 46) :
    ∃ r, d.execCommand = .ok r ∧ Switched d 46 r.1 := by
  have hkeep {e : DvcDecoder} (hc : e.cache = d.cache) (hn1 : e.next1 = d.next1)
      (hr : e.red = d.red) (hg : e.green = d.green) (hp : e.pixelCount = d.pixelCount)
      (hst : e.bits.decoderState = d.bits.decoderState) (hb : e.bits.ibBcnt ≤ d.bits.ibBcnt)
      (hn : e.bits.nextState = d.bits.nextState ∨ OkNext 46 e.bits.nextState)
      (hi : e.inhibit = d.inhibit) : Switched d 46 e := by
    refine ⟨h.data.of_eq hc hn1 hr hg (hp ▸ h.data.pixels) hi, hst.trans h.state, hb, ?_,
      fun _ => hp ▸ h.empty (by decide)⟩
    rcases hn with hn | hn
    · exact hn ▸ h.next (by decide)
    · exact hn
  unfold DvcDecoder.execCommand
  split
  · exact ⟨_, rfl, hkeep rfl rfl rfl rfl rfl rfl le_rfl (Or.inr (by decide +kernel : OkNext 46 37))
      rfl⟩
  · exact ⟨_, rfl, hkeep rfl rfl rfl rfl rfl rfl le_rfl (Or.inr (by decide +kernel : OkNext 46 44))
      rfl⟩
  case h_7 =>
    obtain ⟨acc, code, cnt, hal, hcnt⟩ := d.alignBits_ok
    rw [hal]
    exact ⟨_, rfl, hkeep rfl rfl rfl rfl rfl rfl hcnt (Or.inl rfl) rfl⟩
  all_goals exact ⟨_, rfl, hkeep rfl rfl rfl rfl rfl rfl le_rfl (Or.inl rfl) rfl⟩

theorem caseCommand_switched (h : ReadInv d 46) :
    ∃ r, d.caseCommand = .ok r ∧ Switched d 46 r.1 := by
  unfold DvcDecoder.caseCommand
  split
  · exact ⟨_, rfl, h.keep (by decide) h.data rfl le_rfl rfl (Or.inl ⟨rfl, by decide⟩)⟩
  · obtain ⟨⟨e, ev⟩, he, hsw⟩ := h.execCommand_switched
    rw [he]
    exact ⟨_, rfl, hsw.data.of_eq rfl rfl rfl rfl hsw.data.pixels rfl, hsw.state, hsw.bcnt, hsw.next,
      hsw.empty⟩

theorem casePrint_switched (h : ReadInv d 45) : Switched d 45 d.casePrint.1 := by
  unfold DvcDecoder.casePrint
  split
  · exact h.keep (by decide) (h.data.of_eq rfl rfl rfl rfl h.data.pixels rfl) rfl le_rfl rfl
      (Or.inl ⟨rfl, by decide⟩)
  · exact ⟨h.data.of_eq rfl rfl rfl rfl h.data.pixels rfl, h.state, le_rfl,
      (by decide +kernel : OkNext 45 1), fun _ => h.empty (by decide)⟩

theorem caseFatal_switched (h : ReadInv d 38) : Switched d 38 d.caseFatal.1 := by
  obtain ⟨n, ev, heq, -⟩ := d.caseFatal_counts
  rw [heq]
  exact h.keep (by decide) (h.data.of_eq rfl rfl rfl rfl h.data.pixels rfl) rfl le_rfl rfl
    (Or.inl ⟨rfl, by decide⟩)

/-- Clearing the palette keeps the patched table entry. -/
theorem reset_data (h : ReadInv d s) {e : DvcDecoder} (hc : e.cache = d.cache.cacheReset)
    (hn : e.next1 = d.next1) (hr : e.red < 4096) (hg : e.green < 4096) (hp : e.pixelCount = 0)
    (hi : e.inhibit = d.inhibit) : DataInv e := by
  obtain ⟨L, hP, -⟩ := h.data.palette
  refine ⟨⟨[], hc ▸ hP.cacheReset_spec, fun p hp => absurd hp (List.not_mem_nil)⟩, ?_, hr, hg,
    by rw [hp]; exact Nat.zero_le 256, hi.trans h.data.inhibit⟩
  rw [hn, h.data.next1, hc]
  rfl

theorem caseMode_switched (h : ReadInv d 47) : Switched d 47 d.caseMode.1 := by
  unfold DvcDecoder.caseMode
  dsimp only
  split <;> exact h.keep (by decide) (h.reset_data rfl rfl h.data.red h.data.green rfl rfl) rfl le_rfl
    rfl (Or.inr rfl)

theorem caseHunt_switched (h : ReadInv d 43) : Switched d 43 (d.caseHunt 43) := by
  unfold DvcDecoder.caseHunt
  split
  · exact h.keep (by decide) h.data rfl le_rfl rfl (Or.inl ⟨rfl, by decide⟩)
  · exact h.keep (by decide) (h.data.of_eq rfl rfl rfl rfl h.data.pixels rfl) rfl (Nat.zero_le _) rfl
      (Or.inl ⟨rfl, by decide⟩)

theorem quiet_switched {x : Except Fault DvcDecoder}
    (h : ∃ d', x = .ok d' ∧ Switched d s d') :
    ∃ r, DvcDecoder.quiet x = .ok r ∧ Switched d s r.1 := by
  obtain ⟨d', rfl, h⟩ := h
  exact ⟨_, rfl, h⟩

/-- A 4-bit channel, shifted into place. -/
theorem channel_lt {v k : Nat} (hv : v < 2 ^ 4) (hk : k ≤ 8) : v <<< k < 4096 := by
  rw [Nat.shiftLeft_eq]
  calc v * 2 ^ k < 2 ^ 4 * 2 ^ k := Nat.mul_lt_mul_of_pos_right hv (Nat.two_pow_pos k)
    _ = 2 ^ (4 + k) := (Nat.pow_add 2 4 k).symm
    _ ≤ 2 ^ 12 := Nat.pow_le_pow_right (by decide) (by omega)

/-- **The `switch` keeps the invariant** and never leaves an array, if a parameter that it
stores goes into the buffer. -/
theorem dispatch_switched (h : ReadInv d s) (hfits : s = 24 → d.cmdPCount ≤ 256) :
    ∃ r, d.dispatch s = .ok r ∧ Switched d s r.1 := by
  have hd := h.data
  have hc := h.code
  have hnib : width s = 4 → d.bits.code < 2 ^ 4 := fun hw => hw ▸ hc (by omega)
  unfold DvcDecoder.dispatch
  split
  case h_1 | h_2 | h_3 | h_4 | h_5 | h_6 =>
    exact quiet_switched (h.casePalette_switched (by decide) (by decide))
  case h_7 => exact quiet_switched h.caseRun_switched
  case h_8 =>
    exact quiet_switched (h.emitRun_switched (by decide) (by decide) _
      (hd.of_eq rfl rfl rfl rfl hd.pixels rfl) rfl rfl rfl)
  case h_9 => exact quiet_switched (h.emitRun_switched (by decide) (by decide) _ hd rfl rfl rfl)
  case h_10 => exact quiet_switched (h.putPixel_switched (by decide) (by decide) hd rfl rfl rfl)
  case h_11 =>
    obtain ⟨L, hP, -⟩ := hd.palette
    obtain ⟨a, ha⟩ := hP.pixcode
    exact ⟨_, rfl, h.pixel (by decide) (hd.of_eq rfl rfl rfl rfl hd.pixels rfl) rfl rfl
      (ha ▸ (okNext_pixfan a).1)⟩
  case h_12 =>
    exact ⟨_, rfl, h.keep (by decide) ⟨hd.palette, hd.next1,
      channel_lt (hnib (by decide)) (by decide), hd.green, hd.pixels, hd.inhibit⟩ rfl le_rfl rfl
      (Or.inl ⟨rfl, by decide⟩)⟩
  case h_13 =>
    exact ⟨_, rfl, h.keep (by decide) ⟨hd.palette, hd.next1, hd.red,
      channel_lt (hnib (by decide)) (by decide), hd.pixels, hd.inhibit⟩ rfl le_rfl rfl
      (Or.inl ⟨rfl, by decide⟩)⟩
  case h_14 =>
    exact quiet_switched (h.caseColor_switched (by decide) (by decide) ⟨hd.palette, hd.next1,
      channel_lt (hnib (by decide)) (by decide), channel_lt (hnib (by decide)) (by decide),
      hd.pixels, hd.inhibit⟩ (Nat.lt_trans (hnib (by decide)) (by decide)) rfl)
  case h_15 =>
    exact quiet_switched (h.caseColor_switched (by decide) (by decide) hd
      (Nat.lt_trans (hnib (by decide)) (by decide)) rfl)
  case h_16 | h_17 | h_18 | h_19 | h_20 | h_24 | h_31 =>
    exact ⟨_, rfl, h.keep (by decide) (hd.of_eq rfl rfl rfl rfl hd.pixels rfl) rfl le_rfl rfl
      (Or.inl ⟨rfl, by decide⟩)⟩
  case h_21 =>
    obtain ⟨d', he, hsw⟩ := h.caseTimeout_switched
    exact ⟨_, by rw [he]; rfl, hsw⟩
  case h_22 =>
    obtain ⟨buff, hparam⟩ := DvcDecoder.caseParam_ok (hfits rfl)
    exact quiet_switched ⟨_, hparam, h.keep (by decide) (hd.of_eq rfl rfl rfl rfl hd.pixels rfl) rfl
      le_rfl rfl (Or.inl ⟨rfl, by decide⟩)⟩
  case h_23 => exact h.caseCommand_switched
  case h_25 => exact ⟨_, rfl, h.casePrint_switched⟩
  case h_26 =>
    exact ⟨_, rfl, h.keep (by decide) (h.reset_data rfl rfl (by decide : (0 : Nat) < 4096)
      (by decide : (0 : Nat) < 4096) rfl rfl) rfl le_rfl rfl (Or.inr rfl)⟩
  case h_27 => exact ⟨_, rfl, h.caseFatal_switched⟩
  case h_28 | h_30 => exact ⟨_, rfl, h.nextBlock_switched (by decide) (by decide) hd rfl rfl _⟩
  case h_29 =>
    exact ⟨_, rfl, h.nextBlock_switched (e := d.setCode (d.bits.code + 2)) (by decide) (by decide)
      (hd.of_eq rfl rfl rfl rfl hd.pixels rfl) rfl rfl _⟩
  case h_32 => exact ⟨_, rfl, h.caseMode_switched⟩
  case h_33 => exact ⟨_, rfl, h.caseHunt_switched⟩
  case h_34 => exact ⟨_, rfl, h.keep (by assumption) hd rfl le_rfl rfl (Or.inl ⟨rfl, by assumption⟩)⟩

end ReadInv

/-- A `switch` that was taken. -/
theorem ReadInv.switched {r : DvcDecoder × List Event} (h : ReadInv d s)
    (hr : d.dispatch s = .ok r) : Switched d s r.1 := by
  have hfits : s = 24 → d.cmdPCount ≤ 256 := by
    rintro rfl
    by_contra hcount
    have hstop : d.dispatch 24 = .error (.command (d.cmdPCount - 1)) := by
      show DvcDecoder.quiet d.caseParam = _
      rw [DvcDecoder.caseParam_overruns (Nat.lt_of_not_le hcount)]
      rfl
    rw [hstop] at hr
    cases hr
  obtain ⟨r', hr', hsw⟩ := h.dispatch_switched hfits
  rw [hr] at hr'
  cases hr'
  exact hsw

/-! ### A round of the loop -/

/-- Before a round of the loop. -/
structure LoopInv (d : DvcDecoder) : Prop where
  data : DataInv d
  lt : d.bits.decoderState < 48
  next_lt : d.bits.nextState < 48
  empty : isCommand d.bits.decoderState = true → d.pixelCount = 0
  bcnt : d.bits.ibBcnt ≤ 15
  param : d.bits.decoderState = 46 → d.bits.ibBcnt ≤ 8
  quit : d.bits.decoderState = 37 → d.bits.ibBcnt ≤ 7

/-- Between two bytes. -/
structure ByteInv (d : DvcDecoder) : Prop where
  data : DataInv d
  lt : d.bits.decoderState < 48
  next_lt : d.bits.nextState < 48
  empty : isCommand d.bits.decoderState = true → d.pixelCount = 0
  bcnt : d.bits.ibBcnt ≤ 7
  param : d.bits.decoderState = 46 → d.bits.ibBcnt = 0
  quit : d.bits.decoderState ≠ 37

/-- The next round stores no parameter past the end of `cmd_p_buff`. -/
def Fits (d : DvcDecoder) : Prop :=
  d.bits.decoderState = 24 → width 24 ≤ d.bits.ibBcnt → d.cmdPCount ≤ 256

instance (d : DvcDecoder) : Decidable (Fits d) := by
  unfold Fits
  infer_instance

/-- Rounds to go: every round takes a bit or leaves a state that takes none. -/
def measure (d : DvcDecoder) : Nat :=
  2 * d.bits.ibBcnt + if width d.bits.decoderState = 0 then 1 else 0

/-- The completion branch, which only a pixel state takes. -/
theorem complete_ok {d d' : DvcDecoder} {s : Nat} (h : Switched d s d') :
    ∃ r, d'.complete = .ok r ∧ DataInv r.1 ∧ r.1.bits.decoderState = s ∧
      r.1.bits.ibBcnt = d'.bits.ibBcnt ∧
      (isCommand r.1.bits.nextState = true → r.1.pixelCount = 0) ∧
      (r.1.bits.nextState = d'.bits.nextState ∨ (s ≠ 1 ∧ r.1.bits.nextState = 1)) := by
  unfold DvcDecoder.complete
  split
  · rename_i hc
    obtain ⟨L, hP, hL⟩ := h.data.palette
    obtain ⟨c, hprune, hPc⟩ := hP.cachePrune_spec
    have he : (d'.nextBlock 1).1.cache.cachePrune = .ok c := hprune
    dsimp only
    rw [he, ok_bind]
    refine ⟨_, rfl, h.data.synced hPc
      (MoveToFront.forall_keys_sweep (P := fun k => 0 ≤ k ∧ k < 4096) hL) rfl rfl rfl rfl
      (Nat.zero_le 256) rfl, h.state, rfl, fun _ => rfl, Or.inr ⟨?_, rfl⟩⟩
    rintro rfl
    have := h.empty (Or.inl (by decide))
    omega
  · refine ⟨_, rfl, h.data, h.state, rfl, fun hcmd => h.empty (h.next.command hcmd), Or.inl rfl⟩

/-- The table look-up of a round gives a successor. -/
theorem next_ok {d : DvcDecoder} (hd : DataInv d) {s : Nat} (hs : s < 48) (code : Nat) :
    ∃ n, rd Fault.table (if code = 0 then next0 else d.next1) s = .ok n ∧ n < 48 ∧
      (s ≠ 35 → s ≠ 37 → OkNext s n) := by
  have htab : s ≠ 35 → s ≠ 37 →
      OkNext s (look 0 next0 s) ∧ (s ≠ 31 → OkNext s (look 0 next1Init s)) :=
    okNext_tables s hs
  have hlt : ∀ s < 48, look 0 next0 s < 48 ∧ look 0 next1Init s < 48 := by decide +kernel
  obtain ⟨L, hP, -⟩ := hd.palette
  have h31 : OkNext 31 d.cache.next131 := by
    rcases hP.next131 with h | ⟨a, h⟩
    · rw [h]; decide +kernel
    · rw [h]; exact (okNext_pixfan a).2
  by_cases hcode : code = 0
  · rw [if_pos hcode, rd_eq_look 0 hs]
    exact ⟨_, rfl, (hlt s hs).1, fun h35 h37 => (htab h35 h37).1⟩
  · rw [if_neg hcode, rd_eq_look 0 hs, hd.next1, look_set (by decide)]
    by_cases hs31 : s = 31
    · subst hs31
      exact ⟨_, rfl, by rw [if_pos rfl]; exact h31.lt, fun _ _ => by rw [if_pos rfl]; exact h31⟩
    · exact ⟨_, rfl, by rw [if_neg hs31]; exact (hlt s hs).2,
        fun h35 h37 => by rw [if_neg hs31]; exact (htab h35 h37).2 hs31⟩

/-- What is true of `d'`, fetched from `d`. -/
structure Fetched (d d' : DvcDecoder) : Prop where
  read : d.bits.decoderState ≠ 37 → ReadInv d' d.bits.decoderState
  data : DataInv d'
  state : d'.bits.decoderState = d.bits.decoderState
  count : d'.cmdPCount = d.cmdPCount
  bcnt : d'.bits.ibBcnt = d.bits.ibBcnt - width d.bits.decoderState

theorem fetch_ok {d : DvcDecoder} (h : LoopInv d) (hw : width d.bits.decoderState ≤ d.bits.ibBcnt) :
    ∃ d', d.fetch (width d.bits.decoderState) = .ok d' ∧ Fetched d d' := by
  obtain ⟨acc, code, hget, hcode, -⟩ := d.bits.getBits_ok (width_le _ h.lt) hw
  obtain ⟨n, hn, -, hnext⟩ := next_ok h.data h.lt code
  unfold DvcDecoder.fetch
  rw [hget, ok_bind]
  dsimp only
  rw [hn, ok_bind]
  have hdata {b : DvcBits} : DataInv { d with bits := b } :=
    h.data.of_eq rfl rfl rfl rfl h.data.pixels rfl
  exact ⟨_, rfl, fun h37 => ⟨hdata, rfl, h.lt, h37, fun h35 => hnext h35 h37, hcode, h.empty⟩,
    hdata, rfl, rfl, rfl⟩

/-- The end of a round that went through the `switch`. -/
theorem act_ok {d d' : DvcDecoder} (h : LoopInv d) (hw : width d.bits.decoderState ≤ d.bits.ibBcnt)
    (hf : Fetched d d') (h37 : d.bits.decoderState ≠ 37) (hfits : Fits d) :
    ∃ e ev, d'.act d'.bits.decoderState = .ok (.next e ev) ∧ LoopInv e ∧ measure e < measure d := by
  have hread := hf.read h37
  obtain ⟨⟨d₁, ev⟩, hdisp, hsw⟩ := hread.dispatch_switched fun h24 =>
    hf.count ▸ hfits h24 (h24 ▸ hw)
  obtain ⟨⟨d₂, ev'⟩, hcomp, hdata, hst, hbc, hemp, hnx⟩ := complete_ok hsw
  dsimp only at hcomp hdata hst hbc hemp hnx hdisp hsw
  have hmoves : d₂.bits.nextState = d.bits.decoderState →
      d.bits.decoderState = 45 ∨ d.bits.decoderState = 38 ∨ d.bits.decoderState = 43 := by
    rcases hnx with hn | ⟨hs1, hn⟩
    · exact hn ▸ hsw.next.moves
    · intro he
      exact absurd (he.symm.trans hn) hs1
  have hstay : ¬ (d.bits.decoderState = d₂.bits.nextState ∧ d.bits.decoderState ≠ 45 ∧
      d.bits.decoderState ≠ 38 ∧ d.bits.decoderState ≠ 43) := by
    rintro ⟨he, h45, h38, h43⟩
    rcases hmoves he.symm with h | h | h <;> contradiction
  have hact : d'.act d'.bits.decoderState =
      .ok (.next { d₂ with bits.decoderState := d₂.bits.nextState } (ev ++ ev')) := by
    unfold DvcDecoder.act
    rw [hf.state, if_neg h37, hdisp, ok_bind]
    dsimp only
    rw [hcomp, ok_bind]
    dsimp only
    rw [DvcDecoder.advance, if_neg hstay, pure_eq_ok]
  have hb : d₂.bits.ibBcnt ≤ d.bits.ibBcnt - width d.bits.decoderState := by
    rw [hbc, ← hf.bcnt]
    exact hsw.bcnt
  have hbcnt := h.bcnt
  have hlt : d₂.bits.nextState < 48 := by
    rcases hnx with hn | ⟨-, hn⟩
    · exact hn ▸ hsw.next.lt
    · omega
  refine ⟨_, _, hact, ⟨hdata.of_eq rfl rfl rfl rfl hdata.pixels rfl, hlt, hlt, hemp,
    show d₂.bits.ibBcnt ≤ 15 by omega, fun h46 => ?_, fun h37 => ?_⟩, ?_⟩
  · -- Only state 24 leads to state 46, and it has just read eight bits.
    have h46 : d₂.bits.nextState = 46 := h46
    have h24 : d.bits.decoderState = 24 := hsw.next.param (by omega)
    have hw : width 24 = 8 := by decide
    rw [h24, hw] at hb
    show d₂.bits.ibBcnt ≤ 8
    omega
  · have h37 : d₂.bits.nextState = 37 := h37
    have h46 : d.bits.decoderState = 46 := hsw.next.quit (by omega)
    have hw : width 46 = 1 := by decide
    have := h.param h46
    rw [h46, hw] at hb
    show d₂.bits.ibBcnt ≤ 7
    omega
  · -- A state that reads nothing is followed by one that reads something.
    have hprog : width d.bits.decoderState = 0 → 0 < width d₂.bits.nextState := by
      rcases hnx with hn | ⟨-, hn⟩
      · exact hn ▸ hsw.next.progress
      · intro _
        rw [hn]
        decide
    show 2 * d₂.bits.ibBcnt + (if width d₂.bits.nextState = 0 then 1 else 0) <
      2 * d.bits.ibBcnt + (if width d.bits.decoderState = 0 then 1 else 0)
    split_ifs <;> omega

/-- A round, once the state is known to be in the tables. -/
theorem DvcDecoder.iterate_eq {d : DvcDecoder} (hlt : d.bits.decoderState < 48) :
    d.iterate = if width d.bits.decoderState > d.bits.ibBcnt then .ok .wait
      else d.fetch (width d.bits.decoderState) >>= fun d => d.act d.bits.decoderState := by
  unfold DvcDecoder.iterate
  rw [rd_eq_look 0 hlt, ok_bind]
  rfl

/-- What a round comes to: it waits only with fewer bits left than the state reads, exits only
with 1, in state 37, and otherwise keeps the invariant and lowers the measure. -/
def DvcDecoder.Round.Keeps (d : DvcDecoder) : DvcDecoder.Round → Prop
  | .wait => d.bits.ibBcnt < width d.bits.decoderState
  | .exit n d' _ => n = 1 ∧ d.bits.decoderState = 37 ∧ DataInv d' ∧ d'.bits.ibBcnt ≤ 7
  | .next d' _ => LoopInv d' ∧ measure d' < measure d

/-- **One round** does not fault, if its parameter goes into the buffer. -/
theorem iterate_ok {d : DvcDecoder} (h : LoopInv d) (hfits : Fits d) :
    ∃ r, d.iterate = .ok r ∧ r.Keeps d := by
  rw [DvcDecoder.iterate_eq h.lt]
  by_cases hwait : width d.bits.decoderState > d.bits.ibBcnt
  · rw [if_pos hwait]
    exact ⟨_, rfl, hwait⟩
  rw [if_neg hwait]
  obtain ⟨d', hfetch, hf⟩ := fetch_ok h (Nat.le_of_not_lt hwait)
  rw [hfetch, ok_bind]
  by_cases h37 : d.bits.decoderState = 37
  · have hact : d'.act d'.bits.decoderState = .ok (.exit 1 d' []) := by
      unfold DvcDecoder.act
      rw [if_pos (hf.state.trans h37)]
      rfl
    have hq := h.quit h37
    have hb := hf.bcnt
    exact ⟨_, hact, rfl, h37, hf.data, by omega⟩
  · obtain ⟨e, ev, hact, he, hm⟩ := act_ok h (Nat.le_of_not_lt hwait) hf h37 hfits
    exact ⟨_, hact, he, hm⟩

/-- Otherwise the store stops it. -/
theorem iterate_overruns {d : DvcDecoder} (h : LoopInv d) (hfits : ¬ Fits d) :
    256 < d.cmdPCount ∧ d.iterate = .error (.command (d.cmdPCount - 1)) := by
  obtain ⟨h24, hbits, hcount⟩ : d.bits.decoderState = 24 ∧ width 24 ≤ d.bits.ibBcnt ∧
      256 < d.cmdPCount := by
    unfold Fits at hfits
    push Not at hfits
    exact hfits
  refine ⟨hcount, ?_⟩
  rw [DvcDecoder.iterate_eq h.lt, h24, if_neg (Nat.not_lt.mpr hbits)]
  obtain ⟨d', hfetch, hf⟩ := fetch_ok h (h24 ▸ hbits)
  have hstate := hf.state.trans h24
  have hstore : d'.caseParam = .error (.command (d.cmdPCount - 1)) := by
    rw [DvcDecoder.caseParam_overruns (hf.count ▸ hcount), hf.count]
  rw [h24] at hfetch
  rw [hfetch, ok_bind, hstate, DvcDecoder.act, if_neg (by decide)]
  show (DvcDecoder.quiet d'.caseParam >>= _) = _
  rw [hstore]
  rfl

theorem fits_of_iterate {d : DvcDecoder} (h : LoopInv d) {r : DvcDecoder.Round}
    (hr : d.iterate = .ok r) : Fits d := by
  by_contra hfits
  rw [(iterate_overruns h hfits).2] at hr
  cases hr

/-- **A round that is taken.** -/
theorem iterate_keeps {d : DvcDecoder} (h : LoopInv d) {r : DvcDecoder.Round}
    (hr : d.iterate = .ok r) : r.Keeps d := by
  obtain ⟨r', hr', hkeeps⟩ := iterate_ok h (fits_of_iterate h hr)
  rw [hr] at hr'
  cases hr'
  exact hkeeps

end Ilo2.Dvc
