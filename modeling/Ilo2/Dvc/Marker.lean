import Ilo2.Dvc.CommandBuffer

/-!
# Reset markers

`zero_count` is the number of 0 bits at the end of what has come in, so the bits that the
accumulator still holds end with as many (`Tail`).  A byte that takes the count past 30
sends the decoder to `HUNT`, where it drops 0 bits up to the next 1 bit.

* `byte_marker`, `byte_plain` - **what a byte does**: it ends a marker, prolongs one, or is
  decoded.
* `restarted_of_feed` - **five zero bytes and one that is not zero restart the decoder**,
  whatever state it is in.
-/

namespace Ilo2.Dvc

open Checked

/-! ### The accumulator -/

namespace DvcBits

/-- The last `zero_count` bits that have come in are zero. -/
def Tail (b : DvcBits) : Prop := b.ibAcc < 2 ^ (b.ibBcnt - b.zeroCount)

/-- Some bits are taken; `HUNT` is not entered. -/
structure Moves (b b' : DvcBits) : Prop where
  takes : ∃ k ≤ b.ibBcnt, b'.ibAcc = b.ibAcc >>> k ∧ b'.ibBcnt = b.ibBcnt - k
  zeroCount : b'.zeroCount = b.zeroCount
  hunt : b'.nextState = HUNT → b.nextState = HUNT

namespace Moves

variable {b b' b'' : DvcBits}

theorem of_next (ha : b'.ibAcc = b.ibAcc) (hc : b'.ibBcnt = b.ibBcnt)
    (hz : b'.zeroCount = b.zeroCount) (hn : b'.nextState = b.nextState ∨ b'.nextState ≠ HUNT) :
    Moves b b' where
  takes := ⟨0, Nat.zero_le _, ha, hc⟩
  zeroCount := hz
  hunt h := by
    rcases hn with hn | hn
    · exact hn ▸ h
    · exact absurd h hn

theorem refl (b : DvcBits) : Moves b b := of_next rfl rfl rfl (Or.inl rfl)

theorem trans (h : Moves b b') (g : Moves b' b'') : Moves b b'' := by
  obtain ⟨k, hk, ha, hc⟩ := h.takes
  obtain ⟨m, hm, ha', hc'⟩ := g.takes
  refine ⟨⟨k + m, by omega, ?_, by omega⟩, g.zeroCount.trans h.zeroCount, fun hn => h.hunt (g.hunt hn)⟩
  rw [ha', ha, Nat.shiftRight_add]

end Moves

variable {b b' : DvcBits}

/-- The bits that are taken are the oldest. -/
theorem Tail.moves (h : Tail b) (hm : Moves b b') : Tail b' := by
  obtain ⟨k, -, ha, hc⟩ := hm.takes
  unfold Tail at h ⊢
  rw [ha, hc, hm.zeroCount, Nat.shiftRight_eq_div_pow, Nat.div_lt_iff_lt_mul (Nat.two_pow_pos k),
    ← Nat.pow_add]
  exact Nat.lt_of_lt_of_le h (Nat.pow_le_pow_right (by decide) (by omega))

theorem getBits_moves {n : Nat} (h : b.getBits n = .ok b') : Moves b b' := by
  unfold getBits at h
  split at h
  · cases h
  rename_i hn
  split at h
  · cases h
    exact ⟨⟨1, by omega, rfl, rfl⟩, rfl, id⟩
  split at h
  · cases h
    exact .refl b
  · cases h
    exact ⟨⟨n, by omega, rfl, rfl⟩, rfl, id⟩

end DvcBits

open DvcBits

/-! ### A round outside `HUNT` -/

namespace DvcDecoder

variable {d d' : DvcDecoder} {s : Nat} {ev : List Event}

/-- A successor that is not `HUNT`. -/
theorem setNext_moves {n : Nat} (hn : n ≠ HUNT) : Moves d.bits (d.setNext n).bits :=
  .of_next rfl rfl rfl (Or.inr hn)

/-- A change of `code` is no move. -/
theorem setCode_moves {v : Nat} (h : Moves (d.setCode v).bits d'.bits) : Moves d.bits d'.bits :=
  ⟨h.takes, h.zeroCount, h.hunt⟩

theorem putPixel_moves (h : d.putPixel = .ok d') : Moves d.bits d'.bits := by
  unfold putPixel at h
  split at h
  · cases h
    exact setNext_moves (by decide)
  · obtain ⟨b, -, hb⟩ := bind_eq_ok.mp h
    cases hb
    exact .refl _

theorem emitRun_moves {n : Nat} : ∀ {d : DvcDecoder}, emitRun n d = .ok d' →
    Moves d.bits d'.bits := by
  induction n with
  | zero =>
      intro d h
      cases h
      exact .refl _
  | succ n ih =>
      intro d h
      unfold emitRun at h
      split at h
      · cases h
        exact setNext_moves (by decide)
      · obtain ⟨b, -, hb⟩ := bind_eq_ok.mp h
        have hm := ih hb
        exact hm

theorem putColor_moves {i : Int} (h : d.putColor i = .ok d') : Moves d.bits d'.bits := by
  obtain ⟨c, -, hc⟩ := bind_eq_ok.mp h
  have hm := putPixel_moves hc
  exact hm

theorem casePalette_moves (h : d.casePalette s = .ok d') : Moves d.bits d'.bits := by
  obtain ⟨code, -, h⟩ := bind_eq_ok.mp h
  obtain ⟨⟨col, cache⟩, -, h⟩ := bind_eq_ok.mp h
  dsimp only at h
  split at h
  · cases h
    exact .of_next rfl rfl rfl (Or.inr (show 38 ≠ 43 by decide))
  · have hm := putColor_moves h
    exact setCode_moves (d := d) (v := code) hm

theorem caseRun_moves (h : d.caseRun = .ok d') : Moves d.bits d'.bits := by
  unfold caseRun at h
  split at h
  · cases h
    exact setNext_moves (by decide)
  split at h
  · cases h
    exact setNext_moves (by decide)
  · exact setCode_moves (emitRun_moves h)

theorem caseColor_moves (h : d.caseColor = .ok d') : Moves d.bits d'.bits := by
  obtain ⟨⟨hit, cache⟩, -, h⟩ := bind_eq_ok.mp h
  dsimp only at h
  split at h
  · cases h
    exact setNext_moves (by decide)
  · have hm := putColor_moves h
    exact hm

theorem alignBits_moves (h : d.alignBits = .ok d') : Moves d.bits d'.bits := by
  unfold alignBits at h
  split at h
  · obtain ⟨b, hb, h⟩ := bind_eq_ok.mp h
    cases h
    exact getBits_moves hb
  · cases h
    exact .refl _

theorem caseTimeout_moves (h : d.caseTimeout = .ok d') : Moves d.bits d'.bits := by
  obtain ⟨e, he, h⟩ := bind_eq_ok.mp h
  cases h
  have hm := alignBits_moves he
  split at hm
  · exact (setNext_moves (by decide)).trans hm
  · exact hm

theorem execCommand_moves (h : d.execCommand = .ok (d', ev)) : Moves d.bits d'.bits := by
  cases execCommand_cases h with
  | exits | prints => exact setNext_moves (by decide)
  | rekey _ hal => exact alignBits_moves hal
  | _ => exact .refl _

theorem caseCommand_moves (h : d.caseCommand = .ok (d', ev)) : Moves d.bits d'.bits := by
  obtain ⟨-, rfl, -⟩ | ⟨-, e, he, rfl⟩ := caseCommand_cases h
  · exact .refl _
  · have hm := execCommand_moves he
    exact hm

theorem casePrint_moves (d : DvcDecoder) : Moves d.bits d.casePrint.1.bits := by
  unfold casePrint
  split
  · exact .refl _
  · exact setNext_moves (by decide)

theorem caseFatal_bits (d : DvcDecoder) : d.caseFatal.1.bits = d.bits := by
  obtain ⟨n, ev, heq, -⟩ := d.caseFatal_counts
  rw [heq]

theorem caseMode_bits (d : DvcDecoder) : d.caseMode.1.bits = d.bits := by
  unfold caseMode
  dsimp only
  split <;> rfl

theorem nextBlock_moves (d : DvcDecoder) (count : Nat) : Moves d.bits (d.nextBlock count).1.bits :=
  .of_next rfl rfl rfl (Or.inr (show 1 ≠ 43 by decide))

/-- **The `switch` takes bits from the front**, outside `HUNT`. -/
theorem dispatch_moves (hd : DataInv d) (hs : s ≠ HUNT) (h : d.dispatch s = .ok (d', ev)) :
    Moves d.bits d'.bits := by
  unfold dispatch at h
  split at h
  case h_1 | h_2 | h_3 | h_4 | h_5 | h_6 => exact casePalette_moves (quiet_eq_ok h).1
  case h_7 => exact caseRun_moves (quiet_eq_ok h).1
  case h_8 => exact setCode_moves (emitRun_moves (quiet_eq_ok h).1)
  case h_9 => exact emitRun_moves (quiet_eq_ok h).1
  case h_10 => exact putPixel_moves (quiet_eq_ok h).1
  case h_11 =>
    cases h
    obtain ⟨L, hP, -⟩ := hd.palette
    obtain ⟨a, ha⟩ := hP.pixcode
    refine .of_next rfl rfl rfl (Or.inr ?_)
    rw [show (d.setNext d.cache.pixcode).bits.nextState = pixfan a from ha]
    rcases pixfan_cases a with h | h | h | h | h | h <;> rw [h] <;> decide
  case h_14 =>
    have hm := caseColor_moves (quiet_eq_ok h).1
    exact hm
  case h_15 => exact caseColor_moves (quiet_eq_ok h).1
  case h_21 =>
    obtain ⟨e, he, h⟩ := bind_eq_ok.mp h
    cases h
    have hm := caseTimeout_moves he
    exact hm
  case h_23 => exact caseCommand_moves h
  case h_25 =>
    obtain ⟨rfl, -⟩ := ok_pair h
    exact casePrint_moves d
  case h_27 =>
    obtain ⟨rfl, -⟩ := ok_pair h
    rw [caseFatal_bits]
    exact .refl _
  case h_28 =>
    cases h
    exact nextBlock_moves d 1
  case h_29 =>
    cases h
    exact setCode_moves (nextBlock_moves _ (d.bits.code + 2))
  case h_30 =>
    cases h
    exact nextBlock_moves d d.bits.code
  case h_32 =>
    obtain ⟨rfl, -⟩ := ok_pair h
    rw [caseMode_bits]
    exact .refl _
  case h_33 => exact absurd rfl hs
  case h_22 =>
    obtain ⟨buff, rfl⟩ := caseParam_cases (quiet_eq_ok h).1
    exact .of_next rfl rfl rfl (Or.inl rfl)
  all_goals
    cases h
    exact .of_next rfl rfl rfl (Or.inl rfl)

theorem complete_moves (h : d.complete = .ok (d', ev)) : Moves d.bits d'.bits := by
  unfold complete at h
  split at h
  · obtain ⟨c, -, h⟩ := bind_eq_ok.mp h
    cases h
    exact nextBlock_moves d 1
  · cases h
    exact .refl _

/-- No table leads to `HUNT`, `HUNT` aside. -/
theorem fetch_moves {need : Nat} (hd : DataInv d) (hlt : d.bits.decoderState < 48)
    (hs : d.bits.decoderState ≠ HUNT) (h : d.fetch need = .ok d') :
    Moves d.bits d'.bits ∧ d'.bits.nextState ≠ HUNT := by
  have htab : ∀ s < 48, s ≠ HUNT → look 0 next0 s ≠ HUNT ∧ look 0 next1Init s ≠ HUNT := by
    decide +kernel
  have hst := (fetch_eq h).2
  obtain ⟨b, hb, h⟩ := bind_eq_ok.mp h
  obtain ⟨n, hn, h⟩ := bind_eq_ok.mp h
  cases h
  have hst : b.decoderState = d.bits.decoderState := hst
  have hne : n ≠ HUNT := by
    rw [hst, rd_eq_look 0 hlt] at hn
    cases hn
    split
    · exact (htab _ hlt hs).1
    rw [hd.next1, look_set (by decide)]
    split
    · obtain ⟨L, hP, -⟩ := hd.palette
      rcases hP.next131 with h | ⟨a, h⟩
      · rw [h]
        decide
      · rw [h]
        rcases pixfan_cases a with h | h | h | h | h | h <;> rw [h] <;> decide
    · exact (htab _ hlt hs).2
  have hm := getBits_moves hb
  exact ⟨⟨hm.takes, hm.zeroCount, fun hn => absurd hn hne⟩, hne⟩

/-- **A round outside `HUNT`** takes bits from the front, and stays outside. -/
theorem iterate_moves (hinv : LoopInv d) (hs : d.bits.decoderState ≠ HUNT)
    (h : d.iterate = .ok (.next d' ev)) :
    Moves d.bits d'.bits ∧ d'.bits.decoderState ≠ HUNT := by
  obtain ⟨d₁, d₂, d₃, ev₁, ev₂, hw, -, rfl⟩ := iterate_next hinv.lt h
  obtain ⟨hd₁, hst⟩ := fetch_eq hw.fetch
  obtain ⟨hm₁, hn₁⟩ := fetch_moves hinv.data hinv.lt hs hw.fetch
  have hdata : DataInv d₁ := by
    rw [hd₁]
    exact hinv.data.of_eq rfl rfl rfl rfl hinv.data.pixels rfl
  have hm₂ := dispatch_moves hdata (hst ▸ hs) hw.dispatch
  have hm₃ := complete_moves hw.complete
  have hm := (hm₁.trans hm₂).trans hm₃
  exact ⟨⟨hm.takes, hm.zeroCount, hm.hunt⟩, fun hn => hn₁ (hm₂.hunt (hm₃.hunt hn))⟩

theorem loop_moves {fuel n : Nat} : ∀ {d : DvcDecoder} {ev : List Event}, LoopInv d →
    d.bits.decoderState ≠ HUNT → loop fuel d = .ok (n, d', ev) →
    Moves d.bits d'.bits ∧ d'.bits.decoderState ≠ HUNT := by
  induction fuel with
  | zero =>
      intro d ev _ _ h
      cases h
  | succ fuel ih =>
      intro d ev hinv hs h
      obtain ⟨r, hr, hround⟩ := bind_eq_ok.mp h
      cases r with
      | wait =>
          cases hround
          exact ⟨.refl _, hs⟩
      | exit m e ev' =>
          cases hround
          obtain ⟨-, hfetch, -⟩ := iterate_exit hinv hr
          exact ⟨(fetch_moves hinv.data hinv.lt hs hfetch).1, (fetch_eq hfetch).2 ▸ hs⟩
      | next e ev' =>
          obtain ⟨⟨m, e', ev''⟩, hrec, he⟩ := bind_eq_ok.mp hround
          cases he
          obtain ⟨hm, hs'⟩ := iterate_moves hinv hs hr
          obtain ⟨hm', hs''⟩ := ih (iterate_keeps hinv hr).1 hs' hrec
          exact ⟨hm.trans hm', hs''⟩

/-! ### In `HUNT` -/

/-- The decoder after a reset marker. -/
def restarted (d : DvcDecoder) : DvcDecoder :=
  { d with
    bits := { code := 1, decoderState := 1, nextState := 1 }
    countBytes := 0 }.caseReset

/-- Reading one bit. -/
theorem fetch_one (hb : 1 ≤ d.bits.ibBcnt) (hlt : d.bits.decoderState < 48) : d.fetch 1 =
    .ok { d with bits := { d.bits with
      code := d.bits.ibAcc &&& 1
      ibAcc := d.bits.ibAcc >>> 1
      ibBcnt := d.bits.ibBcnt - 1
      nextState := look 0 (if d.bits.ibAcc &&& 1 = 0 then next0 else d.next1)
        d.bits.decoderState } } := by
  have hget : d.bits.getBits 1 = .ok { d.bits with
      code := d.bits.ibAcc &&& 1, ibAcc := d.bits.ibAcc >>> 1, ibBcnt := d.bits.ibBcnt - 1 } := by
    unfold DvcBits.getBits
    rw [if_neg (by omega), if_pos rfl]
  unfold fetch
  rw [hget, ok_bind]
  dsimp only
  rw [rd_eq_look 0 hlt, ok_bind]

/-- A 0 bit is dropped. -/
theorem iterate_hunt_zero (hs : d.bits.decoderState = HUNT) (hb : 1 ≤ d.bits.ibBcnt)
    (hbit : d.bits.ibAcc &&& 1 = 0) : d.iterate = .ok (.next { d with bits := { d.bits with
      code := 0, ibAcc := d.bits.ibAcc >>> 1, ibBcnt := d.bits.ibBcnt - 1, nextState := HUNT,
      decoderState := HUNT } } []) := by
  have hlt : d.bits.decoderState < 48 := by rw [hs]; decide
  have hw : width d.bits.decoderState = 1 := by rw [hs]; decide
  rw [iterate_eq hlt, hw, if_neg (by omega), fetch_one hb hlt, ok_bind, hbit, if_pos rfl, hs]
  rfl

/-- A 1 bit ends the marker. -/
theorem iterate_hunt_one (hs : d.bits.decoderState = HUNT) (hb : 1 ≤ d.bits.ibBcnt)
    (hbit : d.bits.ibAcc &&& 1 = 1) {x : Nat} (hn : d.next1 = next1Init.set 31 x patched) :
    d.iterate = .ok (.next { d with
      bits := { code := 1, decoderState := 0, nextState := 0 }
      countBytes := 0 } []) := by
  have hlt : d.bits.decoderState < 48 := by rw [hs]; decide
  have hw : width d.bits.decoderState = 1 := by rw [hs]; decide
  rw [iterate_eq hlt, hw, if_neg (by omega), fetch_one hb hlt, ok_bind, hbit,
    if_neg (by decide), hs, hn, look_set (by decide), if_neg (by decide)]
  rfl

/-- Reading nothing. -/
theorem fetch_zero (hlt : d.bits.decoderState < 48) : d.fetch 0 =
    .ok { d with
      bits.nextState := look 0 (if d.bits.code = 0 then next0 else d.next1) d.bits.decoderState } := by
  unfold fetch
  rw [getBits_zero, ok_bind, rd_eq_look 0 hlt, ok_bind]

/-- The reset itself. -/
theorem iterate_reset {x : Nat} (hn : d.next1 = next1Init.set 31 x patched)
    (hbits : d.bits = { code := 1, decoderState := 0, nextState := 0 }) :
    d.iterate = .ok (.next { d.caseReset with
      bits := { code := 1, decoderState := 1, nextState := 1 } } []) := by
  have hs : d.bits.decoderState = 0 := by rw [hbits]
  have hw : width 0 = 0 := by decide
  have hnext : look 0 (if d.bits.code = 0 then next0 else d.next1) 0 = 1 := by
    rw [hbits, if_neg (by decide), hn, look_set (by decide), if_neg (by decide)]
    decide
  rw [iterate_eq (by omega), hs, hw, if_neg (Nat.not_lt_zero _), fetch_zero (by omega), ok_bind,
    hs, hnext, hbits]
  rfl

/-- The decoder in `HUNT`, with nothing left to read. -/
def hunting (d : DvcDecoder) (code next : Nat) : DvcDecoder :=
  { d with bits :=
    { zeroCount := d.bits.zeroCount, code := code, decoderState := HUNT, nextState := next } }

theorem eq_hunting (hacc : d.bits.ibAcc = 0) (hb : d.bits.ibBcnt = 0)
    (hs : d.bits.decoderState = HUNT) : d = d.hunting d.bits.code d.bits.nextState := by
  have hbits : d.bits = { d.bits with ibAcc := 0, ibBcnt := 0, decoderState := HUNT } := by
    rcases hbits : d.bits with ⟨acc, bcnt, zc, code, st, next⟩
    rw [hbits] at hacc hb hs
    obtain rfl : acc = 0 := hacc
    obtain rfl : bcnt = 0 := hb
    obtain rfl : st = HUNT := hs
    rfl
  exact congrArg (fun b => { d with bits := b }) hbits

/-- **The end of a marker**: 0 bits are dropped up to the first 1 bit, which restarts the
decoder and drops what follows it. -/
theorem hunt_loop {x : Nat} (m : Nat) : ∀ (fuel : Nat) (d : DvcDecoder), 2 * m < fuel →
    d.bits.ibBcnt = m → d.bits.decoderState = HUNT → d.next1 = next1Init.set 31 x patched →
    d.bits.ibAcc < 2 ^ m →
    if d.bits.ibAcc = 0 then ∃ code next, loop fuel d = .ok (0, d.hunting code next, [])
    else loop fuel d = .ok (0, d.restarted, []) := by
  induction m with
  | zero =>
      intro fuel d hfuel hb hs hn hacc
      obtain ⟨k, rfl⟩ : ∃ k, fuel = k + 1 := ⟨fuel - 1, by omega⟩
      have hw : width d.bits.decoderState = 1 := by rw [hs]; decide
      have hwait : d.iterate = .ok .wait := by
        rw [iterate_eq (by rw [hs]; decide), hw, if_pos (by omega)]
      have hzero : d.bits.ibAcc = 0 := by omega
      rw [if_pos hzero, loop_wait hwait]
      refine ⟨d.bits.code, d.bits.nextState, ?_⟩
      rw [← eq_hunting hzero hb hs]
  | succ m ih =>
      intro fuel d hfuel hb hs hn hacc
      obtain ⟨k, rfl⟩ : ∃ k, fuel = k + 1 := ⟨fuel - 1, by omega⟩
      have hbit : d.bits.ibAcc &&& 1 = d.bits.ibAcc % 2 := Nat.and_one_is_mod _
      have hhalf : d.bits.ibAcc >>> 1 = d.bits.ibAcc / 2 := Nat.shiftRight_eq_div_pow _ 1
      rcases Nat.mod_two_eq_zero_or_one d.bits.ibAcc with h0 | h1
      · rw [loop_next (iterate_hunt_zero hs (by omega) (hbit.trans h0))]
        have hrec := ih k { d with bits := { d.bits with
          code := 0, ibAcc := d.bits.ibAcc >>> 1, ibBcnt := d.bits.ibBcnt - 1, nextState := HUNT,
          decoderState := HUNT } } (by omega) (by show d.bits.ibBcnt - 1 = m; omega) rfl hn
          (by show d.bits.ibAcc >>> 1 < 2 ^ m; omega)
        by_cases hzero : d.bits.ibAcc = 0
        · rw [if_pos (by show d.bits.ibAcc >>> 1 = 0; omega)] at hrec
          obtain ⟨code, next, hrec⟩ := hrec
          rw [if_pos hzero, hrec, ok_bind]
          exact ⟨code, next, rfl⟩
        · rw [if_neg (by show d.bits.ibAcc >>> 1 ≠ 0; omega)] at hrec
          rw [if_neg hzero, hrec, ok_bind]
          rfl
      · rw [if_neg (by omega), loop_next (iterate_hunt_one hs (by omega) (hbit.trans h1) hn)]
        obtain ⟨k, rfl⟩ : ∃ j, k = j + 2 := ⟨k - 2, by omega⟩
        have hreset := iterate_reset (d := { d with
          bits := { code := 1, decoderState := 0, nextState := 0 }, countBytes := 0 }) hn rfl
        have hwait : d.restarted.iterate = .ok .wait := rfl
        rw [loop_next hreset]
        have hlast : loop (k + 1) d.restarted = .ok (0, d.restarted, []) := loop_wait hwait
        exact congrArg (fun r => (r >>= fun r => .ok (r.1, r.2.1, [] ++ r.2.2)) >>=
          fun r => .ok (r.1, r.2.1, [] ++ r.2.2)) hlast

end DvcDecoder

/-! ### A byte -/

theorem right_le : ∀ n < 256, right n ≤ 8 := by decide +kernel

theorem left_le : ∀ n < 256, n ≠ 0 → left n ≤ 7 := by decide +kernel

theorem lt_left : ∀ n < 256, n ≠ 0 → n < 2 ^ (8 - left n) := by decide +kernel

/-- The run of zeros at the end, after one more byte. -/
def zeroRun (zeroCount : Nat) (c : UInt8) : Nat := if c = 0 then zeroCount + 8 else left c.toNat

/-- Between two bytes. -/
structure MarkerInv (d : DvcDecoder) : Prop where
  tail : Tail d.bits
  hunt : d.bits.decoderState = HUNT ↔ 30 < d.bits.zeroCount

theorem toNat_ne_zero {c : UInt8} (h : c ≠ 0) : c.toNat ≠ 0 := fun h0 => h (UInt8.toNat_inj.mp h0)

/-- The bits of a byte, above those that are left. -/
theorem addBits_acc {c : UInt8} {n : Nat} (hn : n ≤ 7) :
    (c.toNat <<< n) % 2 ^ 32 = c.toNat <<< n := by
  apply Nat.mod_eq_of_lt
  rw [Nat.shiftLeft_eq]
  calc c.toNat * 2 ^ n < 2 ^ 8 * 2 ^ n := Nat.mul_lt_mul_of_pos_right c.toNat_lt (Nat.two_pow_pos n)
    _ = 2 ^ (8 + n) := (Nat.pow_add 2 8 n).symm
    _ ≤ 2 ^ 32 := Nat.pow_le_pow_right (by decide) (by omega)

/-- The bits of a byte go after those that are left. -/
theorem tail_push {acc n zeroCount : Nat} (h : acc < 2 ^ (n - zeroCount)) (c : UInt8) :
    acc ||| c.toNat <<< n < 2 ^ (n + 8 - zeroRun zeroCount c) := by
  unfold zeroRun
  by_cases h0 : c = 0
  · rw [if_pos h0, h0, Nat.add_sub_add_right]
    show acc ||| 0 <<< n < _
    rwa [Nat.zero_shiftLeft, Nat.or_zero]
  · have hleft := left_le c.toNat c.toNat_lt (toNat_ne_zero h0)
    rw [if_neg h0]
    apply Nat.or_lt_two_pow
    · exact Nat.lt_of_lt_of_le h (Nat.pow_le_pow_right (by decide) (by omega))
    · rw [Nat.shiftLeft_eq, show n + 8 - left c.toNat = 8 - left c.toNat + n by omega, Nat.pow_add]
      exact Nat.mul_lt_mul_of_pos_right (lt_left c.toNat c.toNat_lt (toNat_ne_zero h0))
        (Nat.two_pow_pos n)

namespace DvcDecoder

variable {d d₀ d' : DvcDecoder} {c : UInt8} {ev : List Event}

theorem enter_marker (hb : d.bits.ibBcnt ≤ 7) (hc : 30 < d.bits.zeroCount + right c.toNat) :
    ∃ d₀, d.enter c = .ok d₀ ∧ d₀ = { d with
      bits := { d.bits with
        ibAcc := d.bits.ibAcc ||| c.toNat <<< d.bits.ibBcnt
        ibBcnt := d.bits.ibBcnt + 8
        zeroCount := d.bits.zeroCount + right c.toNat
        decoderState := HUNT
        nextState := HUNT }
      countBytes := d.countBytes + 1 } := by
  refine ⟨_, ?_, rfl⟩
  unfold enter DvcBits.addBits
  rw [if_neg (by omega)]
  dsimp only
  rw [if_pos hc, addBits_acc hb]
  rfl

theorem enter_plain (hb : d.bits.ibBcnt ≤ 7) (hc : d.bits.zeroCount + right c.toNat ≤ 30) :
    ∃ d₀, d.enter c = .ok d₀ ∧ d₀ = { d with
      bits := { d.bits with
        ibAcc := d.bits.ibAcc ||| c.toNat <<< d.bits.ibBcnt
        ibBcnt := d.bits.ibBcnt + 8
        zeroCount := zeroRun d.bits.zeroCount c }
      countBytes := d.countBytes + 1 } := by
  refine ⟨_, ?_, rfl⟩
  unfold enter DvcBits.addBits zeroRun
  rw [if_neg (by omega)]
  dsimp only
  rw [if_neg (by omega), addBits_acc hb]
  by_cases h0 : c = 0
  · subst h0
    rfl
  · rw [if_pos h0, if_neg h0]
    rfl

/-- Bits that are all zero: a reset marker leaves no other. -/
theorem acc_eq_zero (h : ByteInv d) (hm : MarkerInv d)
    (hc : 30 < d.bits.zeroCount + right c.toNat) : d.bits.ibAcc = 0 := by
  have htail : d.bits.ibAcc < 2 ^ (d.bits.ibBcnt - d.bits.zeroCount) := hm.tail
  have hb := h.bcnt
  have hr := right_le c.toNat c.toNat_lt
  rw [show d.bits.ibBcnt - d.bits.zeroCount = 0 by omega] at htail
  omega

/-- **A byte within a marker**: 0 prolongs it, any other byte ends it. -/
theorem byte_marker (h : ByteInv d) (hm : MarkerInv d)
    (hc : 30 < d.bits.zeroCount + right c.toNat) :
    if c = 0 then ∃ b n, d.processDvc c = .ok ({ d with bits := b, countBytes := n }, []) ∧
      b.decoderState = HUNT ∧ b.zeroCount = d.bits.zeroCount + 8 ∧ Tail b
    else d.processDvc c = .ok (d.restarted, []) := by
  obtain ⟨d₀, henter, hd₀⟩ := enter_marker h.bcnt hc
  have hacc : d₀.bits.ibAcc = c.toNat * 2 ^ d.bits.ibBcnt := by
    rw [hd₀, ← Nat.shiftLeft_eq]
    show d.bits.ibAcc ||| _ = _
    rw [acc_eq_zero h hm hc, Nat.zero_or]
  have hbcnt : d₀.bits.ibBcnt = d.bits.ibBcnt + 8 := by rw [hd₀]
  have hlt : d₀.bits.ibAcc < 2 ^ d₀.bits.ibBcnt := by
    rw [hacc, hbcnt, Nat.add_comm, Nat.pow_add]
    exact Nat.mul_lt_mul_of_pos_right c.toNat_lt (Nat.two_pow_pos _)
  have hrounds : 2 * d₀.bits.ibBcnt < d₀.rounds := Nat.lt_add_of_pos_right (by decide)
  have hloop := hunt_loop d₀.bits.ibBcnt _ d₀ hrounds rfl (by rw [hd₀]) (by rw [hd₀, h.data.next1]) hlt
  by_cases h0 : c = 0
  · rw [if_pos (by rw [hacc, h0]; exact Nat.zero_mul _)] at hloop
    obtain ⟨code, next, hloop⟩ := hloop
    have hzc : d₀.bits.zeroCount = d.bits.zeroCount + 8 := by
      rw [hd₀, h0]
      rfl
    rw [if_pos h0, processDvc_of_loop h henter hloop, if_neg (by decide)]
    refine ⟨(d₀.hunting code next).bits, d₀.countBytes, by rw [hd₀]; rfl, rfl, hzc, ?_⟩
    exact Nat.two_pow_pos _
  · have hne : d₀.bits.ibAcc ≠ 0 := by
      rw [hacc]
      exact Nat.mul_ne_zero (toNat_ne_zero h0) (Nat.two_pow_pos _).ne'
    rw [if_neg hne] at hloop
    rw [if_neg h0, processDvc_of_loop h henter hloop, if_neg (by decide), hd₀]
    rfl

/-- **A byte outside a marker** is decoded. -/
theorem byte_plain (h : ByteInv d) (hm : MarkerInv d)
    (hc : d.bits.zeroCount + right c.toNat ≤ 30) (hd : d.processDvc c = .ok (d', ev)) :
    MarkerInv d' ∧ d'.bits.zeroCount = zeroRun d.bits.zeroCount c := by
  obtain ⟨d₁, henter₁, hd₀⟩ := enter_plain h.bcnt hc
  obtain ⟨d₀, n, e, ev', henter, hinv, hloop, rfl, -⟩ := loop_of_processDvc h hd
  have hsame : d₁ = d₀ := Except.ok.inj (henter₁.symm.trans henter)
  rw [hsame] at hd₀
  have hb := h.bcnt
  have hout : d.bits.decoderState ≠ HUNT := fun hs => by have := hm.hunt.mp hs; omega
  have htail : Tail d₀.bits := by
    rw [hd₀]
    exact tail_push hm.tail c
  have hzc : d₀.bits.zeroCount = zeroRun d.bits.zeroCount c := by rw [hd₀]
  have hrun : zeroRun d.bits.zeroCount c ≤ 30 := by
    unfold zeroRun
    by_cases h0 : c = 0
    · rw [if_pos h0]
      have hr : right c.toNat = 8 := by rw [h0]; decide
      omega
    · rw [if_neg h0]
      have := left_le c.toNat c.toNat_lt (toNat_ne_zero h0)
      omega
  obtain ⟨hmoves, hs⟩ := loop_moves hinv (by rw [hd₀]; exact hout) hloop
  have hzc' : e.bits.zeroCount = zeroRun d.bits.zeroCount c := hmoves.zeroCount.trans hzc
  have htail' : Tail e.bits := htail.moves hmoves
  split
  · refine ⟨⟨htail', ?_⟩, hzc'⟩
    exact ⟨fun hs => absurd (show 38 = HUNT from hs) (by decide), fun hlt => by
      have hlt : 30 < e.bits.zeroCount := hlt
      omega⟩
  · exact ⟨⟨htail', fun h => absurd h hs, fun hlt => by omega⟩, hzc'⟩

theorem markerInv_fresh : MarkerInv {} := ⟨Nat.two_pow_pos _, by decide⟩

theorem markerInv_restarted (d : DvcDecoder) : MarkerInv d.restarted :=
  ⟨Nat.two_pow_pos _, fun h => absurd (show 1 = HUNT from h) (by decide),
    fun h => absurd (show 30 < 0 from h) (by decide)⟩

/-- **Every byte keeps the invariant.** -/
theorem markerInv_byte (h : ByteInv d) (hm : MarkerInv d) (hd : d.processDvc c = .ok (d', ev)) :
    MarkerInv d' := by
  rcases Nat.lt_or_ge 30 (d.bits.zeroCount + right c.toNat) with hc | hc
  · have hbyte := byte_marker h hm hc
    by_cases h0 : c = 0
    · rw [if_pos h0] at hbyte
      obtain ⟨b, n, hbyte, hs, hzc, htail⟩ := hbyte
      rw [hbyte] at hd
      cases hd
      have hr : right c.toNat = 8 := by rw [h0]; decide
      exact ⟨htail, fun _ => by show 30 < b.zeroCount; omega, fun _ => hs⟩
    · rw [if_neg h0] at hbyte
      rw [hbyte] at hd
      cases hd
      exact markerInv_restarted d
  · exact (byte_plain h hm hc hd).1

/-- What holds between two bytes of every stream. -/
theorem markerInv_feed {cs : List UInt8} (h : ByteInv d) (hm : MarkerInv d)
    (hd : d.feed cs = .ok (d', ev)) : MarkerInv d' := by
  induction cs generalizing d ev with
  | nil => cases hd; exact hm
  | cons c cs ih =>
      obtain ⟨e, ev₁, ev₂, hc, hcs, -⟩ := feed_cons_ok hd
      exact ih (processDvc_keeps h hc) (markerInv_byte h hm hc) hcs

/-- A zero byte prolongs the run, wherever it comes. -/
theorem byte_zero (h : ByteInv d) (hm : MarkerInv d) (hd : d.processDvc 0 = .ok (d', ev)) :
    d'.bits.zeroCount = d.bits.zeroCount + 8 := by
  rcases Nat.lt_or_ge 30 (d.bits.zeroCount + right (0 : UInt8).toNat) with hc | hc
  · have hmarker := byte_marker h hm hc
    rw [if_pos rfl] at hmarker
    obtain ⟨b, n, hmarker, -, hzc, -⟩ := hmarker
    rw [hmarker] at hd
    cases hd
    exact hzc
  · exact (byte_plain h hm hc hd).2

theorem zeros_of_feed {n : Nat} (h : ByteInv d) (hm : MarkerInv d)
    (hd : d.feed (List.replicate n 0) = .ok (d', ev)) :
    d'.bits.zeroCount = d.bits.zeroCount + 8 * n := by
  induction n generalizing d ev with
  | zero => cases hd; rfl
  | succ n ih =>
      rw [List.replicate_succ] at hd
      obtain ⟨e, ev₁, ev₂, hbyte, hrest, -⟩ := feed_cons_ok hd
      have hzc := byte_zero h hm hbyte
      have hzc' := ih (processDvc_keeps h hbyte) (markerInv_byte h hm hbyte) hrest
      omega

/-- Five zero bytes, and one that is not zero. -/
def marker (c : UInt8) : List UInt8 := List.replicate 5 0 ++ [c]

/-- **A marker restarts the decoder**. -/
theorem restarted_of_feed (h : ByteInv d) (hm : MarkerInv d) (hc : c ≠ 0)
    (hd : d.feed (marker c) = .ok (d', ev)) :
    ∃ e : DvcDecoder, d' = e.restarted ∧ ByteInv e ∧ ByteInv e.restarted := by
  obtain ⟨e, ev₁, ev₂, hzeros, hlast, -⟩ := feed_append_ok hd
  have he := feed_keeps h hzeros
  have hzc := zeros_of_feed h hm hzeros
  have hmarker := byte_marker (c := c) he (markerInv_feed h hm hzeros) (by omega)
  rw [if_neg hc] at hmarker
  rw [feed_cons hmarker, feed, ok_bind] at hlast
  cases hlast
  exact ⟨e, rfl, he, processDvc_keeps he hmarker⟩

end DvcDecoder

end Ilo2.Dvc
