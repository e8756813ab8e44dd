import Ilo2.Dvc.Sizes
import Ilo2.Png.Writer
import Ilo2.Ui.Screen

/-!
# The picture that is saved

`FramebufferDecoder::save_as_png` of `cim_png.hpp`, after any stream.

* `Paintable` - what the framebuffer is like: as large as a resolution can be, and full.
* `saved_stream` - **what is saved of a stream is the picture that it paints**.
-/

namespace Ilo2.Png

open Dvc Checked Ui

/-- `save_as_png`: what is written to the file. -/
def saveAsPng (fb : Framebuffer) : Option (List UInt8) :=
  if fb.pixels = [] then none else saveArgbPng fb.pixels fb.fbW fb.fbH

/-- The bytes of a pixel. -/
def rgb (p : Nat) : List UInt8 :=
  [(p >>> 16 &&& 0xFF).toUInt8, (p >>> 8 &&& 0xFF).toUInt8, (p &&& 0xFF).toUInt8]

/-! ### Whole pictures -/

/-- Rows without anything between them are the picture. -/
theorem rows_whole {pixels : List UInt8} {width n rows : Nat}
    (h : width * n * rows ≤ pixels.length) :
    (List.range rows).flatMap (rowAt pixels (width * n) width n) =
      pixels.take (width * n * rows) := by
  induction rows with
  | zero => rw [Nat.mul_zero, List.take_zero]; rfl
  | succ rows ih =>
      rw [Nat.mul_succ] at h
      rw [List.range_succ, List.flatMap_append, ih (by omega), List.flatMap_singleton, rowAt,
        ← List.take_add, Nat.mul_succ]

theorem flatMap_getD (px : List Nat) :
    ((List.range px.length).flatMap fun i => rgb (px.getD i 0)) = px.flatMap rgb := by
  have hpx : px = (List.range px.length).map fun i => px.getD i 0 := by
    refine List.ext_getElem (by rw [List.length_map, List.length_range]) fun i h1 h2 => ?_
    rw [List.getElem_map, List.getElem_range, List.getD_eq_getElem px 0 h1]
  conv_rhs => rw [hpx, List.flatMap_map]

theorem length_flatMap_rgb (px : List Nat) : (px.flatMap rgb).length = px.length * 3 := by
  induction px with
  | nil => rfl
  | cons p px ih =>
      rw [List.flatMap_cons, List.length_append, ih, List.length_cons]
      show 3 + px.length * 3 = _
      omega

/-- **A framebuffer is saved** pixel by pixel. -/
theorem read_saveArgbPng {px : List Nat} {w h : Nat} (hw : 0 < w) (hh : 0 < h)
    (hfile : (w * 3 + 1) * h < 2 ^ 28) (hlen : px.length = w * h) :
    ∃ png, saveArgbPng px w h = some png ∧ PngReader.read png =
      some { width := w, height := h, channels := 3, bytes := px.flatMap rgb } := by
  have hrgb : ((List.range (w * h)).flatMap fun i => rgb (px.getD i 0)) = px.flatMap rgb := by
    rw [← hlen, flatMap_getD]
  have hstride : (if w * 3 = 0 then w * 3 else w * 3) = w * 3 := ite_self _
  have hsize : w * 3 * h = (px.flatMap rgb).length := by
    rw [length_flatMap_rgb, hlen]
    ring
  have hrow : w * 3 * (h - 1) + w * 3 = w * 3 * h := by
    rw [← Nat.mul_succ, Nat.succ_eq_add_one, Nat.sub_add_cancel hh]
  refine ⟨stbiWritePngToMem (-1) 8 (px.flatMap rgb) (w * 3) w h 3, ?_, ?_⟩
  · rw [saveArgbPng, if_neg (by omega), ← hrgb]
    rfl
  · rw [read_written (-1) 8 hw hh (by decide) (by decide) hfile
      (by rw [hstride, hrow, hsize]), hstride, rows_whole (Nat.le_of_eq hsize), hsize,
      List.take_length]

/-! ### After a stream -/

/-- A framebuffer of a resolution that a mode command can have. -/
structure Paintable (fb : Framebuffer) : Prop where
  width : fb.fbW ≤ 2032
  height : fb.fbH ≤ 2047
  full : fb.pixels.length = fb.fbW * fb.fbH

theorem Paintable.handle {fb : Framebuffer} (hfb : Paintable fb) {e : Event} (he : e.Within) :
    Paintable (fb.handle e) := by
  cases e with
  | setDimensions w h =>
      show Paintable (fb.onSetDimensions w h)
      unfold Framebuffer.onSetDimensions
      split
      · exact hfb
      · exact ⟨he.1, he.2, List.length_replicate⟩
  | paste blk x y len =>
      show Paintable (fb.onPaste blk x y len)
      unfold Framebuffer.onPaste
      split
      · exact hfb
      · exact ⟨hfb.width, hfb.height, (length_stores _ _).trans hfb.full⟩
  | _ => exact hfb

theorem Paintable.hooks {ev : List Event} : ∀ {fb : Framebuffer}, Paintable fb →
    (∀ e ∈ ev, e.Within) → Paintable (ev.foldl Framebuffer.handle fb) := by
  induction ev with
  | nil => exact fun hfb _ => hfb
  | cons e ev ih =>
      intro fb hfb hev
      exact ih (hfb.handle (hev e List.mem_cons_self)) fun e' he' =>
        hev e' (List.mem_cons_of_mem e he')

/-- A stream that is taken paints such a framebuffer. -/
theorem paintable_feed {cs : List UInt8} : ∀ {d d' : DvcDecoder} {ev : List Event}
    {fb : Framebuffer}, ByteInv d → SizeInv d → Paintable fb → d.feed cs = .ok (d', ev) →
      Paintable (ev.foldl Framebuffer.handle fb) := by
  induction cs with
  | nil =>
      intro d d' ev fb _ _ hfb h
      cases h
      exact hfb
  | cons c cs ih =>
      intro d d' ev fb hinv hs hfb h
      obtain ⟨e, ev₁, ev₂, hc, hcs, rfl⟩ := feed_cons_ok h
      obtain ⟨hs', hev⟩ := processDvc_within hinv hs hc
      rw [List.foldl_append]
      exact ih (processDvc_keeps hinv hc) hs' (hfb.hooks hev) hcs

/-- The largest resolution is small enough. -/
theorem sized_within {w h : Nat} (hw : w ≤ 2032) (hh : h ≤ 2047) : Sized 8 (w * 3) w h 3 := by
  have hlines : (w * 3 + 1) * h ≤ (2032 * 3 + 1) * 2047 := Nat.mul_le_mul (by omega) hh
  have hrow : w * 3 * (h - 1) ≤ 2032 * 3 * 2047 := Nat.mul_le_mul (by omega) (by omega)
  exact ⟨by decide, by omega, by omega, by omega⟩

/-- **What is saved of a stream** is the picture that it paints, if it stores no parameter past the
end of `cmd_p_buff`; no `int` of the writer overflows.  Nothing is saved as long as there is no
picture. -/
theorem saved_stream {cs : List UInt8} (hfits : DvcDecoder.StreamFits {} cs) :
    ∃ fb, paint {} {} cs = .ok fb ∧
      ((saveAsPng fb = none ∧ fb.pixels = []) ∨
        FitsInt (-1) 8 (fb.pixels.flatMap rgb) (fb.fbW * 3) fb.fbW fb.fbH 3 ∧
        ∃ png, saveAsPng fb = some png ∧ PngReader.read png = some
          { width := fb.fbW, height := fb.fbH, channels := 3, bytes := fb.pixels.flatMap rgb }) := by
  obtain ⟨d, ev, hfeed⟩ := feed_of_fits .fresh hfits
  have hfb : Paintable (ev.foldl Framebuffer.handle {}) :=
    paintable_feed .fresh ⟨by decide, by decide, by decide⟩
      ⟨Nat.zero_le _, Nat.zero_le _, rfl⟩ hfeed
  refine ⟨_, paint_of_feed hfeed, ?_⟩
  have hfull := hfb.full
  rw [saveAsPng]
  split
  case isTrue hnil => exact Or.inl ⟨rfl, hnil⟩
  case isFalse hne =>
    have hpos : 0 < (ev.foldl Framebuffer.handle {}).fbW * (ev.foldl Framebuffer.handle {}).fbH :=
      hfull ▸ List.length_pos_iff.mpr hne
    have hw := Nat.pos_of_mul_pos_right hpos
    have hsized := sized_within hfb.width hfb.height
    exact Or.inr ⟨fitsInt_of_sized (-1) hw hsized,
      read_saveArgbPng hw (Nat.pos_of_mul_pos_left hpos) hsized.2.2.2 hfull⟩

/-- A mode of one tile, and a tile of one colour. -/
def oneTile : List UInt8 := [0x0D, 0x10, 0x08, 0xF0, 0xFF, 0xBF]

theorem saved_stream_oneTile : ∃ fb, paint {} {} oneTile = .ok fb ∧ fb.pixels ≠ [] ∧
    ∃ png, saveAsPng fb = some png ∧ PngReader.read png = some
      { width := fb.fbW, height := fb.fbH, channels := 3, bytes := fb.pixels.flatMap rgb } := by
  have hobs : (match paint {} {} oneTile with
      | .ok fb => decide (fb.pixels = [])
      | .error _ => true) = false := by decide +kernel
  have hfits := streamFits_of_isOk .fresh
    (by decide +kernel : (DvcDecoder.feed {} oneTile).isOk = true)
  obtain ⟨fb, hpaint, hsaved⟩ := saved_stream hfits
  rw [hpaint] at hobs
  have hne : fb.pixels ≠ [] := of_decide_eq_false hobs
  exact ⟨fb, hpaint, hne, (hsaved.resolve_left fun h => hne h.2).2⟩

end Ilo2.Png
