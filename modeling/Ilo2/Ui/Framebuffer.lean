import Ilo2.Dvc.Decoder

/-!
# The framebuffers

`FramebufferDecoder` (`cim_png.hpp`) paints every tile it is given;
`TrackingFramebuffer` (`console_core.hpp`) stores only the pixels that differ and marks
the tile if one did.  Both are given the hooks of the decoder.

A tile is painted as a list of stores, `tileWrites`, in the order of the two loops.

* `TrackingFramebuffer.onPaste_framebuffer` - **the two paint the same picture**.
* `TrackingFramebuffer.onPaste_clean` - a pixel of an unmarked tile is as it was.
-/

namespace Ilo2.Ui

open Dvc Checked

/-- The part of `FramebufferDecoder` that is not the decoder. -/
structure Framebuffer where
  fbW : Nat := 0
  fbH : Nat := 0
  pixels : List Nat := []
deriving DecidableEq

def TILE : Nat := 16

/-- The stores of the two loops of `on_paste`, clipped to the screen. -/
def tileWrites (fbW fbH : Nat) (blk : Vector Nat 256) (x y len : Nat) : List (Nat × Nat) :=
  let rows := if y + TILE > fbH then fbH - y else TILE
  (List.range rows).flatMap fun r =>
    if y + r ≥ fbH then [] else
    (List.range len).filterMap fun c =>
      if x + c ≥ fbW then none
      else some ((y + r) * fbW + (x + c), look 0 blk (r * TILE + c))

/-- A list of stores. -/
def stores (px : List Nat) (ws : List (Nat × Nat)) : List Nat :=
  ws.foldl (fun px w => px.set w.1 w.2) px

namespace Framebuffer

def onSetDimensions (fb : Framebuffer) (w h : Nat) : Framebuffer :=
  if w = fb.fbW ∧ h = fb.fbH then fb else ⟨w, h, List.replicate (w * h) 0⟩

def onPaste (fb : Framebuffer) (blk : Vector Nat 256) (x y len : Nat) : Framebuffer :=
  if fb.pixels = [] then fb
  else { fb with pixels := stores fb.pixels (tileWrites fb.fbW fb.fbH blk x y len) }

/-- The hooks that `FramebufferDecoder` overrides; the others do nothing. -/
def handle (fb : Framebuffer) : Event → Framebuffer
  | .setDimensions w h => fb.onSetDimensions w h
  | .paste blk x y len => fb.onPaste blk x y len
  | _ => fb

end Framebuffer

/-- The part of `TrackingFramebuffer` that is not the decoder. -/
structure TrackingFramebuffer where
  fb : Framebuffer := {}
  tilesX : Nat := 0
  tilesY : Nat := 0
  tileDirty : List Bool := []
  pastes : Nat := 0
  changedPastes : Nat := 0
  lastStatus : String := ""
deriving DecidableEq

namespace TrackingFramebuffer

def clearDirty (t : TrackingFramebuffer) : TrackingFramebuffer :=
  { t with tileDirty := t.tileDirty.map fun _ => false }

def onSetDimensions (t : TrackingFramebuffer) (w h : Nat) : TrackingFramebuffer :=
  if w = t.fb.fbW ∧ h = t.fb.fbH then t
  else
    let tilesX := (w + TILE - 1) / TILE
    let tilesY := (h + TILE - 1) / TILE
    { t with
      fb := t.fb.onSetDimensions w h
      tilesX := tilesX, tilesY := tilesY
      tileDirty := List.replicate (tilesX * tilesY) true }

/-- One store of the change-detecting loop. -/
def store (s : List Nat × Bool) (w : Nat × Nat) : List Nat × Bool :=
  if s.1.getD w.1 0 ≠ w.2 then (s.1.set w.1 w.2, true) else s

def onPaste (t : TrackingFramebuffer) (blk : Vector Nat 256) (x y len : Nat) :
    TrackingFramebuffer :=
  let t := { t with pastes := t.pastes + 1 }
  if t.fb.pixels = [] then t
  else
    let (pixels, changed) :=
      (tileWrites t.fb.fbW t.fb.fbH blk x y len).foldl store (t.fb.pixels, false)
    let t := { t with fb.pixels := pixels }
    if ¬ changed then t
    else
      let tx := x / TILE
      let ty := y / TILE
      { t with
        changedPastes := t.changedPastes + 1
        tileDirty :=
          if tx < t.tilesX ∧ ty < t.tilesY then t.tileDirty.set (ty * t.tilesX + tx) true
          else t.tileDirty }

/-- The hooks that `TrackingFramebuffer` overrides; the others do nothing. -/
def handle (t : TrackingFramebuffer) : Event → TrackingFramebuffer
  | .setDimensions w h => t.onSetDimensions w h
  | .paste blk x y len => t.onPaste blk x y len
  | .showText s => { t with lastStatus := s }
  | _ => t

end TrackingFramebuffer

/-! ### The stores of a tile -/

/-- Where a store goes: to a pixel of the screen that lies in the tile. -/
theorem mem_tileWrites {fbW fbH x y len : Nat} {blk : Vector Nat 256} {w : Nat × Nat}
    (h : w ∈ tileWrites fbW fbH blk x y len) :
    ∃ xx yy, w.1 = yy * fbW + xx ∧ xx < fbW ∧ yy < fbH ∧ x ≤ xx ∧ xx < x + len ∧
      y ≤ yy ∧ yy < y + TILE := by
  unfold tileWrites at h
  obtain ⟨r, hr, hw⟩ := List.mem_flatMap.mp h
  split at hw
  · cases hw
  obtain ⟨c, hc, hw⟩ := List.mem_filterMap.mp hw
  split at hw
  · cases hw
  cases hw
  have hr' := List.mem_range.mp hr
  have hc' := List.mem_range.mp hc
  refine ⟨x + c, y + r, rfl, by omega, by omega, by omega, by omega, by omega, ?_⟩
  split at hr' <;> omega

theorem length_stores (px : List Nat) (ws : List (Nat × Nat)) :
    (stores px ws).length = px.length := by
  unfold stores
  induction ws generalizing px with
  | nil => rfl
  | cons w ws ih => rw [List.foldl_cons, ih, List.length_set]

/-- A pixel that no store goes to is as it was. -/
theorem getElem?_stores {px : List Nat} {ws : List (Nat × Nat)} {j : Nat}
    (h : ∀ w ∈ ws, w.1 ≠ j) : (stores px ws)[j]? = px[j]? := by
  unfold stores
  induction ws generalizing px with
  | nil => rfl
  | cons w ws ih =>
      rw [List.foldl_cons, ih fun v hv => h v (List.mem_cons_of_mem _ hv),
        List.getElem?_set_ne (h w List.mem_cons_self)]

/-- A store that is left out would have changed nothing. -/
theorem store_fst (s : List Nat × Bool) (w : Nat × Nat) :
    (TrackingFramebuffer.store s w).1 = s.1.set w.1 w.2 := by
  unfold TrackingFramebuffer.store
  split
  · rfl
  · rename_i heq
    rw [not_not] at heq
    by_cases hlt : w.1 < s.1.length
    · rw [← heq, List.getD_eq_getElem?_getD, List.getElem?_eq_getElem hlt, Option.getD_some,
        List.set_getElem_self]
    · rw [List.set_eq_of_length_le (Nat.le_of_not_lt hlt)]

/-- **The change-detecting loop** paints what the plain one paints, and reports no
change only if nothing changed. -/
theorem foldl_store (ws : List (Nat × Nat)) (px : List Nat) (b : Bool) :
    (ws.foldl TrackingFramebuffer.store (px, b)).1 = stores px ws ∧
      ((ws.foldl TrackingFramebuffer.store (px, b)).2 = false → b = false ∧ stores px ws = px) := by
  induction ws generalizing px b with
  | nil => exact ⟨rfl, fun h => ⟨h, rfl⟩⟩
  | cons w ws ih =>
      have hfst := store_fst (px, b) w
      rcases hs : TrackingFramebuffer.store (px, b) w with ⟨px', b'⟩
      rw [hs] at hfst
      obtain ⟨h1, h2⟩ := ih px' b'
      rw [List.foldl_cons, hs, h1]
      have hstores : stores px' ws = stores px (w :: ws) := by
        rw [show px' = px.set w.1 w.2 from hfst]
        rfl
      refine ⟨hstores, fun hb => ?_⟩
      obtain ⟨hb', hpx⟩ := h2 hb
      unfold TrackingFramebuffer.store at hs
      split at hs
      · cases hs
        cases hb'
      · cases hs
        exact ⟨hb', hstores ▸ hpx⟩

/-! ### The two framebuffers -/

/-- A resolution of width 0 or height 0 is not set; a set one has its pixels and tiles. -/
structure TrackingFramebuffer.Sized (t : TrackingFramebuffer) : Prop where
  pixels : t.fb.pixels.length = t.fb.fbW * t.fb.fbH
  tilesX : t.tilesX = (t.fb.fbW + TILE - 1) / TILE
  tilesY : t.tilesY = (t.fb.fbH + TILE - 1) / TILE
  tileDirty : t.tileDirty.length = t.tilesX * t.tilesY

namespace TrackingFramebuffer

variable {t : TrackingFramebuffer}

theorem Sized.fresh : Sized {} := ⟨rfl, rfl, rfl, rfl⟩

theorem onPaste_framebuffer (t : TrackingFramebuffer) (blk : Vector Nat 256) (x y len : Nat) :
    (t.onPaste blk x y len).fb = t.fb.onPaste blk x y len := by
  unfold onPaste Framebuffer.onPaste
  dsimp only
  split
  · rfl
  · have h := (foldl_store (tileWrites t.fb.fbW t.fb.fbH blk x y len) t.fb.pixels false).1
    rw [← h]
    split <;> rfl

/-- **The same picture**: what the tracking framebuffer holds is what the plain one holds. -/
theorem handle_framebuffer (t : TrackingFramebuffer) (e : Event) :
    (t.handle e).fb = t.fb.handle e := by
  cases e with
  | paste blk x y len => exact onPaste_framebuffer t blk x y len
  | setDimensions w h =>
      unfold handle Framebuffer.handle onSetDimensions Framebuffer.onSetDimensions
      dsimp only
      split <;> rfl
  | _ => rfl

/-- The tile of pixel `j` is marked. -/
def DirtyAt (t : TrackingFramebuffer) (j : Nat) : Prop :=
  t.tileDirty[j / t.fb.fbW / TILE * t.tilesX + j % t.fb.fbW / TILE]? = some true

theorem onPaste_sized (h : t.Sized) (blk : Vector Nat 256) (x y len : Nat) :
    (t.onPaste blk x y len).Sized := by
  unfold onPaste
  dsimp only
  split
  · exact ⟨h.pixels, h.tilesX, h.tilesY, h.tileDirty⟩
  · have hlen := length_stores t.fb.pixels (tileWrites t.fb.fbW t.fb.fbH blk x y len)
    have hfst := (foldl_store (tileWrites t.fb.fbW t.fb.fbH blk x y len) t.fb.pixels false).1
    rw [← hfst] at hlen
    split
    · exact ⟨hlen.trans h.pixels, h.tilesX, h.tilesY, h.tileDirty⟩
    · refine ⟨hlen.trans h.pixels, h.tilesX, h.tilesY, ?_⟩
      dsimp only
      split
      · rw [List.length_set]
        exact h.tileDirty
      · exact h.tileDirty

/-- The tile that a store of a tile goes to. -/
theorem tile_of_write {fbW fbH x y : Nat} {blk : Vector Nat 256} (hx : 16 ∣ x) (hy : 16 ∣ y)
    {w : Nat × Nat} (h : w ∈ tileWrites fbW fbH blk x y 16) :
    w.1 / fbW / TILE = y / TILE ∧ w.1 % fbW / TILE = x / TILE ∧
      x / TILE < (fbW + TILE - 1) / TILE ∧ y / TILE < (fbH + TILE - 1) / TILE := by
  obtain ⟨xx, yy, hw, hxx, hyy, hx1, hx2, hy1, hy2⟩ := mem_tileWrites h
  have hdiv : w.1 / fbW = yy := by
    rw [hw, Nat.mul_comm, Nat.mul_add_div (by omega), Nat.div_eq_of_lt hxx, Nat.add_zero]
  have hmod : w.1 % fbW = xx := by
    rw [hw, Nat.mul_comm, Nat.mul_add_mod, Nat.mod_eq_of_lt hxx]
  rw [hdiv, hmod]
  unfold TILE at *
  omega

/-- **A tile that stays unmarked keeps its pixels**, and a marked one stays marked. -/
theorem onPaste_clean (h : t.Sized) (blk : Vector Nat 256) {x y : Nat} (hx : 16 ∣ x)
    (hy : 16 ∣ y) (j : Nat) :
    (t.DirtyAt j → (t.onPaste blk x y 16).DirtyAt j) ∧
      (¬ (t.onPaste blk x y 16).DirtyAt j →
        (t.onPaste blk x y 16).fb.pixels[j]? = t.fb.pixels[j]?) := by
  unfold onPaste DirtyAt
  dsimp only
  obtain ⟨hfst, hsnd⟩ :=
    foldl_store (tileWrites t.fb.fbW t.fb.fbH blk x y 16) t.fb.pixels false
  split
  · exact ⟨id, fun _ => rfl⟩
  split
  · rename_i hsame
    refine ⟨id, fun _ => ?_⟩
    dsimp only
    rw [hfst, (hsnd (by simpa using hsame)).2]
  · dsimp only
    rw [hfst]
    by_cases htile : x / TILE < t.tilesX ∧ y / TILE < t.tilesY
    · rw [if_pos htile]
      have hidx : y / TILE * t.tilesX + x / TILE < t.tileDirty.length := by
        rw [h.tileDirty]
        calc y / TILE * t.tilesX + x / TILE < y / TILE * t.tilesX + t.tilesX := by omega
          _ = (y / TILE + 1) * t.tilesX := by rw [Nat.succ_mul]
          _ ≤ t.tilesY * t.tilesX := Nat.mul_le_mul_right _ htile.2
          _ = t.tilesX * t.tilesY := Nat.mul_comm _ _
      constructor
      · intro hd
        rw [List.getElem?_set]
        split
        · rfl
        · exact hd
      · intro hclean
        refine getElem?_stores fun w hw hwj => hclean ?_
        obtain ⟨hty, htx, -, -⟩ := tile_of_write hx hy hw
        rw [← hwj, hty, htx, List.getElem?_set_self hidx]
    · rw [if_neg htile]
      refine ⟨id, fun _ => getElem?_stores fun w hw _ => htile ?_⟩
      obtain ⟨-, -, h1, h2⟩ := tile_of_write hx hy hw
      exact ⟨h.tilesX ▸ h1, h.tilesY ▸ h2⟩

theorem onSetDimensions_sized (h : t.Sized) (w h' : Nat) : (t.onSetDimensions w h').Sized := by
  unfold onSetDimensions
  split
  · exact h
  · rename_i hne
    have hfb : t.fb.onSetDimensions w h' = ⟨w, h', List.replicate (w * h') 0⟩ := if_neg hne
    dsimp only
    refine ⟨?_, ?_, ?_, List.length_replicate⟩
    · rw [hfb, List.length_replicate]
    · rw [hfb]
    · rw [hfb]

theorem handle_sized (h : t.Sized) (e : Event) : (t.handle e).Sized := by
  cases e with
  | paste blk x y len => exact onPaste_sized h blk x y len
  | setDimensions w h' => exact onSetDimensions_sized h w h'
  | _ => exact ⟨h.pixels, h.tilesX, h.tilesY, h.tileDirty⟩

end TrackingFramebuffer

end Ilo2.Ui
