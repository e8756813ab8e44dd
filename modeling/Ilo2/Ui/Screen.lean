import Ilo2.Ui.Pull

/-!
# The front end's copy of the screen

The decoder, the tracking framebuffer and the caller's buffer, through any order of
decoded bytes and pulls.

* `Screen.Inv` - where a tile is not marked, the buffer has the pixels.
* `Since` - what has become of the framebuffer since an earlier one.
* `pull_exact` - **after every pull the buffer is the framebuffer, which is what the
  plain decoder paints, and the reported rectangles cover what changed**, if and only if no
  parameter is stored past the end of `cmd_p_buff`.
-/

namespace Ilo2.Ui

open Dvc Checked

/-- The console core as far as `pull` is concerned, and the buffers of its caller. -/
structure Screen where
  decoder : DvcDecoder := {}
  tracking : TrackingFramebuffer := {}
  front : Front := {}

inductive Op where
  | byte (c : UInt8)
  | pull

namespace Screen

def step (s : Screen) : Op → Except Fault Screen
  | .byte c => do
      let (d, ev) ← s.decoder.processDvc c
      .ok { s with decoder := d, tracking := ev.foldl TrackingFramebuffer.handle s.tracking }
  | .pull =>
      let (_, t, f) := pull s.tracking s.front
      .ok { s with tracking := t, front := f }

def run (s : Screen) : List Op → Except Fault Screen
  | [] => .ok s
  | op :: ops => do (← s.step op).run ops

end Screen

/-- The bytes of a list of operations. -/
def bytes (ops : List Op) : List UInt8 :=
  ops.filterMap fun
    | .byte c => some c
    | .pull => none

/-- The plain `FramebufferDecoder`, fed a stream. -/
def paint (d : DvcDecoder) (fb : Framebuffer) : List UInt8 → Except Fault Framebuffer
  | [] => .ok fb
  | c :: cs => do
      let (d, ev) ← d.processDvc c
      paint d (ev.foldl Framebuffer.handle fb) cs

/-- It paints what the hooks of the stream say. -/
theorem paint_of_feed {cs : List UInt8} : ∀ {d d' : DvcDecoder} {ev : List Event}
    {fb : Framebuffer}, d.feed cs = .ok (d', ev) →
      paint d fb cs = .ok (ev.foldl Framebuffer.handle fb) := by
  induction cs with
  | nil => intro d d' ev fb h; cases h; rfl
  | cons c cs ih =>
      intro d d' ev fb h
      obtain ⟨e, ev₁, ev₂, hc, hcs, rfl⟩ := feed_cons_ok h
      rw [paint, hc, ok_bind]
      dsimp only
      rw [ih hcs, List.foldl_append]

/-! ### What a hook does to the marks -/

namespace TrackingFramebuffer

/-- Every tile of the screen is marked. -/
def AllDirty (t : TrackingFramebuffer) : Prop := ∀ j < t.fb.pixels.length, t.DirtyAt j

/-- A resolution is known. -/
def Known (t : TrackingFramebuffer) : Prop := t.fb.fbW ≠ 0 ∧ t.fb.fbH ≠ 0

/-- What has become of the picture `fb₀`: every tile is marked, or the resolution is the
same and an unmarked tile has the same pixels. -/
def Since (fb₀ : Framebuffer) (t : TrackingFramebuffer) : Prop :=
  t.AllDirty ∨ (t.fb.fbW = fb₀.fbW ∧ t.fb.fbH = fb₀.fbH ∧
    ∀ j < t.fb.pixels.length, ¬ t.DirtyAt j → t.fb.pixels[j]? = fb₀.pixels[j]?)

variable {t : TrackingFramebuffer} {fb₀ : Framebuffer}

theorem Since.refl (t : TrackingFramebuffer) : Since t.fb t := Or.inr ⟨rfl, rfl, fun _ _ _ => rfl⟩

/-- A new resolution marks everything. -/
theorem onSetDimensions_allDirty {w h : Nat} (hne : ¬ (w = t.fb.fbW ∧ h = t.fb.fbH)) :
    (t.onSetDimensions w h).AllDirty := by
  have hfb : t.fb.onSetDimensions w h = ⟨w, h, List.replicate (w * h) 0⟩ := if_neg hne
  intro j hj
  unfold onSetDimensions at hj ⊢
  rw [if_neg hne] at hj ⊢
  unfold DirtyAt
  dsimp only at hj ⊢
  rw [hfb] at hj ⊢
  dsimp only at hj ⊢
  rw [List.length_replicate] at hj
  have hw : 0 < w := Nat.pos_of_ne_zero (by rintro rfl; rw [Nat.zero_mul] at hj; omega)
  have hcol : j % w / TILE < (w + TILE - 1) / TILE := by
    have := Nat.mod_lt j hw
    unfold TILE
    omega
  have hrow : j / w / TILE < (h + TILE - 1) / TILE := by
    have : j / w < h := Nat.div_lt_of_lt_mul hj
    unfold TILE
    omega
  refine List.getElem?_replicate_of_lt ?_
  calc j / w / TILE * ((w + TILE - 1) / TILE) + j % w / TILE
      < j / w / TILE * ((w + TILE - 1) / TILE) + (w + TILE - 1) / TILE := by omega
    _ = (j / w / TILE + 1) * ((w + TILE - 1) / TILE) := (Nat.succ_mul _ _).symm
    _ ≤ (h + TILE - 1) / TILE * ((w + TILE - 1) / TILE) := Nat.mul_le_mul_right _ hrow
    _ = (w + TILE - 1) / TILE * ((h + TILE - 1) / TILE) := Nat.mul_comm _ _

theorem onPaste_dims (t : TrackingFramebuffer) (blk : Vector Nat 256) (x y len : Nat) :
    (t.onPaste blk x y len).fb.fbW = t.fb.fbW ∧ (t.onPaste blk x y len).fb.fbH = t.fb.fbH ∧
      (t.onPaste blk x y len).fb.pixels.length = t.fb.pixels.length := by
  rw [onPaste_framebuffer]
  unfold Framebuffer.onPaste
  split
  · exact ⟨rfl, rfl, rfl⟩
  · exact ⟨rfl, rfl, length_stores _ _⟩

/-- **A hook keeps the account** of what has changed. -/
theorem handle_since (hs : t.Sized) {e : Event} (he : e.Fits True) (h : Since fb₀ t) :
    Since fb₀ (t.handle e) ∧ (t.AllDirty → (t.handle e).AllDirty) := by
  cases e with
  | paste blk x y len =>
      obtain ⟨hx, hy, rfl⟩ := he
      obtain ⟨hw, hh, hlen⟩ := onPaste_dims t blk x y 16
      have hall : t.AllDirty → (t.onPaste blk x y 16).AllDirty := fun hall j hj =>
        (onPaste_clean hs blk hx hy j).1 (hall j (hlen ▸ hj))
      refine ⟨?_, hall⟩
      rcases h with h | ⟨hw₀, hh₀, hpx⟩
      · exact Or.inl (hall h)
      · refine Or.inr ⟨hw.trans hw₀, hh.trans hh₀, fun j hj hclean => ?_⟩
        obtain ⟨hmono, hkeep⟩ := onPaste_clean hs blk hx hy j
        exact (hkeep hclean).trans (hpx j (hlen ▸ hj) fun hd => hclean (hmono hd))
  | setDimensions w h' =>
      by_cases hsame : w = t.fb.fbW ∧ h' = t.fb.fbH
      · have heq : t.handle (.setDimensions w h') = t := if_pos hsame
        rw [heq]
        exact ⟨h, id⟩
      · have hall : (t.handle (.setDimensions w h')).AllDirty := onSetDimensions_allDirty hsame
        exact ⟨Or.inl hall, fun _ => hall⟩
  | _ => exact ⟨h, id⟩

/-- A resolution that is known stays known, and none is known before the first. -/
theorem handle_known {e : Event} (he : e.Fits True) (h : t.fb = {} ∨ t.Known) :
    (t.handle e).fb = {} ∨ (t.handle e).Known := by
  cases e with
  | paste blk x y len =>
      rcases h with h | h
      · refine Or.inl ?_
        rw [handle_framebuffer, h]
        rfl
      · obtain ⟨hw, hh, -⟩ := onPaste_dims t blk x y len
        exact Or.inr ⟨hw ▸ h.1, hh ▸ h.2⟩
  | setDimensions w h' =>
      show (t.onSetDimensions w h').fb = {} ∨ (t.onSetDimensions w h').Known
      unfold onSetDimensions Framebuffer.onSetDimensions
      split
      · exact h
      · exact Or.inr he
  | _ => exact h

/-- The hooks of a byte. -/
theorem foldl_handle {ev : List Event} (hev : ∀ e ∈ ev, e.Fits True) {t : TrackingFramebuffer}
    (hs : t.Sized) (hk : t.fb = {} ∨ t.Known) :
    (ev.foldl handle t).Sized ∧ ((ev.foldl handle t).fb = {} ∨ (ev.foldl handle t).Known) ∧
      (ev.foldl handle t).fb = ev.foldl Framebuffer.handle t.fb ∧
      (t.AllDirty → (ev.foldl handle t).AllDirty) ∧
      ∀ fb₀, Since fb₀ t → Since fb₀ (ev.foldl handle t) := by
  induction ev generalizing t with
  | nil => exact ⟨hs, hk, rfl, id, fun _ => id⟩
  | cons e ev ih =>
      have he := hev e List.mem_cons_self
      obtain ⟨h1, h2, h3, h4, h5⟩ := ih (fun e he => hev e (List.mem_cons_of_mem _ he))
        (handle_sized hs e) (handle_known he hk)
      refine ⟨h1, h2, ?_, fun hall => ?_, fun fb₀ hsince => ?_⟩
      · rw [List.foldl_cons, h3, handle_framebuffer]
        rfl
      · exact h4 ((handle_since hs he (.refl t)).2 hall)
      · exact h5 fb₀ (handle_since hs he hsince).1

end TrackingFramebuffer

/-! ### What a pull does -/

open TrackingFramebuffer

/-- The caller's copy, as a picture. -/
def Front.fb (f : Front) : Framebuffer := ⟨f.w, f.h, f.dest⟩

/-- **A pull**, once a resolution is known: the copy is exact, and what it reports is
made of rectangles that cover every marked tile. -/
theorem pull_spec {t : TrackingFramebuffer} (hs : t.Sized) (hk : t.Known) {f : Front}
    (h : Since f.fb t) : (pull t f).2.2.fb = t.fb ∧ (pull t f).2.1.fb = t.fb ∧
      (pull t f).2.1.Sized ∧
      ((∀ r ∈ (pull t f).2.2.dirty, r.Inside t.fb.fbW t.fb.fbH) ∧
        (pull t f).2.2.dirty.Pairwise Rect.Apart ∧
        ∀ x y, x < t.fb.fbW → y < t.fb.fbH → t.DirtyAt (y * t.fb.fbW + x) →
          ∃ r ∈ (pull t f).2.2.dirty, r.Has x y) := by
  obtain ⟨hw, hh⟩ := hk
  have hne : t.fb.pixels ≠ [] := by
    intro hnil
    have := hs.pixels
    rw [hnil, List.length_nil] at this
    rcases Nat.mul_eq_zero.mp this.symm with h0 | h0 <;> contradiction
  have hclear : t.clearDirty.Sized :=
    ⟨hs.pixels, hs.tilesX, hs.tilesY, (List.length_map _).trans hs.tileDirty⟩
  unfold pull
  rw [if_neg hne]
  by_cases hlen : f.dest.length ≠ t.fb.pixels.length
  · rw [if_pos hlen]
    refine ⟨rfl, rfl, hclear, ?_, List.pairwise_singleton _ _, fun x y hx hy _ => ?_⟩
    · intro r hr
      rw [List.mem_singleton.mp hr]
      exact ⟨Nat.pos_of_ne_zero hw, Nat.pos_of_ne_zero hh, Nat.le_of_eq (Nat.zero_add _),
        Nat.le_of_eq (Nat.zero_add _)⟩
    · exact ⟨_, List.mem_singleton_self _, Nat.zero_le _, by rwa [Nat.zero_add], Nat.zero_le _,
        by rwa [Nat.zero_add]⟩
  · rw [if_neg hlen, pullRows_eq hs]
    have hcover : ∀ x y, x < t.fb.fbW → y < t.fb.fbH → t.DirtyAt (y * t.fb.fbW + x) →
        ∃ r ∈ rects t, r.Has x y := by
      intro x y hx hy hd
      have hdiv : (y * t.fb.fbW + x) / t.fb.fbW = y := by
        rw [Nat.mul_comm, Nat.mul_add_div (by omega), Nat.div_eq_of_lt hx, Nat.add_zero]
      have hmod : (y * t.fb.fbW + x) % t.fb.fbW = x := by
        rw [Nat.mul_comm, Nat.mul_add_mod, Nat.mod_eq_of_lt hx]
      unfold DirtyAt at hd
      rw [hdiv, hmod] at hd
      exact rects_cover hs hx hy hd
    obtain ⟨hclen, hget⟩ := copyRects_spec hs (rects t) f.dest (rects_inside hs) (not_not.mp hlen)
    refine ⟨?_, rfl, hclear, rects_inside hs, rects_apart hs, hcover⟩
    have hdest : (rects t).foldl (copyRect t) f.dest = t.fb.pixels := by
      apply List.ext_getElem?
      intro j
      rcases Nat.lt_or_ge j t.fb.pixels.length with hj | hj
      · refine hget j ?_
        by_cases hd : t.DirtyAt j
        · have hpos : 0 < t.fb.fbW := Nat.pos_of_ne_zero hw
          have hdm := Nat.div_add_mod j t.fb.fbW
          have hidx : j / t.fb.fbW * t.fb.fbW + j % t.fb.fbW = j := by rwa [Nat.mul_comm]
          refine Or.inl (hcover _ _ (Nat.mod_lt j hpos) ?_ (hidx.symm ▸ hd))
          exact Nat.div_lt_of_lt_mul (hs.pixels ▸ hj)
        · rcases h with hall | ⟨-, -, hpx⟩
          · exact absurd (hall j hj) hd
          · exact Or.inr (hpx j hj hd).symm
      · rw [List.getElem?_eq_none hj, List.getElem?_eq_none (hclen ▸ hj)]
    show (⟨t.fb.fbW, t.fb.fbH, (rects t).foldl (copyRect t) f.dest⟩ : Framebuffer) = t.fb
    rw [hdest]

/-! ### Runs -/

namespace Screen

/-- Between two operations. -/
structure Inv (s : Screen) : Prop where
  decoder : ByteInv s.decoder
  sized : s.tracking.Sized
  known : s.tracking.fb = {} ∨ s.tracking.Known
  front : Since s.front.fb s.tracking

theorem Inv.fresh : Inv {} := ⟨.fresh, .fresh, Or.inl rfl, .refl _⟩

/-- A byte that is taken. -/
theorem step_byte {s s' : Screen} {c : UInt8} (h : s.Inv) (hstep : s.step (.byte c) = .ok s') :
    ∃ d ev, s.decoder.processDvc c = .ok (d, ev) ∧
      s' = { s with
        decoder := d, tracking := ev.foldl TrackingFramebuffer.handle s.tracking } ∧
      s'.Inv ∧ s'.tracking.fb = ev.foldl Framebuffer.handle s.tracking.fb ∧
      (s.tracking.AllDirty → s'.tracking.AllDirty) ∧
      ∀ fb₀, Since fb₀ s.tracking → Since fb₀ s'.tracking := by
  obtain ⟨⟨d, ev⟩, hd, he⟩ := bind_eq_ok.mp hstep
  cases he
  obtain ⟨h1, h2, h3, h4, h5⟩ :=
    foldl_handle (DvcDecoder.processDvc_fits h.decoder hd) h.sized h.known
  exact ⟨d, ev, hd, rfl, ⟨processDvc_keeps h.decoder hd, h1, h2, h5 _ h.front⟩, h3, h4, h5⟩

theorem step_pull {s : Screen} (h : s.Inv) :
    s.step .pull = .ok { s with
      tracking := (pull s.tracking s.front).2.1, front := (pull s.tracking s.front).2.2 } ∧
    Inv { s with
      tracking := (pull s.tracking s.front).2.1, front := (pull s.tracking s.front).2.2 } ∧
    (pull s.tracking s.front).2.1.fb = s.tracking.fb := by
  refine ⟨rfl, ?_⟩
  rcases h.known with hfb | hk
  · have hpull : pull s.tracking s.front = (false, s.tracking, s.front) :=
      if_pos (by rw [hfb])
    rw [hpull]
    exact ⟨h, rfl⟩
  · obtain ⟨hcopy, hfb, hs, -⟩ := pull_spec h.sized hk h.front
    refine ⟨⟨h.decoder, hs, Or.inr ?_, ?_⟩, hfb⟩
    · exact ⟨hfb ▸ hk.1, hfb ▸ hk.2⟩
    · dsimp only
      rw [hcopy, ← hfb]
      exact .refl _

theorem run_append (s : Screen) (as bs : List Op) :
    s.run (as ++ bs) = s.run as >>= fun s => s.run bs := by
  induction as generalizing s with
  | nil => rfl
  | cons a as ih =>
      rw [List.cons_append, run, run]
      cases s.step a with
      | ok s' => exact ih s'
      | error e => rfl

/-- A run takes its bytes as the plain decoder does. -/
theorem run_of_feed {ops : List Op} : ∀ {s : Screen} {d : DvcDecoder} {ev : List Event},
    s.decoder.feed (bytes ops) = .ok (d, ev) → ∃ s', s.run ops = .ok s' := by
  induction ops with
  | nil => intro s d ev _; exact ⟨s, rfl⟩
  | cons op ops ih =>
      intro s d ev h
      cases op with
      | pull =>
          obtain ⟨s', hrun⟩ := ih (s := { s with
            tracking := (Ui.pull s.tracking s.front).2.1
            front := (Ui.pull s.tracking s.front).2.2 }) h
          exact ⟨s', hrun⟩
      | byte c =>
          obtain ⟨e, ev₁, ev₂, hc, hrest, -⟩ := feed_cons_ok (show s.decoder.feed (c :: bytes ops) =
            .ok (d, ev) from h)
          obtain ⟨s', hrun⟩ := ih (s := { s with
            decoder := e, tracking := ev₁.foldl TrackingFramebuffer.handle s.tracking }) hrest
          refine ⟨s', ?_⟩
          simp only [run, step, hc, ok_bind]
          exact hrun

/-- **Every run** keeps the invariant, and paints what the plain decoder paints. -/
theorem run_keeps {ops : List Op} : ∀ {s s' : Screen}, s.Inv → s.run ops = .ok s' →
    s'.Inv ∧ ∃ ev, s.decoder.feed (bytes ops) = .ok (s'.decoder, ev) ∧
      s'.tracking.fb = ev.foldl Framebuffer.handle s.tracking.fb := by
  induction ops with
  | nil => intro s s' h hrun; cases hrun; exact ⟨h, [], rfl, rfl⟩
  | cons op ops ih =>
      intro s s' h hrun
      obtain ⟨s₁, hstep, hrest⟩ := bind_eq_ok.mp hrun
      cases op with
      | byte c =>
          obtain ⟨d, ev, hd, rfl, hinv, hfb, -, -⟩ := step_byte h hstep
          obtain ⟨hinv', ev', hfeed, hfb'⟩ := ih hinv hrest
          refine ⟨hinv', ev ++ ev', ?_, by rw [hfb', hfb, List.foldl_append]⟩
          show s.decoder.feed (c :: bytes ops) = _
          rw [feed_cons hd, hfeed, ok_bind]
      | pull =>
          obtain ⟨hok, hinv, hfb⟩ := step_pull h
          rw [hok] at hstep
          cases hstep
          obtain ⟨hinv', ev', hfeed, hfb'⟩ := ih hinv hrest
          exact ⟨hinv', ev', hfeed, by rw [hfb', ← hfb]⟩

/-- Between two pulls: what has changed is marked, and a new resolution marks it all. -/
theorem run_since {s : Screen} (h : s.Inv) {ops : List Op} (hops : Op.pull ∉ ops) {s' : Screen}
    (hrun : s.run ops = .ok s') :
    (s.tracking.AllDirty → s'.tracking.AllDirty) ∧
      ∀ fb₀, Since fb₀ s.tracking → Since fb₀ s'.tracking := by
  induction ops generalizing s with
  | nil =>
      cases hrun
      exact ⟨id, fun _ => id⟩
  | cons op ops ih =>
      have htail : Op.pull ∉ ops := fun hmem => hops (List.mem_cons_of_mem _ hmem)
      cases op with
      | pull => exact absurd List.mem_cons_self hops
      | byte c =>
          obtain ⟨s₁, hstep, hrest⟩ := bind_eq_ok.mp hrun
          obtain ⟨d, ev, -, -, hinv, -, hall, hsince⟩ := step_byte h hstep
          obtain ⟨h1, h2⟩ := ih hinv htail hrest
          exact ⟨fun hd => h1 (hall hd), fun fb₀ h0 => h2 fb₀ (hsince fb₀ h0)⟩

end Screen

/-- The pixel in column `x` and row `y`. -/
def Framebuffer.pixel (fb : Framebuffer) (x y : Nat) : Option Nat := fb.pixels[y * fb.fbW + x]?

/-- What is asked of a pull after the operations `ops`.  They are taken, and the picture is what
the plain decoder paints.  The pull, once a resolution is known, leaves the caller with exactly
that picture, whatever it returns; and if it returns true, its rectangles are not empty, inside
the screen and apart, and for any earlier point since which there was no pull (the last pull, or
the start)

* they cover every pixel that is not what it was at that point, and
* they cover the whole screen if the resolution was another one at any time since. -/
def PullsExactly (ops : List Op) : Prop :=
  ∃ s, Screen.run {} ops = .ok s ∧ paint {} {} (bytes ops) = .ok s.tracking.fb ∧
    ((s.tracking.fb.fbW, s.tracking.fb.fbH) ≠ (0, 0) →
      (pull s.tracking s.front).2.2.fb = s.tracking.fb ∧
      ((pull s.tracking s.front).1 = true →
        (∀ r ∈ (pull s.tracking s.front).2.2.dirty,
          r.Inside s.tracking.fb.fbW s.tracking.fb.fbH) ∧
        (pull s.tracking s.front).2.2.dirty.Pairwise Rect.Apart ∧
        ∀ pre mid s₀, ops = pre ++ mid → Op.pull ∉ mid → Screen.run {} pre = .ok s₀ →
          ∀ x y, x < s.tracking.fb.fbW → y < s.tracking.fb.fbH →
            (s.tracking.fb.pixel x y ≠ s₀.tracking.fb.pixel x y ∨
              ∃ m₁ m₂ s₁, mid = m₁ ++ m₂ ∧ s₀.run m₁ = .ok s₁ ∧
                (s₁.tracking.fb.fbW, s₁.tracking.fb.fbH) ≠
                  (s₀.tracking.fb.fbW, s₀.tracking.fb.fbH)) →
            ∃ r ∈ (pull s.tracking s.front).2.2.dirty, r.Has x y))

/-- What changed since an earlier point without a pull is covered. -/
theorem changed_dirty {pre mid : List Op} {s s₀ : Screen} (hrun : Screen.run {} (pre ++ mid) = .ok s)
    (hmid : Op.pull ∉ mid) (hpre : Screen.run {} pre = .ok s₀) {x y : Nat}
    (hx : x < s.tracking.fb.fbW) (hy : y < s.tracking.fb.fbH)
    (hchanged : s.tracking.fb.pixel x y ≠ s₀.tracking.fb.pixel x y ∨
      ∃ m₁ m₂ s₁, mid = m₁ ++ m₂ ∧ s₀.run m₁ = .ok s₁ ∧
        (s₁.tracking.fb.fbW, s₁.tracking.fb.fbH) ≠ (s₀.tracking.fb.fbW, s₀.tracking.fb.fbH)) :
    s.tracking.DirtyAt (y * s.tracking.fb.fbW + x) := by
  obtain ⟨hinv, -⟩ := Screen.run_keeps .fresh hrun
  obtain ⟨hinv₀, -⟩ := Screen.run_keeps .fresh hpre
  have hrest : s₀.run mid = .ok s := by
    rw [Screen.run_append, hpre, ok_bind] at hrun
    exact hrun
  have hidx : y * s.tracking.fb.fbW + x < s.tracking.fb.pixels.length := by
    rw [hinv.sized.pixels]
    calc y * s.tracking.fb.fbW + x < y * s.tracking.fb.fbW + s.tracking.fb.fbW := by omega
      _ = (y + 1) * s.tracking.fb.fbW := (Nat.succ_mul _ _).symm
      _ ≤ s.tracking.fb.fbH * s.tracking.fb.fbW := Nat.mul_le_mul_right _ hy
      _ = s.tracking.fb.fbW * s.tracking.fb.fbH := Nat.mul_comm _ _
  rcases hchanged with hpx | ⟨m₁, m₂, s₁, rfl, hm₁, hdims⟩
  · rcases (Screen.run_since hinv₀ hmid hrest).2 _ (.refl _) with hall | ⟨hw, -, hsame⟩
    · exact hall _ hidx
    · by_contra hclean
      refine hpx ?_
      unfold Framebuffer.pixel
      rw [hsame _ hidx hclean, hw]
  · -- Another resolution marked every tile, and no pull has cleared the marks.
    have hmid₁ : Op.pull ∉ m₁ := fun h => hmid (List.mem_append_left _ h)
    have hmid₂ : Op.pull ∉ m₂ := fun h => hmid (List.mem_append_right _ h)
    obtain ⟨hinv₁, -⟩ := Screen.run_keeps hinv₀ hm₁
    rw [Screen.run_append, hm₁, ok_bind] at hrest
    have hall₁ : s₁.tracking.AllDirty := by
      rcases (Screen.run_since hinv₀ hmid₁ hm₁).2 _ (.refl _) with hall | ⟨hw, hh, -⟩
      · exact hall
      · exact absurd (Prod.ext hw hh) hdims
    exact (Screen.run_since hinv₁ hmid₂ hrest).1 hall₁ _ hidx

/-- **A pull is exact** if and only if no byte makes the decoder store a parameter past the end
of `cmd_p_buff`. -/
theorem pull_exact (ops : List Op) : PullsExactly ops ↔ DvcDecoder.StreamFits {} (bytes ops) := by
  rw [← feed_ok_iff .fresh]
  constructor
  · rintro ⟨s, hrun, -⟩
    obtain ⟨-, ev, hfeed, -⟩ := Screen.run_keeps .fresh hrun
    exact ⟨s.decoder, ev, hfeed⟩
  rintro ⟨d, ev, hfeed⟩
  obtain ⟨s, hrun⟩ := Screen.run_of_feed (s := {}) hfeed
  obtain ⟨hinv, ev', hfeed', hfb⟩ := Screen.run_keeps .fresh hrun
  refine ⟨s, hrun, by rw [paint_of_feed hfeed', hfb], fun hres => ?_⟩
  have hk : s.tracking.Known := by
    refine hinv.known.resolve_left fun hfb => hres ?_
    rw [hfb]
  obtain ⟨hcopy, -, -, hinside, hapart, hcover⟩ := pull_spec hinv.sized hk hinv.front
  refine ⟨hcopy, fun _ => ⟨hinside, hapart, ?_⟩⟩
  rintro pre mid s₀ rfl hmid hpre x y hx hy hchanged
  exact hcover x y hx hy (changed_dirty hrun hmid hpre hx hy hchanged)

/-- **Not every stream is shown**: a command of 258 parameters breaks the decoder. -/
theorem pull_overruns : ¬ ∀ ops, PullsExactly ops := by
  intro hall
  obtain ⟨s, hrun, -⟩ := hall ((paramOverrun ++ [0xFF]).map .byte)
  obtain ⟨-, ev, hfeed, -⟩ := Screen.run_keeps .fresh hrun
  have hbytes : bytes ((paramOverrun ++ [0xFF]).map .byte) = paramOverrun ++ [0xFF] := by
    rw [bytes, List.filterMap_map]
    exact List.filterMap_some
  rw [hbytes] at hfeed
  exact absurd (feed_paramOverrun.symm.trans hfeed) (by rintro ⟨⟩)

end Ilo2.Ui
