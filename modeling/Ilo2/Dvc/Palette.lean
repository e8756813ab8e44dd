import Ilo2.Dvc.Cache
import Ilo2.Lib.MoveToFront

/-!
# The palette is a move-to-front list

`PaletteInv c L`: the slots of the cache `c` hold the marked list `L` of colours,
most recently used first.  Each of the four operations of `DvcCache` stays inside
its arrays and does to `L` what the list operation of `MoveToFront` says:

* `cacheReset_spec`: `L` becomes empty;
* `cacheLru_spec`: `touch`, with room for 17 colours;
* `cacheFind_spec`: `pick`, by rank;
* `cachePrune_spec`: `sweep`.

`cache_prune` never renumbers a rank.  It may not, and need not: marked colours
come first in `L`, so the ranks of the colours it keeps have no gap.
-/

namespace Ilo2.Dvc

open Checked MoveToFront

namespace DvcCache

/-! ### The slots -/

def key (c : DvcCache) (k : Nat) : Int := look 0 c.ccColor k
def rank (c : DvcCache) (k : Nat) : Nat := look 0 c.ccUsage k
def flag (c : DvcCache) (k : Nat) : Nat := look 0 c.ccBlock k
def mark (c : DvcCache) (k : Nat) : Bool := c.flag k != 0

theorem rd_key (c : DvcCache) {k : Nat} (hk : k < 17) :
    rd Fault.palette c.ccColor k = .ok (c.key k) := rd_eq_look 0 hk

theorem rd_rank (c : DvcCache) {k : Nat} (hk : k < 17) :
    rd Fault.palette c.ccUsage k = .ok (c.rank k) := rd_eq_look 0 hk

theorem rd_flag (c : DvcCache) {k : Nat} (hk : k < 17) :
    rd Fault.palette c.ccBlock k = .ok (c.flag k) := rd_eq_look 0 hk

/-- The entries in rank order, each with its flag. -/
def rankOrder (c : DvcCache) : List (Int × Bool) :=
  (List.range c.ccActive).flatMap fun r =>
    ((List.range c.ccActive).filter fun k => c.rank k = r).map fun k => (c.key k, c.mark k)

end DvcCache

open DvcCache

/-- The cache holds the palette `L`. -/
structure PaletteInv (c : DvcCache) (L : List (Int × Bool)) : Prop where
  ranked : Ranked c.ccActive c.key c.rank c.mark L
  wf : WellFormed 17 L
  flag_le : ∀ k < c.ccActive, c.flag k ≤ 1
  fan : 1 ≤ c.ccActive → c.pixcode = pixfan c.ccActive ∧ c.next131 = pixfan c.ccActive
  pixcode : ∃ a, c.pixcode = pixfan a
  next131 : c.next131 = 35 ∨ ∃ a, c.next131 = pixfan a

namespace PaletteInv

variable {c : DvcCache} {L : List (Int × Bool)}

/-- The ranks in use are `0 .. cc_active - 1`, each once. -/
theorem ranks_perm (h : PaletteInv c L) :
    ((List.range c.ccActive).map c.rank).Perm (List.range c.ccActive) := by
  have hnd : ((List.range c.ccActive).map c.rank).Nodup := by
    refine (List.nodup_range).map_on fun j hj k hk he => ?_
    exact h.ranked.inj j (List.mem_range.mp hj) k (List.mem_range.mp hk) he
  have hsub : (List.range c.ccActive).map c.rank ⊆ List.range c.ccActive := by
    intro r hr
    obtain ⟨k, hk, rfl⟩ := List.mem_map.mp hr
    exact List.mem_range.mpr (h.ranked.rank_lt (List.mem_range.mp hk))
  exact (List.subperm_of_subset hnd hsub).perm_of_length_le (by simp)

theorem active_le (h : PaletteInv c L) : c.ccActive ≤ 17 := h.ranked.len ▸ h.wf.length_le

/-- The rank order of the slots is the list. -/
theorem rankOrder_eq (h : PaletteInv c L) : c.rankOrder = L := by
  have hsingle : ∀ r < c.ccActive, ((List.range c.ccActive).filter fun k => c.rank k = r).map
      (fun k => (c.key k, c.mark k)) = (L[r]?).toList := by
    intro r hr
    obtain ⟨k, hk, rfl⟩ := h.ranked.exists_rank hr
    have hf : ((List.range c.ccActive).filter fun j => c.rank j = c.rank k) = [k] := by
      have hcongr : ∀ j ∈ List.range c.ccActive,
          decide (c.rank j = c.rank k) = decide (j = k) := by
        intro j hj
        have := h.ranked.inj j (List.mem_range.mp hj) k hk
        by_cases hjk : j = k
        · simp [hjk]
        · simp [hjk, mt this hjk]
      rw [List.filter_congr hcongr, List.filter_eq,
        List.count_eq_one_of_mem List.nodup_range (List.mem_range.mpr hk)]
      rfl
    rw [hf, h.ranked.entry k hk]
    rfl
  have hrange : c.rankOrder = (List.range c.ccActive).flatMap fun r => (L[r]?).toList :=
    List.flatMap_congr fun r hr => hsingle r (List.mem_range.mp hr)
  rw [hrange, ← h.ranked.len]
  clear hrange hsingle h
  induction L using List.reverseRecOn with
  | nil => rfl
  | append_singleton L p ih =>
      rw [List.length_append, List.length_singleton, List.range_succ, List.flatMap_append]
      have hpre : ((List.range L.length).flatMap fun r => ((L ++ [p])[r]?).toList) = L := by
        refine Eq.trans (List.flatMap_congr fun r hr => ?_) ih
        rw [List.getElem?_append_left (List.mem_range.mp hr)]
      rw [hpre]
      simp

end PaletteInv

/-! ### The loops -/

namespace DvcCache

theorem age_ok (aged : Int) : ∀ (m k : Nat) (u : Vector Nat 17), k + m ≤ 17 →
    ∃ u', age aged m k u = .ok u' ∧ ∀ j, look 0 u' j =
      if k ≤ j ∧ j < k + m ∧ ((look 0 u j : Nat) : Int) < aged then look 0 u j + 1 else look 0 u j := by
  intro m
  induction m with
  | zero =>
      intro k u _
      refine ⟨u, rfl, fun j => ?_⟩
      rw [if_neg (by omega)]
  | succ m ih =>
      intro k u hk
      have hk' : k < 17 := by omega
      rw [age, rd_eq_look 0 hk', ok_bind]
      by_cases hx : ((look 0 u k : Nat) : Int) < aged
      · obtain ⟨u', hu', hl⟩ := ih (k + 1) (u.set k (look 0 u k + 1)) (by omega)
        refine ⟨u', by rw [if_pos hx, wr_of_lt hk', ok_bind, hu'], fun j => ?_⟩
        rw [hl, look_set hk']
        by_cases hjk : j = k
        · subst hjk
          rw [if_pos rfl, if_neg (by omega), if_pos ⟨le_rfl, by omega, hx⟩]
        · rw [if_neg hjk]
          congr 1
          exact propext ⟨fun h => ⟨by omega, by omega, h.2.2⟩, fun h => ⟨by omega, by omega, h.2.2⟩⟩
      · obtain ⟨u', hu', hl⟩ := ih (k + 1) u (by omega)
        refine ⟨u', by rw [if_neg hx, hu'], fun j => ?_⟩
        rw [hl]
        by_cases hjk : j = k
        · subst hjk
          rw [if_neg (by omega), if_neg (fun h => hx h.2.2)]
        · congr 1
          exact propext ⟨fun h => ⟨by omega, by omega, h.2.2⟩, fun h => ⟨by omega, by omega, h.2.2⟩⟩

/-- The scan of `cache_lru` finds the first slot of the colour, or no slot holds it
and the result is the slot of highest rank, if there is one. -/
theorem lruScan_ok (c : DvcCache) (color : Int) : ∀ (m k slot : Nat), k + m ≤ 17 →
    ∃ s f, lruScan c color m k slot = .ok (s, f) ∧
      ((f = 1 ∧ k ≤ s ∧ s < k + m ∧ c.key s = color) ∨
       (f = 0 ∧ (∀ j, k ≤ j → j < k + m → c.key j ≠ color) ∧
        (s = slot ∨ (s < k + m ∧ c.rank s = c.ccActive - 1)) ∧
        ∀ j, k ≤ j → j < k + m → c.rank j = c.ccActive - 1 →
          s < k + m ∧ c.rank s = c.ccActive - 1)) := by
  intro m
  induction m with
  | zero =>
      intro k slot _
      exact ⟨slot, 0, rfl, Or.inr ⟨rfl, fun j _ _ => by omega, Or.inl rfl, fun j _ _ => by omega⟩⟩
  | succ m ih =>
      intro k slot hk
      have hk' : k < 17 := by omega
      rw [lruScan, rd_key c hk', rd_rank c hk']
      simp only [ok_bind]
      by_cases hc : color = c.key k
      · exact ⟨k, 1, if_pos hc, Or.inl ⟨rfl, le_rfl, by omega, hc.symm⟩⟩
      rw [if_neg hc]
      have hck : c.key k ≠ color := fun h => hc h.symm
      by_cases hu : c.rank k = c.ccActive - 1
      · rw [if_pos hu]
        obtain ⟨s, f, hs, h⟩ := ih (k + 1) k (by omega)
        refine ⟨s, f, hs, ?_⟩
        rcases h with ⟨hf, h1, h2, h3⟩ | ⟨hf, h1, h2, h3⟩
        · exact Or.inl ⟨hf, by omega, by omega, h3⟩
        · have hs' : s < k + (m + 1) ∧ c.rank s = c.ccActive - 1 := by
            rcases h2 with rfl | h2
            · exact ⟨by omega, hu⟩
            · exact ⟨by omega, h2.2⟩
          refine Or.inr ⟨hf, fun j hj hjm => ?_, Or.inr hs', fun _ _ _ _ => hs'⟩
          by_cases hjk : j = k
          · exact hjk ▸ hck
          · exact h1 j (by omega) (by omega)
      · rw [if_neg hu]
        obtain ⟨s, f, hs, h⟩ := ih (k + 1) slot (by omega)
        refine ⟨s, f, hs, ?_⟩
        rcases h with ⟨hf, h1, h2, h3⟩ | ⟨hf, h1, h2, h3⟩
        · exact Or.inl ⟨hf, by omega, by omega, h3⟩
        · refine Or.inr ⟨hf, fun j hj hjm => ?_, ?_, fun j hj hjm hjr => ?_⟩
          · by_cases hjk : j = k
            · exact hjk ▸ hck
            · exact h1 j (by omega) (by omega)
          · exact h2.imp_right fun h => ⟨by omega, h.2⟩
          · have hjk : j ≠ k := fun e => hu (e ▸ hjr)
            have := h3 j (by omega) (by omega) hjr
            exact ⟨by omega, this.2⟩

theorem findScan_ok (c : DvcCache) (r : Int) : ∀ (m k : Nat), k + m ≤ 17 →
    (∃ s, findScan c r m k = .ok (some s) ∧ k ≤ s ∧ s < k + m ∧ (c.rank s : Int) = r) ∨
    (findScan c r m k = .ok none ∧ ∀ j, k ≤ j → j < k + m → (c.rank j : Int) ≠ r) := by
  intro m
  induction m with
  | zero => intro k _; exact Or.inr ⟨rfl, fun j _ _ => by omega⟩
  | succ m ih =>
      intro k hk
      have hk' : k < 17 := by omega
      rw [findScan, rd_rank c hk', ok_bind]
      by_cases hr : r = c.rank k
      · exact Or.inl ⟨k, if_pos hr, le_rfl, by omega, hr.symm⟩
      · rw [if_neg hr]
        rcases ih (k + 1) (by omega) with ⟨s, hs, h1, h2, h3⟩ | ⟨hs, h⟩
        · exact Or.inl ⟨s, hs, by omega, by omega, h3⟩
        · refine Or.inr ⟨hs, fun j hj hjm => ?_⟩
          by_cases hjk : j = k
          · subst hjk; exact fun e => hr e.symm
          · exact h j (by omega) (by omega)

/-- Slot `s` after promotion: what `cache_lru` and `cache_find` leave in the three
arrays when the ranks below that of `s` have been aged. -/
theorem ranked_promoted {c c' : DvcCache} {L : List (Int × Bool)} {s : Nat} {u : Vector Nat 17}
    (h : Ranked c.ccActive c.key c.rank c.mark L) (hact : c.ccActive ≤ 17) (hs : s < c.ccActive)
    (color : Int) (hact' : c'.ccActive = c.ccActive)
    (hu : ∀ j, look 0 u j =
      if 0 ≤ j ∧ j < 0 + c.ccActive ∧ ((look 0 c.ccUsage j : Nat) : Int) < c.rank s
      then look 0 c.ccUsage j + 1 else look 0 c.ccUsage j)
    (hcolor : ∀ k < c.ccActive, c'.key k = if k = s then color else c.key k)
    (husage : c'.ccUsage = u.set s 0) (hblock : c'.ccBlock = c.ccBlock.set s 1) :
    Ranked c'.ccActive c'.key c'.rank c'.mark ((color, true) :: L.eraseIdx (c.rank s)) := by
  have hs' : s < 17 := by omega
  rw [hact']
  refine (h.promote hs color).congr hcolor (fun k hk => ?_) (fun k hk => ?_)
  · rw [rank, husage, look_set hs', hu]
    by_cases hks : k = s
    · rw [if_pos hks, if_pos hks]
    · rw [if_neg hks, if_neg hks]
      by_cases hlt : c.rank k < c.rank s
      · rw [if_pos hlt, if_pos ⟨Nat.zero_le k, by omega, by exact_mod_cast hlt⟩]
        rfl
      · rw [if_neg hlt, if_neg (fun hh => hlt (by exact_mod_cast hh.2.2))]
        rfl
  · rw [mark, flag, hblock, look_set hs']
    by_cases hks : k = s
    · simp [hks]
    · rw [if_neg hks, if_neg hks]
      rfl

theorem flag_le_set {c c' : DvcCache} {s : Nat} (hs : s < 17)
    (h : ∀ k < c'.ccActive, k ≠ s → c.flag k ≤ 1) (hblock : c'.ccBlock = c.ccBlock.set s 1) :
    ∀ k < c'.ccActive, c'.flag k ≤ 1 := by
  intro k hk
  rw [flag, hblock, look_set hs]
  split
  · exact le_rfl
  · rename_i hks; exact h k hk hks

end DvcCache

/-! ### The four operations -/

theorem paletteInv_fresh : PaletteInv {} [] where
  ranked := Ranked.zero
  wf := wellFormed_nil 17
  flag_le k hk := absurd hk (Nat.not_lt_zero k)
  fan h := absurd h (by decide)
  pixcode := ⟨0, rfl⟩
  next131 := Or.inl rfl

namespace PaletteInv

variable {c : DvcCache} {L : List (Int × Bool)}

theorem cacheReset_spec (h : PaletteInv c L) : PaletteInv c.cacheReset [] where
  ranked := Ranked.zero
  wf := wellFormed_nil 17
  flag_le k hk := absurd hk (Nat.not_lt_zero k)
  fan h' := absurd h' (by simp [cacheReset])
  pixcode := h.pixcode
  next131 := h.next131

/-- **`cache_find` is `pick`.** A rank that no entry has, negative ones included,
changes nothing. -/
theorem cacheFind_spec (h : PaletteInv c L) (r : Int) :
    ∃ c', c.cacheFind r = .ok (((if 0 ≤ r then pick L r.toNat else (none, L)).1).getD (-1), c') ∧
      PaletteInv c' (if 0 ≤ r then pick L r.toNat else (none, L)).2 := by
  have hact := h.active_le
  rw [cacheFind]
  rcases findScan_ok c r c.ccActive 0 (by omega) with ⟨s, hs, -, hsa, hr⟩ | ⟨hs, hno⟩
  · have hsa' : s < c.ccActive := by omega
    have hs17 : s < 17 := by omega
    have hL := h.ranked.entry s hsa'
    obtain ⟨u, hu, hul⟩ := age_ok r c.ccActive 0 c.ccUsage (by omega)
    have hpick : (if 0 ≤ r then pick L r.toNat else (none, L))
        = (some (c.key s), (c.key s, true) :: L.eraseIdx (c.rank s)) := by
      rw [if_pos (by omega), show r.toNat = c.rank s by omega, pick, hL]
    rw [hs, hpick]
    simp only [ok_bind, rd_key c hs17, hu, wr_of_lt hs17]
    refine ⟨_, rfl, ?_⟩
    refine ⟨ranked_promoted h.ranked hact hsa' (c.key s) rfl (hr ▸ hul) (fun k _ => ?_) rfl rfl,
      h.wf.promote hL, flag_le_set hs17 (fun k hk _ => h.flag_le k hk) rfl, h.fan, h.pixcode,
      h.next131⟩
    by_cases hks : k = s
    · rw [if_pos hks, hks]; rfl
    · rw [if_neg hks]; rfl
  · have hpick : (if 0 ≤ r then pick L r.toNat else (none, L)) = (none, L) := by
      split
      · rename_i h0
        have hlen : L.length ≤ r.toNat := by
          by_contra hlt
          obtain ⟨k, hk, hkr⟩ := h.ranked.exists_rank (r := r.toNat)
            (by rw [← h.ranked.len]; omega)
          exact hno k (Nat.zero_le k) (by omega) (by omega)
        rw [pick, List.getElem?_eq_none hlen]
      · rfl
    rw [hs, hpick]
    exact ⟨c, rfl, h⟩

/-- A colour of the palette is promoted. -/
theorem cacheLru_hit (h : PaletteInv c L) {color : Int} {s : Nat} (hsa : s < c.ccActive)
    (hkey : c.key s = color) (hs : lruScan c color c.ccActive 0 0 = .ok (s, 1)) :
    ∃ c', c.cacheLru color = .ok ((touch 17 L color).1.toNat, c') ∧
      PaletteInv c' (touch 17 L color).2 := by
  have hact := h.active_le
  have hwf := h.wf.touch (by decide) color
  have hs17 : s < 17 := by omega
  have hL := h.ranked.entry s hsa
  obtain ⟨u, hu, hul⟩ := age_ok (c.rank s) c.ccActive 0 c.ccUsage (by omega)
  have htouch : touch 17 L color = (true, (color, true) :: L.eraseIdx (c.rank s)) := by
    rw [touch, if_pos (h.ranked.mem_keys_iff.mpr ⟨s, hsa, hkey⟩), ← hkey,
      eraseP_eq_eraseIdx h.wf.nodup hL]
  rw [htouch] at hwf ⊢
  rw [cacheLru, hs]
  simp only [ok_bind, rd_rank c hs17, if_neg (show ¬ (1 = 0) by decide), hu, wr_of_lt hs17]
  refine ⟨_, rfl, ?_⟩
  refine ⟨ranked_promoted h.ranked hact hsa color rfl hul (fun k _ => ?_) rfl rfl, hwf,
    flag_le_set hs17 (fun k hk _ => h.flag_le k hk) rfl, h.fan, h.pixcode, h.next131⟩
  by_cases hks : k = s
  · rw [if_pos hks, hks, ← hkey]; rfl
  · rw [if_neg hks]; rfl

/-- A new colour takes a new slot. -/
theorem cacheLru_push (h : PaletteInv c L) {color : Int} {s : Nat} (hnew : color ∉ L.map Prod.fst)
    (hroom : c.ccActive < 17) (hs17 : s < 17)
    (hs : lruScan c color c.ccActive 0 0 = .ok (s, 0)) :
    ∃ c', c.cacheLru color = .ok ((touch 17 L color).1.toNat, c') ∧
      PaletteInv c' (touch 17 L color).2 := by
  have hwf := h.wf.touch (by decide) color
  obtain ⟨u, hu, hul⟩ := age_ok c.ccActive (c.ccActive + 1) 0 c.ccUsage (by omega)
  have htouch : touch 17 L color = (false, (color, true) :: L) := by
    rw [touch, if_neg hnew, if_neg (by rw [h.ranked.len]; omega)]
  rw [htouch] at hwf ⊢
  rw [cacheLru, hs]
  simp only [ok_bind, rd_rank c hs17, if_true, if_pos hroom, updatePixcode, wr_of_lt hroom, hu]
  refine ⟨_, rfl, ?_, hwf, flag_le_set hroom (fun k hk hne => h.flag_le k (by simp at hk; omega))
    rfl, fun _ => ⟨rfl, rfl⟩, ⟨_, rfl⟩, Or.inr ⟨_, rfl⟩⟩
  refine (h.ranked.push color).congr (fun k _ => ?_) (fun k hk => ?_) (fun k _ => ?_)
  · rw [key, look_set hroom]
    rfl
  · rw [rank, look_set hroom, hul]
    by_cases hkn : k = c.ccActive
    · rw [if_pos hkn, if_pos hkn]
    · have hlt := h.ranked.rank_lt (show k < c.ccActive by omega)
      rw [if_neg hkn, if_neg hkn, if_pos ⟨Nat.zero_le k, by omega, by exact_mod_cast hlt⟩]
      rfl
  · rw [mark, flag, look_set hroom]
    by_cases hkn : k = c.ccActive
    · simp [hkn]
    · rw [if_neg hkn, if_neg hkn]
      rfl

/-- In a full palette the slot of rank 16 changes hands. -/
theorem cacheLru_full (h : PaletteInv c L) {color : Int} {s : Nat} (hnew : color ∉ L.map Prod.fst)
    (h17 : c.ccActive = 17) (hsa : s < c.ccActive) (hrank : c.rank s = c.ccActive - 1)
    (hs : lruScan c color c.ccActive 0 0 = .ok (s, 0)) :
    ∃ c', c.cacheLru color = .ok ((touch 17 L color).1.toNat, c') ∧
      PaletteInv c' (touch 17 L color).2 := by
  have hact := h.active_le
  have hwf := h.wf.touch (by decide) color
  have hs17 : s < 17 := by omega
  obtain ⟨u, hu, hul⟩ := age_ok (c.rank s) c.ccActive 0 c.ccUsage (by omega)
  have htouch : touch 17 L color = (false, (color, true) :: L.eraseIdx (c.rank s)) := by
    rw [touch, if_neg hnew, if_pos (by rw [h.ranked.len, h17]), hrank, ← h.ranked.len,
      List.eraseIdx_length_sub_one]
  rw [htouch] at hwf ⊢
  rw [cacheLru, hs]
  simp only [ok_bind, rd_rank c hs17, if_true, if_neg (show ¬ c.ccActive < 17 by omega),
    wr_of_lt hs17, hu]
  refine ⟨_, rfl, ?_⟩
  refine ⟨ranked_promoted h.ranked hact hsa color rfl hul (fun k _ => ?_) rfl rfl, hwf,
    flag_le_set hs17 (fun k hk _ => h.flag_le k hk) rfl, h.fan, h.pixcode, h.next131⟩
  rw [key, look_set hs17]
  rfl

/-- **`cache_lru` is `touch`**, with room for 17 colours. -/
theorem cacheLru_spec (h : PaletteInv c L) (color : Int) :
    ∃ c', c.cacheLru color = .ok ((touch 17 L color).1.toNat, c') ∧
      PaletteInv c' (touch 17 L color).2 := by
  have hact := h.active_le
  obtain ⟨s, f, hs, hcase⟩ := lruScan_ok c color c.ccActive 0 0 (by omega)
  rcases hcase with ⟨rfl, -, hsa, hkey⟩ | ⟨rfl, hno, hslot, hmax⟩
  · exact cacheLru_hit h (by omega) hkey hs
  · have hnew : color ∉ L.map Prod.fst := by
      rw [h.ranked.mem_keys_iff]
      rintro ⟨k, hk, hkc⟩
      exact hno k (Nat.zero_le k) (by omega) hkc
    by_cases hroom : c.ccActive < 17
    · exact cacheLru_push h hnew hroom (by rcases hslot with rfl | hh <;> omega) hs
    · have h17 : c.ccActive = 17 := by omega
      obtain ⟨k₀, hk₀, hr₀⟩ := h.ranked.exists_rank (r := c.ccActive - 1) (by omega)
      obtain ⟨hsa, hrank⟩ := hmax k₀ (Nat.zero_le _) (by omega) hr₀
      exact cacheLru_full h hnew h17 (by omega) hrank hs

/-- The loop of `cache_prune` is the sweep. -/
theorem pruneLoop_spec (hL : MarkedFirst L) : ∀ (m k : Nat) (c : DvcCache), k + m ≤ 17 →
    (∀ j, k ≤ j → j < k + m → c.flag j ≤ 1) →
    Sweeping L (L.filter Prod.snd).length k m c.key c.rank c.mark →
    ∃ c', pruneLoop m k c = .ok c' ∧ c'.pixcode = c.pixcode ∧ c'.next131 = c.next131 ∧
      Ranked c'.ccActive c'.key c'.rank c'.mark (sweep L) ∧ ∀ j < c'.ccActive, c'.flag j ≤ 1 := by
  intro m
  induction m with
  | zero =>
      intro k c _ _ h
      refine ⟨_, rfl, rfl, rfl, h.finish hL, fun j hj => ?_⟩
      have := (h.done j hj).1
      simp only [mark, bne_eq_false_iff_eq] at this
      exact le_of_eq_of_le this (by decide)
  | succ m ih =>
      intro k c hk hflag h
      have hk17 : k < 17 := by omega
      have hl17 : k + m < 17 := by omega
      rw [pruneLoop]
      simp only [rd_flag c hk17, rd_flag c hl17, rd_key c hl17, rd_rank c hl17, wr_of_lt hk17, ok_bind]
      by_cases hb : c.flag k = 0
      · rw [if_pos hb]
        have hmark : c.mark k = false := by simp [mark, hb]
        have hstep := h.drop hL hmark
        obtain ⟨c', hc', hp, hn, hr, hf⟩ := ih k
          { c with ccBlock := c.ccBlock.set k (c.flag (k + m))
                   ccColor := c.ccColor.set k (c.key (k + m))
                   ccUsage := c.ccUsage.set k (c.rank (k + m)) } (by omega)
          (fun j h1 h2 => by
            rw [flag, look_set hk17]
            split
            · exact hflag (k + m) (by omega) (by omega)
            · exact hflag j h1 (by omega))
          (by
            convert hstep using 1
            · funext j; exact look_set hk17 j
            · funext j; exact look_set hk17 j
            · funext j
              simp only [mark, flag, look_set hk17]
              split <;> rfl)
        exact ⟨c', hc', hp, hn, hr, hf⟩
      · rw [if_neg hb]
        have hone : c.flag k = 1 := by
          have := hflag k le_rfl (by omega)
          omega
        have hmark : c.mark k = true := by simp [mark, hone]
        have hstep := h.keep hL hmark
        have hm : ({ c with ccBlock := c.ccBlock.set k (c.flag k - 1) } : DvcCache).mark
            = fun j => if j = k then false else c.mark j := by
          funext j
          simp only [mark, flag, look_set hk17]
          split
          · rw [show look 0 c.ccBlock k = 1 from hone]; rfl
          · rfl
        obtain ⟨c', hc', hp, hn, hr, hf⟩ := ih (k + 1)
          { c with ccBlock := c.ccBlock.set k (c.flag k - 1) } (by omega)
          (fun j h1 h2 => by
            rw [flag, look_set hk17, if_neg (by omega)]
            exact hflag j (by omega) (by omega))
          (by rw [hm]; exact hstep)
        exact ⟨c', hc', hp, hn, hr, hf⟩

/-- **`cache_prune` is `sweep`.** -/
theorem cachePrune_spec (h : PaletteInv c L) :
    ∃ c', c.cachePrune = .ok c' ∧ PaletteInv c' (sweep L) := by
  obtain ⟨c', hc', -, -, hr, hf⟩ := pruneLoop_spec h.wf.markedFirst c.ccActive 0 c
    (by have := h.active_le; omega) (fun j _ hj => h.flag_le j (by omega)) (Sweeping.start h.ranked)
  refine ⟨c'.updatePixcode, by rw [cachePrune, hc', ok_bind], hr, h.wf.sweep, hf,
    fun _ => ⟨rfl, rfl⟩, ⟨_, rfl⟩, Or.inr ⟨_, rfl⟩⟩

end PaletteInv

/-! ### Runs -/

/-- A call of one of the four operations. -/
inductive CacheOp where
  | reset
  | lru (color : Int)
  | find (rank : Int)
  | prune
deriving Repr, DecidableEq

/-- The call on the cache, with the value it returns. -/
def DvcCache.call (c : DvcCache) : CacheOp → Except Fault (Option Int × DvcCache)
  | .reset => .ok (none, c.cacheReset)
  | .lru color => do let (r, c) ← c.cacheLru color; .ok (some r, c)
  | .find rank => do let (r, c) ← c.cacheFind rank; .ok (some r, c)
  | .prune => do .ok (none, ← c.cachePrune)

def DvcCache.calls (c : DvcCache) : List CacheOp → Except Fault (List (Option Int) × DvcCache)
  | [] => .ok ([], c)
  | op :: ops => do
      let (r, c) ← c.call op
      let (rs, c) ← c.calls ops
      .ok (r :: rs, c)

/-- The call on the list of (colour, touched) pairs. -/
def listCall (L : List (Int × Bool)) : CacheOp → Option Int × List (Int × Bool)
  | .reset => (none, [])
  | .lru color => (some (touch 17 L color).1.toNat, (touch 17 L color).2)
  | .find rank =>
      if 0 ≤ rank then (some ((pick L rank.toNat).1.getD (-1)), (pick L rank.toNat).2)
      else (some (-1), L)
  | .prune => (none, sweep L)

def listCalls (L : List (Int × Bool)) : List CacheOp → List (Option Int) × List (Int × Bool)
  | [] => ([], L)
  | op :: ops => ((listCall L op).1 :: (listCalls (listCall L op).2 ops).1,
      (listCalls (listCall L op).2 ops).2)

/-- One call on the cache is the same call on its list. -/
theorem PaletteInv.call_spec {c : DvcCache} {L : List (Int × Bool)} (h : PaletteInv c L)
    (op : CacheOp) :
    ∃ c', c.call op = .ok ((listCall L op).1, c') ∧ PaletteInv c' (listCall L op).2 := by
  cases op with
  | reset => exact ⟨_, rfl, h.cacheReset_spec⟩
  | lru color =>
      obtain ⟨c', hc', h'⟩ := h.cacheLru_spec color
      exact ⟨c', by rw [DvcCache.call, hc']; rfl, h'⟩
  | find rank =>
      obtain ⟨c', hc', h'⟩ := h.cacheFind_spec rank
      refine ⟨c', ?_, ?_⟩
      · rw [DvcCache.call, hc', listCall]
        split <;> rfl
      · rw [listCall]
        split
        · rename_i h0; rwa [if_pos h0] at h'
        · rename_i h0; rwa [if_neg h0] at h'
  | prune =>
      obtain ⟨c', hc', h'⟩ := h.cachePrune_spec
      exact ⟨c', by rw [DvcCache.call, hc']; rfl, h'⟩

theorem PaletteInv.calls_spec {c : DvcCache} {L : List (Int × Bool)} (h : PaletteInv c L)
    (ops : List CacheOp) :
    ∃ c', c.calls ops = .ok ((listCalls L ops).1, c') ∧ PaletteInv c' (listCalls L ops).2 := by
  induction ops generalizing c L with
  | nil => exact ⟨c, rfl, h⟩
  | cons op ops ih =>
      obtain ⟨c₁, hc₁, h₁⟩ := h.call_spec op
      obtain ⟨c₂, hc₂, h₂⟩ := ih h₁
      exact ⟨c₂, by rw [DvcCache.calls, hc₁, ok_bind]; dsimp only; rw [hc₂]; rfl, h₂⟩

/-- **`DvcCache` refines a move-to-front list.**  Over any sequence of calls from a
fresh cache no access leaves the arrays, every call returns what it returns on the
list, and the entries in rank order are the list; the slots in use hold distinct
colours, their ranks are a permutation of `0 .. cc_active - 1`, the flags are 0 or 1
with every flagged entry ranked before every unflagged one, and a palette that is not
empty has the PIXFAN state of its size. -/
theorem dvcCache_refines_moveToFront (ops : List CacheOp) :
    ∃ c, DvcCache.calls {} ops = .ok ((listCalls [] ops).1, c) ∧
      c.rankOrder = (listCalls [] ops).2 ∧
      c.rankOrder.length = c.ccActive ∧ c.ccActive ≤ 17 ∧
      (∀ j < c.ccActive, ∀ k < c.ccActive, c.key j = c.key k → j = k) ∧
      ((List.range c.ccActive).map c.rank).Perm (List.range c.ccActive) ∧
      (∀ k < c.ccActive, c.flag k = 0 ∨ c.flag k = 1) ∧
      (∀ j < c.ccActive, ∀ k < c.ccActive, c.flag j = 1 → c.flag k = 0 → c.rank j < c.rank k) ∧
      (1 ≤ c.ccActive → c.pixcode = pixfan c.ccActive ∧ c.next131 = pixfan c.ccActive) := by
  obtain ⟨c, hc, h⟩ := paletteInv_fresh.calls_spec ops
  have hL := h.rankOrder_eq
  refine ⟨c, hc, hL, ?_, h.active_le, ?_, h.ranks_perm, ?_, ?_, h.fan⟩
  · rw [hL]; exact h.ranked.len
  · exact fun j hj k hk he => h.ranked.key_inj h.wf.nodup hj hk he
  · intro k hk
    have := h.flag_le k hk
    omega
  · intro j hj k hk hfj hfk
    exact h.ranked.rank_lt_of_marked h.wf.markedFirst hj hk (by simp [mark, hfj])
      (by simp [mark, hfk])

/-- A colour looked up again is found and comes to the front; a full sweep keeps it. -/
example : (listCalls [] [.lru 5, .lru 7, .lru 5, .find 1, .prune, .find 1]).1
    = [some 0, some 0, some 1, some 7, none, some 5] := by decide

end Ilo2.Dvc
