import Mathlib.Tactic.Common
import Mathlib.Algebra.Group.Int.Defs
import Mathlib.Algebra.Group.Nat.Defs

/-!
# Clocks that wrap

A clock of 32 bits shows `stamp t` at the time `t`.  Stamps are compared by the sign of their
difference, as long as the times are not too far apart, and 0 stands for no stamp.

* `age` - the time between two stamps.
* `newer_iff` - the comparison is that of the times.
* `newest_eq` - **the newest stamp of a list** is that of the newest time.
-/

namespace Serial

/-- What the clock shows. -/
def stamp (t : Int) : UInt32 := UInt32.ofInt t

/-- `a` is newer than `b`: their difference is positive, as a signed number. -/
def newer (a b : UInt32) : Bool := 0 < (a - b).toInt32

/-- The newer one of what was found and a stamp, if it is one. -/
def pick (newest t : UInt32) : UInt32 :=
  if t ≠ 0 ∧ (newest = 0 ∨ newer t newest = true) then t else newest

/-- The newest of a list of stamps, or 0. -/
def newest (stamps : List UInt32) : UInt32 := stamps.foldl pick 0

/-- A stamp, or none. -/
def show? (o : Option Int) : UInt32 := o.elim 0 stamp

/-! ### Two stamps -/

variable {x y : Int}

theorem toNat_stamp (x : Int) : ((stamp x).toNat : Int) = x % 2 ^ 32 := by
  have h0 := Int.emod_nonneg x (show (2 : Int) ^ 32 ≠ 0 by decide)
  have hlt := Int.emod_lt_of_pos x (show (0 : Int) < 2 ^ 32 by decide)
  have hnat : (x % 2 ^ 32).toNat < 2 ^ 32 := by omega
  rw [stamp, UInt32.ofInt, UInt32.toNat_ofNat_of_lt' hnat]
  omega

theorem stamp_sub (x y : Int) : stamp x - stamp y = stamp (x - y) := by
  rw [stamp, stamp, stamp, Int.sub_eq_add_neg, UInt32.ofInt_add, UInt32.ofInt_neg,
    UInt32.sub_eq_add_neg]

/-- **The age of a stamp.** -/
theorem age (h : y ≤ x) (hlt : x - y < 2 ^ 32) : ((stamp x - stamp y).toNat : Int) = x - y := by
  rw [stamp_sub, toNat_stamp]
  exact Int.emod_eq_of_lt (by omega) hlt

/-- **The comparison** is that of the times. -/
theorem newer_iff (hlo : -2 ^ 31 < x - y) (hhi : x - y < 2 ^ 31) :
    newer (stamp x) (stamp y) = true ↔ y < x := by
  have hsigned : (stamp (x - y)).toInt32.toInt = x - y := by
    have hbits : (stamp (x - y)).toInt32.toInt = ((stamp (x - y)).toNat : Int).bmod (2 ^ 32) :=
      BitVec.toInt_eq_toNat_bmod _
    rw [hbits, toNat_stamp, show (2 : Int) ^ 32 = ((2 ^ 32 : Nat) : Int) from rfl, Int.emod_bmod]
    exact Int.bmod_eq_of_le (by omega) (by omega)
  rw [newer, stamp_sub, decide_eq_true_eq, Int32.lt_iff_toInt_lt, hsigned]
  show 0 < x - y ↔ y < x
  omega

/-! ### The newest -/

/-- Times that are no multiple of `2 ^ 32`, and less than `2 ^ 31` apart. -/
structure Near (lo : Int) (times : List (Option Int)) : Prop where
  shown : ∀ t, some t ∈ times → stamp t ≠ 0
  low : ∀ t, some t ∈ times → lo ≤ t
  high : ∀ t, some t ∈ times → t < lo + 2 ^ 31

theorem Near.mono {lo : Int} {times times' : List (Option Int)} (h : Near lo times)
    (hsub : ∀ t : Int, some t ∈ times' → some t ∈ times) : Near lo times' :=
  ⟨fun t ht => h.shown t (hsub t ht), fun t ht => h.low t (hsub t ht),
    fun t ht => h.high t (hsub t ht)⟩

/-- Without times nothing is found, behind whatever was found before. -/
theorem foldl_pick_none (times : List (Option Int)) (h : ∀ t, some t ∉ times) (found : UInt32) :
    (times.map show?).foldl pick found = found := by
  induction times with
  | nil => rfl
  | cons o times ih =>
      have ho : o = none := by
        cases o with
        | none => rfl
        | some t => exact absurd List.mem_cons_self (h t)
      rw [List.map_cons, List.foldl_cons, ho]
      exact ih fun t ht => h t (List.mem_cons_of_mem _ ht)

/-- The newest time wins, over the times found before it and over those behind it. -/
theorem foldl_pick {lo : Int} (times : List (Option Int)) : ∀ (found : Option Int) {m : Int},
    Near lo (found :: times) → some m ∈ found :: times →
      (∀ t, some t ∈ found :: times → t ≤ m) →
      (times.map show?).foldl pick (show? found) = stamp m := by
  induction times with
  | nil =>
      intro found m _ hm _
      rw [← List.mem_singleton.mp hm]
      rfl
  | cons o times ih =>
      intro found m hnear hm hmax
      rw [List.map_cons, List.foldl_cons]
      -- The one that is picked stands for both.
      have hgo {o' : Option Int} (hpick : pick (show? found) (show? o) = show? o')
          (hor : o' = found ∨ o' = o)
          (hsome : some m ∈ found :: o :: times → some m ∈ o' :: times) :
          (times.map show?).foldl pick (pick (show? found) (show? o)) = stamp m := by
        have hsub : ∀ t : Int, some t ∈ o' :: times → some t ∈ found :: o :: times := by
          intro t ht
          rcases List.mem_cons.mp ht with ht | ht
          · rcases hor with rfl | rfl
            · exact ht ▸ List.mem_cons_self
            · exact ht ▸ List.mem_cons_of_mem _ List.mem_cons_self
          · exact List.mem_cons_of_mem _ (List.mem_cons_of_mem _ ht)
        rw [hpick]
        exact ih o' (hnear.mono hsub) (hsome hm) fun t ht => hmax t (hsub t ht)
      cases o with
      | none => exact hgo rfl (.inl rfl) fun h => by simpa using h
      | some t =>
          have hne := hnear.shown t (by simp)
          have hlow := hnear.low t (by simp)
          have hhigh := hnear.high t (by simp)
          cases found with
          | none =>
              have hpick : pick (show? none) (show? (some t)) = show? (some t) :=
                if_pos ⟨hne, .inl rfl⟩
              exact hgo hpick (.inr rfl) fun h => by simpa using h
          | some u =>
              have hu := hnear.shown u (by simp)
              have hulow := hnear.low u (by simp)
              have huhigh := hnear.high u (by simp)
              have hnewer := newer_iff (x := t) (y := u) (by omega) (by omega)
              by_cases hlt : u < t
              · have hpick : pick (show? (some u)) (show? (some t)) = show? (some t) :=
                  if_pos ⟨hne, .inr (hnewer.mpr hlt)⟩
                refine hgo hpick (.inr rfl) fun h => ?_
                rcases List.mem_cons.mp h with h | h
                · have hmt := hmax t (by simp)
                  cases h
                  omega
                · exact h
              · have hpick : pick (show? (some u)) (show? (some t)) = show? (some u) :=
                  if_neg fun h => h.2.elim hu fun h => hlt (hnewer.mp h)
                refine hgo hpick (.inl rfl) fun h => ?_
                rcases List.mem_cons.mp h with h | h
                · exact h ▸ List.mem_cons_self
                rcases List.mem_cons.mp h with h | h
                · have hmu := hmax u (by simp)
                  cases h
                  rw [Int.le_antisymm (Int.not_lt.mp hlt) hmu]
                  exact List.mem_cons_self
                · exact List.mem_cons_of_mem _ h

/-- **The newest stamp** of a list is that of its newest time. -/
theorem newest_eq {lo m : Int} {times : List (Option Int)} (hnear : Near lo times)
    (hm : some m ∈ times) (hmax : ∀ t, some t ∈ times → t ≤ m) :
    newest (times.map show?) = stamp m :=
  foldl_pick times none (hnear.mono fun t ht => by simpa using ht) (List.mem_cons_of_mem _ hm)
    fun t ht => hmax t (by simpa using ht)

/-- Without times there is none. -/
theorem newest_eq_zero {times : List (Option Int)} (h : ∀ t, some t ∉ times) :
    newest (times.map show?) = 0 := foldl_pick_none times h 0

end Serial
