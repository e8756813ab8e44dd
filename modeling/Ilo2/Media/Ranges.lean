import Ilo2.Media.Range
import Ilo2.Lib.Intervals
import Mathlib.Data.List.Sort

/-!
# Ranges of a content

`range_error` and `coalesce_ranges` of `httplib.h`, on a content of `n` bytes.  `std::sort` is a
parameter, since it is free to put ranges with the same start in any order.

* `normalise_eq` - what the ends of a range are taken for.
* `checkRanges_ok` - what is let through is inside the content, and only two ranges meet earlier
  ones.
* `coalesce_count` - the ranges are joined without a position that is new, or had more often.
* `ranges_served` - **what is served** are the bytes that were asked for, and at most three times
  the content.
-/

namespace Ilo2.Media.Httplib

open Intervals
open Tls (ascii)

def CPPHTTPLIB_RANGE_MAX_COUNT : Nat := 1024

/-- `std::sort` by the start of the range. -/
structure StdSort where
  run : List Range → List Range
  perm : ∀ rs, (run rs).Perm rs
  sorted : ∀ rs, (run rs).Pairwise fun a b => a.1 ≤ b.1

/-- The special cases of `range_error` and `coalesce_ranges`. -/
def normalise (n : Nat) (r : Range) : Range :=
  let (first, last) := if r.1 = -1 ∧ r.2 = -1 then (0, (n : Int)) else r
  let (first, last) := if first = -1 then (n - last, (n : Int) - 1) else (first, last)
  (first, if last = -1 ∨ last ≥ n then n - 1 else last)

/-- The range is within the content. -/
def isWithin (n : Nat) (r : Range) : Bool := 0 ≤ r.1 ∧ r.1 ≤ r.2 ∧ r.2 ≤ (n : Int) - 1

def overlaps (r processed : Range) : Bool := ¬ (r.2 < processed.1 ∨ r.1 > processed.2)

/-- The loop of `range_error`: none if it returns true. -/
def checkRanges (n : Nat) (processed : List Range) (overwrapping : Nat) :
    List Range → Option (List Range)
  | [] => some processed
  | r :: rs =>
      let r := normalise n r
      if ¬ isWithin n r then none
      else if processed.any (overlaps r) then
        if overwrapping + 1 > 2 then none
        else checkRanges n (processed ++ [r]) (overwrapping + 1) rs
      else checkRanges n (processed ++ [r]) overwrapping rs

/-- The body of the loop of `coalesce_ranges`. -/
def coalesceOne (n : Nat) (coalesced : List Range) (r : Range) : List Range :=
  let r := normalise n r
  if ¬ isWithin n r then coalesced
  else
    match coalesced.getLast? with
    | none => coalesced ++ [r]
    | some prev =>
        -- Identical ranges stay.
        if r.1 ≤ prev.2 + 1 ∧ ¬ (r.1 = prev.1 ∧ r.2 = prev.2) then
          coalesced.dropLast ++ [(prev.1, max prev.2 r.2)]
        else coalesced ++ [r]

def coalesceRanges (sort : StdSort) (n : Nat) (ranges : List Range) : List Range :=
  if ranges.length ≤ 1 then ranges else (sort.run ranges).foldl (coalesceOne n) []

/-- `range_error`, for a response that has a content: none if it returns true, or else what the
ranges are after it. -/
def rangeError (sort : StdSort) (n : Nat) (ranges : List Range) : Option (List Range) :=
  if ranges.length > CPPHTTPLIB_RANGE_MAX_COUNT then none
  else (checkRanges n [] 0 ranges).map (coalesceRanges sort n)

/-! ### One range -/

variable {n : Nat} {r : Range} {rs served : List Range}

/-- The bytes that a range asks for. -/
def Asks (n : Nat) (r : Range) (b : Int) : Prop :=
  0 ≤ b ∧ b < n ∧
    if r.1 = -1 then n - r.2 ≤ b else r.1 ≤ b ∧ (r.2 = -1 ∨ b ≤ r.2)

theorem isWithin_iff : isWithin n r = true ↔ Inside n r := by
  rw [isWithin, decide_eq_true_iff, Inside]
  omega

/-- **What a range is taken for.**  If it is within the content, it has the bytes it asks for. -/
theorem has_normalise (hvalid : Valid r) (h : Inside n (normalise n r)) (b : Int) :
    Has (normalise n r) b ↔ Asks n r b := by
  obtain ⟨first, last⟩ := r
  have hsome := hvalid.some
  have hordered := hvalid.ordered
  simp only [normalise, Inside, Has, Asks] at *
  rw [if_neg hsome] at h ⊢
  by_cases hfirst : first = -1
  · simp only [hfirst, if_true] at h ⊢
    by_cases hlast : (n : Int) - 1 = -1 ∨ (n : Int) - 1 ≥ n
    · simp only [hlast, if_true] at h ⊢
      omega
    · simp only [hlast, if_false] at h ⊢
      omega
  · simp only [hfirst, if_false] at h ⊢
    by_cases hlast : last = -1 ∨ last ≥ n
    · simp only [hlast, if_true] at h ⊢
      omega
    · simp only [hlast, if_false] at h ⊢
      omega

/-- A range that is within the content is left as it is. -/
theorem normalise_inside (h : Inside n r) : normalise n r = r := by
  obtain ⟨first, last⟩ := r
  simp only [Inside] at h
  have hfirst : ¬ first = -1 := by omega
  have hlast : ¬ (last = -1 ∨ last ≥ n) := by omega
  simp only [normalise, hfirst, hlast, false_and, if_false]

theorem overlaps_iff {s : Range} (hr : Inside n r) (hs : Inside n s) :
    overlaps r s = true ↔ Meets s r := by
  obtain ⟨-, hr, -⟩ := hr
  obtain ⟨-, hs, -⟩ := hs
  rw [overlaps, decide_eq_true_iff, meets_iff hs hr]
  omega

/-! ### The check -/

/-- **What is let through** are the ranges within the content, in place of the ranges that were
asked for; and not more than two of them meet an earlier one. -/
theorem checkRanges_ok (rs : List Range) : ∀ {processed : List Range} {overwrapping : Nat},
    overwrapping ≤ 2 → (∀ s ∈ processed, Inside n s) →
    checkRanges n processed overwrapping rs = some served →
      served = processed ++ rs.map (normalise n) ∧ (∀ s ∈ served, Inside n s) ∧
        overwrapping + hits processed (rs.map (normalise n)) ≤ 2 := by
  induction rs with
  | nil =>
      intro processed overwrapping hle hinside h
      cases h
      exact ⟨(List.append_nil _).symm, hinside, hle⟩
  | cons r rs ih =>
      intro processed overwrapping hle hinside h
      rw [checkRanges] at h
      split at h
      · cases h
      rename_i hwithin
      have hr := isWithin_iff.mp (not_not.mp hwithin)
      have hnext : ∀ s ∈ processed ++ [normalise n r], Inside n s := by
        intro s hs
        rcases List.mem_append.mp hs with hs | hs
        · exact hinside s hs
        · rwa [List.mem_singleton.mp hs]
      -- The loop counts as the intervals do.
      have hmeets : processed.any (overlaps (normalise n r)) = true ↔
          ∃ s ∈ processed, Meets s (normalise n r) := by
        rw [List.any_eq_true]
        exact exists_congr fun s => and_congr_right fun hs => overlaps_iff hr (hinside s hs)
      rw [List.map_cons, hits]
      split at h
      · rename_i hany
        split at h
        · cases h
        · obtain ⟨hserved, hall, hhits⟩ := ih (by omega) hnext h
          refine ⟨by rw [hserved, List.append_assoc]; rfl, hall, ?_⟩
          rw [if_pos (hmeets.mp hany)]
          omega
      · rename_i hany
        obtain ⟨hserved, hall, hhits⟩ := ih hle hnext h
        refine ⟨by rw [hserved, List.append_assoc]; rfl, hall, ?_⟩
        rw [if_neg fun hex => hany (hmeets.mpr hex)]
        omega

/-! ### Joining -/

/-- What `coalesce_ranges` has made of the ranges `done`, all of which start before `first`. -/
structure Coalesced (n : Nat) (done coalesced : List Range) : Prop where
  inside : ∀ r ∈ coalesced, Inside n r
  before : ∀ prev ∈ coalesced.getLast?, ∃ r ∈ done, prev.1 = r.1
  has : ∀ b, (∃ r ∈ coalesced, Has r b) ↔ ∃ r ∈ done, Has r b
  count_le : ∀ b, count coalesced b ≤ count done b

/-- **One more range**, which starts with the last one or behind it. -/
theorem Coalesced.step {done coalesced : List Range} (h : Coalesced n done coalesced)
    (hr : Inside n r) (hsorted : ∀ s ∈ done, s.1 ≤ r.1) :
    Coalesced n (done ++ [r]) (coalesceOne n coalesced r) := by
  have hadd : Coalesced n (done ++ [r]) (coalesced ++ [r]) := by
    refine ⟨?_, ?_, fun b => ?_, fun b => ?_⟩
    · intro s hs
      rcases List.mem_append.mp hs with hs | hs
      · exact h.inside s hs
      · rwa [List.mem_singleton.mp hs]
    · intro prev hprev
      rw [List.getLast?_concat, Option.mem_some_iff] at hprev
      exact ⟨r, by simp, by rw [hprev]⟩
    · have hhas := h.has b
      simp only [List.mem_append, List.mem_singleton, or_and_right, exists_or, exists_eq_left]
      rw [hhas]
    · have hcount := h.count_le b
      rw [count_append, count_append]
      omega
  rw [coalesceOne, normalise_inside hr, if_neg (not_not.mpr (isWithin_iff.mpr hr))]
  cases hlast : coalesced.getLast? with
  | none => exact hadd
  | some prev =>
      dsimp only
      split
      · rename_i hjoin
        obtain ⟨front, rfl⟩ := List.getLast?_eq_some_iff.mp hlast
        rw [List.dropLast_concat]
        obtain ⟨s, hs, hstart⟩ := h.before prev (by rw [hlast]; rfl)
        have hprev := h.inside prev (by simp)
        have horder : prev.1 ≤ r.1 := hstart ▸ hsorted s hs
        have hbytes := has_join (r := prev) (s := r) horder hjoin.1
        refine ⟨?_, ?_, fun b => ?_, fun b => ?_⟩
        · intro t ht
          rcases List.mem_append.mp ht with ht | ht
          · exact h.inside t (List.mem_append_left _ ht)
          · rw [List.mem_singleton.mp ht]
            unfold Inside at hprev hr ⊢
            dsimp only
            omega
        · intro t ht
          rw [List.getLast?_concat, Option.mem_some_iff] at ht
          exact ⟨s, List.mem_append_left _ hs, by rw [← ht]; exact hstart⟩
        · have hhas := h.has b
          simp only [List.mem_append, List.mem_singleton, or_and_right, exists_or,
            exists_eq_left] at hhas ⊢
          rw [hbytes, ← or_assoc, hhas]
        · have hcount := h.count_le b
          have hone : (if Has (prev.1, max prev.2 r.2) b then 1 else 0) ≤
              (if Has prev b then 1 else 0) + if Has r b then 1 else 0 := by
            have := hbytes b
            split <;> split <;> split <;> simp_all
          simp only [count_append, count_cons] at hcount ⊢
          omega
      · exact hadd

theorem Coalesced.run (rs : List Range) : ∀ {done coalesced : List Range},
    Coalesced n done coalesced → (∀ r ∈ rs, Inside n r) →
    (done ++ rs).Pairwise (fun a b => a.1 ≤ b.1) →
    Coalesced n (done ++ rs) (rs.foldl (coalesceOne n) coalesced) := by
  induction rs with
  | nil =>
      intro done coalesced h _ _
      rw [List.append_nil]
      exact h
  | cons r rs ih =>
      intro done coalesced h hinside hsorted
      have hbefore : ∀ s ∈ done, s.1 ≤ r.1 := fun s hs =>
        (List.pairwise_append.mp hsorted).2.2 s hs r List.mem_cons_self
      have hstep := h.step (hinside r List.mem_cons_self) hbefore
      rw [List.append_cons] at hsorted ⊢
      exact ih hstep (fun r hr => hinside r (List.mem_cons_of_mem _ hr)) hsorted

/-- **The ranges are joined** without a position that is new, or had more often. -/
theorem coalesceRanges_ok (sort : StdSort) (h : ∀ r ∈ rs, Inside n r) :
    (∀ r ∈ coalesceRanges sort n rs, Inside n r) ∧
      (∀ b, (∃ r ∈ coalesceRanges sort n rs, Has r b) ↔ ∃ r ∈ rs, Has r b) ∧
      ∀ b, count (coalesceRanges sort n rs) b ≤ count rs b := by
  rw [coalesceRanges]
  split
  · exact ⟨h, fun b => Iff.rfl, fun b => Nat.le_refl _⟩
  · have hperm := sort.perm rs
    have hnone : Coalesced n [] [] :=
      ⟨by simp, fun prev hprev => by simp at hprev, fun b => Iff.rfl, fun b => Nat.le_refl _⟩
    have hrun := hnone.run (sort.run rs) (fun r hr => h r (hperm.mem_iff.mp hr)) (sort.sorted rs)
    rw [List.nil_append] at hrun
    refine ⟨hrun.inside, fun b => (hrun.has b).trans ?_, fun b => (hrun.count_le b).trans ?_⟩
    · exact exists_congr fun r => and_congr_left fun _ => hperm.mem_iff
    · exact Nat.le_of_eq (hperm.countP_eq _)

/-! ### What is served -/

/-- The ranges of a header are valid. -/
theorem parseRangeHeader_valid {header : List UInt8} {ranges : List Range}
    (h : parseRangeHeader header = some ranges) : ranges ≠ [] ∧ ∀ r ∈ ranges, Valid r := by
  obtain ⟨hne, pieces, os, hos, -, rfl⟩ := (parseRangeHeader_iff header ranges).mp h
  refine ⟨hne, fun r hr => ?_⟩
  obtain ⟨o, ho, rfl⟩ := List.mem_filterMap.mp hr
  obtain ⟨piece, helement⟩ := exists_element hos ho
  cases helement with
  | spec _ h _ =>
      obtain ⟨-, -, hvalid⟩ := h
      exact hvalid

/-- **What is served.**  If the ranges of a header are let through, then each range that is served
is within the content, a byte is served if one of them asks for it, and however many there are,
they are at most three times as long as the content. -/
theorem ranges_served (sort : StdSort) {n : Nat} {header : List UInt8} {ranges served : List Range}
    (hparse : parseRangeHeader header = some ranges)
    (hcheck : rangeError sort n ranges = some served) :
    served ≠ [] ∧ (∀ r ∈ served, Inside n r) ∧
      (∀ b, (∃ r ∈ served, Has r b) ↔ ∃ r ∈ ranges, Asks n r b) ∧ total served ≤ 3 * n := by
  obtain ⟨hne, hvalid⟩ := parseRangeHeader_valid hparse
  rw [rangeError] at hcheck
  split at hcheck
  · cases hcheck
  obtain ⟨checked, hchecked, rfl⟩ := Option.map_eq_some_iff.mp hcheck
  obtain ⟨hmap, hinside, hhits⟩ := checkRanges_ok ranges (Nat.zero_le 2) (by simp) hchecked
  rw [List.nil_append] at hmap
  obtain ⟨hserved, hhas, hcount⟩ := coalesceRanges_ok sort hinside
  have hasks : ∀ b, (∃ r ∈ coalesceRanges sort n checked, Has r b) ↔
      ∃ r ∈ ranges, Asks n r b := by
    intro b
    rw [hhas, hmap]
    simp only [List.mem_map, exists_exists_and_eq_and]
    refine exists_congr fun r => and_congr_right fun hr => has_normalise (hvalid r hr) ?_ b
    exact hinside _ (by rw [hmap]; exact List.mem_map_of_mem hr)
  refine ⟨?_, hserved, hasks, ?_⟩
  · -- The first range asks for some byte.
    intro hnil
    obtain ⟨r, rs, rfl⟩ := List.exists_cons_of_ne_nil hne
    have hr := hinside (normalise n r) (by rw [hmap]; exact List.mem_map_of_mem List.mem_cons_self)
    have hbyte : Has (normalise n r) (normalise n r).1 := ⟨Int.le_refl _, hr.2.1⟩
    have hasked := (has_normalise (hvalid r List.mem_cons_self) hr _).mp hbyte
    obtain ⟨s, hs, -⟩ := (hasks _).mpr ⟨r, List.mem_cons_self, hasked⟩
    rw [hnil] at hs
    cases hs
  · calc total (coalesceRanges sort n checked)
        ≤ total checked := total_mono hserved hinside hcount
      _ ≤ (hits [] checked + 1) * n := total_le_hits hinside
      _ ≤ 3 * n := Nat.mul_le_mul_right n (by rw [hmap]; omega)

/-- Sorting by insertion, as it is done for short lists. -/
def insertionSort : StdSort where
  run rs := rs.insertionSort fun a b => a.1 ≤ b.1
  perm rs := List.perm_insertionSort _ rs
  sorted rs := List.pairwise_insertionSort _ rs

/-- Two ranges that overlap are joined, and a suffix is counted from the end. -/
theorem ranges_served_joined :
    let served : List Range := [(5, 29), (90, 99)]
    rangeError insertionSort 100 [(10, 29), (5, 14), (-1, 10)] = some served ∧
      total served ≤ 300 := by
  intro served
  have hcheck : rangeError insertionSort 100 [(10, 29), (5, 14), (-1, 10)] = some served := by
    decide +kernel
  have hparse : parseRangeHeader (ascii "bytes=10-29, 05-14,-10") =
      some [(10, 29), (5, 14), (-1, 10)] := by decide +kernel
  exact ⟨hcheck, (ranges_served insertionSort hparse hcheck).2.2.2⟩

end Ilo2.Media.Httplib
