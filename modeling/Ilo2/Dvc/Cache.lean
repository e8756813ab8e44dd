import Ilo2.Dvc.Bits

/-!
# The colour cache

`dvc_cache.hpp`: the colour remap and the palette of at most 17 colours.  A slot
`k < cc_active` holds a colour, its recency rank `cc_usage[k]` and the flag
`cc_block[k]` that says whether the current tile used it.  `pixcode` and
`next_1_31` are the pixel state selected by the size of the palette.

The loops are written with the number of rounds to go as their first argument.
What the four operations do to the palette as a whole is the subject of
`Ilo2.Dvc.Palette`.
-/

namespace Ilo2.Dvc

open Checked

/-- `dvc_color_remap`: each 4-bit channel of `0xRGB` widened to 8 bits. -/
def dvcColorRemap (i : Nat) : Nat :=
  (i &&& 0xF00) * 4352 + (i &&& 0xF0) * 272 + (i &&& 0xF) * 17

structure DvcCache where
  ccActive : Nat := 0
  ccColor : Vector Int 17 := Vector.replicate 17 0
  ccUsage : Vector Nat 17 := Vector.replicate 17 0
  ccBlock : Vector Nat 17 := Vector.replicate 17 0
  pixcode : Nat := 38
  next131 : Nat := 35
deriving Repr, DecidableEq

/-- The PIXFAN state of a palette of `a` colours. -/
def pixfan (a : Nat) : Nat :=
  if a < 2 then 38 else if a = 2 then 4 else if a = 3 then 5 else if a < 6 then 6
  else if a < 10 then 7 else 32

namespace DvcCache

def cacheReset (c : DvcCache) : DvcCache := { c with ccActive := 0 }

def updatePixcode (c : DvcCache) : DvcCache :=
  { c with pixcode := pixfan c.ccActive, next131 := pixfan c.ccActive }

/-- The scan of `cache_lru` from slot `k` on: the slot of `color`, or failing that the
slot of highest rank, and whether `color` was found. -/
def lruScan (c : DvcCache) (color : Int) : (m k slot : Nat) → Except Fault (Nat × Nat)
  | 0, _, slot => .ok (slot, 0)
  | m + 1, k, slot => do
      if color = (← rd .palette c.ccColor k) then .ok (k, 1)
      else if (← rd .palette c.ccUsage k) = c.ccActive - 1 then lruScan c color m (k + 1) k
      else lruScan c color m (k + 1) slot

/-- Add one to every rank below `aged`, from slot `k` on. -/
def age (aged : Int) : (m k : Nat) → Vector Nat 17 → Except Fault (Vector Nat 17)
  | 0, _, u => .ok u
  | m + 1, k, u => do
      let x ← rd .palette u k
      if (x : Int) < aged then age aged m (k + 1) (← wr .palette u k (x + 1))
      else age aged m (k + 1) u

/-- `cache_lru`: 1 when the colour was present, 0 when it was inserted. -/
def cacheLru (c : DvcCache) (color : Int) : Except Fault (Nat × DvcCache) := do
  let (slot, found) ← lruScan c color c.ccActive 0 0
  let agedBelow ← rd .palette c.ccUsage slot
  let (slot, agedBelow, c) ←
    if found = 0 then do
      let (slot, agedBelow, c) :=
        if c.ccActive < 17 then
          (c.ccActive, c.ccActive, { c with ccActive := c.ccActive + 1 }.updatePixcode)
        else (slot, agedBelow, c)
      .ok (slot, agedBelow, { c with ccColor := ← wr .palette c.ccColor slot color })
    else .ok (slot, agedBelow, c)
  let block ← wr .palette c.ccBlock slot 1
  let usage ← age agedBelow c.ccActive 0 c.ccUsage
  let usage ← wr .palette usage slot 0
  .ok (found, { c with ccBlock := block, ccUsage := usage })

/-- The first slot from `k` on that holds rank `rank`. -/
def findScan (c : DvcCache) (rank : Int) : (m k : Nat) → Except Fault (Option Nat)
  | 0, _ => .ok none
  | m + 1, k => do
      if rank = (← rd .palette c.ccUsage k) then .ok (some k) else findScan c rank m (k + 1)

/-- `cache_find`: the colour of rank `rank`, or -1. -/
def cacheFind (c : DvcCache) (rank : Int) : Except Fault (Int × DvcCache) := do
  match ← findScan c rank c.ccActive 0 with
  | none => .ok (-1, c)
  | some k =>
      let color ← rd .palette c.ccColor k
      let usage ← age rank c.ccActive 0 c.ccUsage
      let usage ← wr .palette usage k 0
      let block ← wr .palette c.ccBlock k 1
      .ok (color, { c with ccUsage := usage, ccBlock := block })

/-- The loop of `cache_prune` at `k`, with `n = k + m`; it ends with `cc_active = n`. -/
def pruneLoop : (m k : Nat) → DvcCache → Except Fault DvcCache
  | 0, k, c => .ok { c with ccActive := k }
  | m + 1, k, c => do
      let b ← rd .palette c.ccBlock k
      if b = 0 then
        let block ← wr .palette c.ccBlock k (← rd .palette c.ccBlock (k + m))
        let color ← wr .palette c.ccColor k (← rd .palette c.ccColor (k + m))
        let usage ← wr .palette c.ccUsage k (← rd .palette c.ccUsage (k + m))
        -- the moved entry is looked at again
        pruneLoop m k { c with ccBlock := block, ccColor := color, ccUsage := usage }
      else
        pruneLoop m (k + 1) { c with ccBlock := ← wr .palette c.ccBlock k (b - 1) }

def cachePrune (c : DvcCache) : Except Fault DvcCache := do
  .ok (← pruneLoop c.ccActive 0 c).updatePixcode

end DvcCache

end Ilo2.Dvc
