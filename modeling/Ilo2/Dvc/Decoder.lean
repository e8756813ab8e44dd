import Ilo2.Dvc.Cache

/-!
# The DVC decoder

`dvc_decoder.hpp`: the 48-state machine that turns decrypted bytes into tile pastes.
One round of the `while` loop of `process_bits` is `iterate`; its `switch` is
`dispatch`, with one definition for each case body; `processBits` runs the rounds of
one byte and `processDvc` is what the transport calls.

The virtual hooks (`on_paste` and the others) are read by whoever subclasses the
decoder and never write to it, so the model returns them in order as a list of
`Event`s.

A store past the end of `cmd_p_buff` stops the model like every other access out of range:
it overwrites the members behind the buffer.  `Ilo2.Dvc.CommandBuffer` is about that index.
-/

namespace Ilo2.Dvc

open Checked

/-- A call of a virtual hook. -/
inductive Event where
  | paste (block : Vector Nat 256) (x y len : Nat)
  | setDimensions (w h : Nat)
  | showText (s : String)
  | setStatus (field : Nat) (s : String)
  | print (s : String)
  | repaint
  | refreshScreen
  | changeKey
  | serverScreen (w h : Nat)
  | firmware (cmd : Nat)
  | seize
deriving Repr, DecidableEq

/-! ### The transition tables -/

def bitsToRead : Vector Nat 48 := #v[
  0,1,1,1,1,1,2,3,4,4,1,1,3,3,8,1,1,7,1,1,3,7,1,1,8,1,7,0,1,3,7,1,4,0,0,0,1,0,1,7,7,4,4,1,8,8,1,4]

def next0 : Vector Nat 48 := #v[
  1,2,31,2,2,10,10,10,10,41,2,33,2,2,2,16,19,39,22,20,1,1,34,25,46,26,40,1,29,1,1,36,10,2,1,35,8,37,
  38,1,47,42,10,43,45,45,1,1]

def next1Init : Vector Nat 48 := #v[
  1,15,3,11,11,10,10,10,10,41,11,12,2,2,2,17,18,39,23,21,1,1,28,24,46,27,40,1,30,1,1,35,10,2,1,35,9,
  37,38,1,47,42,10,0,45,45,24,1]

structure DvcDecoder where
  bits : DvcBits := {}
  cache : DvcCache := {}
  block : Vector Nat 256 := Vector.replicate 256 0
  pixelCount : Nat := 0
  lastColor : Nat := 0
  color : Nat := 0
  lastx : Nat := 0
  lasty : Nat := 0
  newx : Nat := 0
  newy : Nat := 0
  sizeX : Nat := 0
  sizeY : Nat := 0
  yClipped : Int := 0
  red : Nat := 0
  green : Nat := 0
  blue : Nat := 0
  scaleX : Nat := 1
  scaleY : Nat := 1
  screenX : Nat := 1
  screenY : Nat := 1
  videoDetected : Bool := true
  cmdPBuff : Vector Nat 256 := Vector.replicate 256 0
  cmdPCount : Nat := 0
  cmdLast : Nat := 0
  printchan : Nat := 0
  printstring : String := ""
  framerate : Nat := 30
  fatalCount : Nat := 0
  countBytes : Int := 0
  timeoutCount : Int := 0
  inhibit : Bool := false
  seized : Bool := false
  next1 : Vector Nat 48 := next1Init
deriving DecidableEq

namespace DvcDecoder

def setNext (d : DvcDecoder) (s : Nat) : DvcDecoder := { d with bits.nextState := s }

def setCode (d : DvcDecoder) (v : Nat) : DvcDecoder := { d with bits.code := v }

/-- `next_1` has an entry for state 31. -/
theorem patched : 31 < 48 := by decide

def syncNext1 (d : DvcDecoder) : DvcDecoder :=
  { d with next1 := d.next1.set 31 d.cache.next131 patched }

/-- The palette after a cache operation, `sync_next1()` included. -/
def setCache (d : DvcDecoder) (cache : DvcCache) : DvcDecoder := { d with cache := cache }.syncNext1

/-- `color_remap_table[i]`. -/
def colorRemapTable (i : Int) : Except Fault Nat :=
  if 0 ≤ i ∧ i < 4096 then .ok (dvcColorRemap i.toNat) else .error (.remap i)

/-- Store `last_color` at `block[pixel_count++]`; a full block latches state 38. -/
def putPixel (d : DvcDecoder) : Except Fault DvcDecoder :=
  if d.pixelCount ≥ 256 then .ok (d.setNext 38)
  else do
    .ok { d with block := ← wr .block d.block d.pixelCount d.lastColor
                 pixelCount := d.pixelCount + 1 }

/-- Store palette colour `i`. -/
def putColor (d : DvcDecoder) (i : Int) : Except Fault DvcDecoder := do
  putPixel { d with lastColor := ← colorRemapTable i }

/-- `emit_run`: `count` copies of `last_color`. -/
def emitRun : Nat → DvcDecoder → Except Fault DvcDecoder
  | 0, d => .ok d
  | n + 1, d => do
      if d.pixelCount ≥ 256 then .ok (d.setNext 38)
      else
        emitRun n { d with block := ← wr .block d.block d.pixelCount d.lastColor
                           pixelCount := d.pixelCount + 1 }

/-- The loop of `next_block`: the hooks it calls and the last value of `lastx`. -/
def pasteLoop (paint : Bool) (block : Vector Nat 256) (sizeX y : Nat) :
    (count x lastx : Nat) → Nat × List Event
  | 0, _, lastx => (lastx, [])
  | count + 1, x, lastx =>
      let ev := if paint then [Event.paste block x y 16] else []
      if lastx + 1 ≥ sizeX then (lastx + 1, ev)
      else
        let (l, ev') := pasteLoop paint block sizeX y count (x + 16) (lastx + 1)
        (l, ev ++ ev')

/-- `block` with `[y_clipped, 256)` filled with `color_remap_table[0]`. -/
def fillClipped (block : Vector Nat 256) (yClipped : Int) : Vector Nat 256 :=
  Vector.ofFn fun i : Fin 256 => if yClipped ≤ i then dvcColorRemap 0 else block.get i

/-- `next_block`. -/
def nextBlock (d : DvcDecoder) (count : Nat) : DvcDecoder × List Event :=
  let block :=
    if d.pixelCount ≠ 0 ∧ d.yClipped > 0 ∧ d.lasty = d.sizeY then fillClipped d.block d.yClipped
    else d.block
  let (lastx, ev) :=
    pasteLoop d.videoDetected block d.sizeX (d.lasty * 16) count (d.lastx * 16) d.lastx
  ({ d with block := block, pixelCount := 0, bits.nextState := 1, lastx := lastx }, ev)

/-! ### The cases of the switch -/

/-- The rank that cases 3 to 7 and 32 look up. -/
def paletteCode (d : DvcDecoder) (state : Nat) : Except Fault Nat :=
  if d.cache.ccActive = 1 then rd .palette d.cache.ccUsage 0
  else if state = 4 then .ok 0
  else if state = 3 then .ok 1
  else if d.bits.code ≠ 0 then .ok (d.bits.code + 1)
  else .ok d.bits.code

/-- Cases 3 to 7 and 32: a palette colour. -/
def casePalette (d : DvcDecoder) (state : Nat) : Except Fault DvcDecoder := do
  let code ← d.paletteCode state
  let (col, cache) ← d.cache.cacheFind code
  let d := (d.setCode code).setCache cache
  if col = -1 then .ok (d.setNext 38) else d.putColor col

/-- Case 12: a short run. -/
def caseRun (d : DvcDecoder) : Except Fault DvcDecoder :=
  if d.bits.code = 7 then .ok (d.setNext 14)
  else if d.bits.code = 6 then .ok (d.setNext 13)
  else emitRun (d.bits.code + 2) (d.setCode (d.bits.code + 2))

/-- Case 42, which case 8 falls into: a new colour. -/
def caseColor (d : DvcDecoder) : Except Fault DvcDecoder := do
  let d := { d with blue := d.bits.code, color := d.red ||| d.green ||| d.bits.code }
  let (hit, cache) ← d.cache.cacheLru d.color
  let d := d.setCache cache
  if hit ≠ 0 then .ok (d.setNext 38) else d.putColor d.color

/-- Cases 17 and 26. -/
def caseNewx (d : DvcDecoder) (state : Nat) : DvcDecoder :=
  { d with newx := if state = 17 ∧ d.bits.code > d.sizeX then 0 else d.bits.code }

/-- Case 39. -/
def caseNewy (d : DvcDecoder) : DvcDecoder :=
  let newy := d.bits.code &&& 0x7F
  { d with newy := newy, lastx := d.newx, lasty := if newy > d.sizeY then 0 else newy }

/-- Case 21, which case 20 falls into. -/
def caseLastx (d : DvcDecoder) : DvcDecoder :=
  let lastx := d.bits.code &&& 0x7F
  { d with lastx := if lastx > d.sizeX then 0 else lastx }

/-- Drop the bits up to the next byte boundary. -/
def alignBits (d : DvcDecoder) : Except Fault DvcDecoder := do
  if d.bits.ibBcnt &&& 7 ≠ 0 then .ok { d with bits := ← d.bits.getBits (d.bits.ibBcnt &&& 7) }
  else .ok d

/-- Case 27: a timeout marker. -/
def caseTimeout (d : DvcDecoder) : Except Fault DvcDecoder := do
  let d := if d.timeoutCount = d.countBytes - 1 then d.setNext 38 else d
  let d ← d.alignBits
  .ok { d with timeoutCount := d.countBytes }

/-- Case 24: a command parameter. -/
def caseParam (d : DvcDecoder) : Except Fault DvcDecoder := do
  let cmdPBuff ←
    if d.cmdPCount ≠ 0 then wr .command d.cmdPBuff (d.cmdPCount - 1) d.cmdLast
    else .ok d.cmdPBuff
  .ok { d with cmdPBuff := cmdPBuff, cmdPCount := d.cmdPCount + 1, cmdLast := d.bits.code }

/-- The inner switch of case 46: execute command `cmd_last`. -/
def execCommand (d : DvcDecoder) : Except Fault (DvcDecoder × List Event) := do
  match d.cmdLast with
  | 1 => .ok (d.setNext 37, [])
  | 2 => .ok (d.setNext 44, [])
  | 3 => .ok ({ d with framerate := if d.cmdPCount ≠ 0 then d.cmdPBuff[0] else 0 }, [])
  | 6 => .ok ({ d with screenX := 640, screenY := 100 },
      [.showText "Video suspended", .setStatus 2 "Video_suspended"])
  | 7 => .ok (d, [.firmware 7])
  | 8 => .ok (d, [.firmware 8])
  | 9 => .ok (← d.alignBits, [.changeKey])
  | 10 => .ok ({ d with seized := true }, [.seize, .showText "Session Acquired by another user."])
  | _ => .ok (d, [])

/-- Case 46: another parameter follows, or the command ends. -/
def caseCommand (d : DvcDecoder) : Except Fault (DvcDecoder × List Event) := do
  if d.bits.code ≠ 0 then .ok (d, [])
  else
    let (d, ev) ← d.execCommand
    .ok ({ d with cmdPCount := 0 }, ev)

/-- Case 45: a character of the print string, or its end. -/
def casePrint (d : DvcDecoder) : DvcDecoder × List Event :=
  if d.bits.code ≠ 0 then
    ({ d with printstring := d.printstring.push (Char.ofNat d.bits.code) }, [])
  else
    (d.setNext 1,
      match d.printchan with
      | 1 | 2 => [.setStatus (2 + d.printchan) d.printstring]
      | 3 => [.print d.printstring]
      | 4 => [.showText d.printstring]
      | _ => [])

/-- Case 0: the end of a reset. -/
def caseReset (d : DvcDecoder) : DvcDecoder :=
  { d with
    cache := d.cache.cacheReset
    pixelCount := 0, lastx := 0, lasty := 0
    red := 0, green := 0, blue := 0
    fatalCount := 0, timeoutCount := -1, cmdPCount := 0 }

/-- Case 38: out of sync, waiting for a reset marker. -/
def caseFatal (d : DvcDecoder) : DvcDecoder × List Event :=
  let ev := if d.fatalCount = 11680 then [Event.refreshScreen] else []
  let fatalCount := d.fatalCount + 1
  let ev := ev ++ (if fatalCount = 120000 then [.refreshScreen] else [])
  if fatalCount ≠ 12000000 then ({ d with fatalCount := fatalCount }, ev)
  else ({ d with fatalCount := 41 }, ev ++ [.refreshScreen])

/-- Out of sync, a round counts and asks for a refresh at most. -/
theorem caseFatal_counts (d : DvcDecoder) :
    ∃ n ev, d.caseFatal = ({ d with fatalCount := n }, ev) ∧ ∀ e ∈ ev, e = .refreshScreen := by
  unfold caseFatal
  dsimp only
  split
  all_goals
    refine ⟨_, _, rfl, ?_⟩
    intro e he
    split_ifs at he <;> simp_all

/-- Case 47: the second half of a mode command. -/
def caseMode (d : DvcDecoder) : DvcDecoder × List Event :=
  let screenX := d.sizeX * 16
  let screenY := d.sizeY * 16 + d.bits.code
  let d := { d with
    lastx := 0, lasty := 0, pixelCount := 0, cache := d.cache.cacheReset
    scaleX := 1, scaleY := 1, screenX := screenX, screenY := screenY
    videoDetected := screenX ≠ 0 ∧ screenY ≠ 0
    yClipped := if d.bits.code > 0 then 256 - 16 * (d.bits.code : Int) else 0 }
  if ¬ d.videoDetected then
    ({ d with screenX := 640, screenY := 100 }, [.showText "No Video", .setStatus 2 "No Video"])
  else
    (d, [.setDimensions screenX screenY, .serverScreen screenX screenY,
      .setStatus 2 (" Video:" ++ toString screenX ++ "x" ++ toString screenY)])

/-- Case 43: hunting for the end of a reset marker. -/
def caseHunt (d : DvcDecoder) (state : Nat) : DvcDecoder :=
  if d.bits.nextState = state then d
  else { d with bits.ibBcnt := 0, bits.ibAcc := 0, bits.zeroCount := 0, countBytes := 0 }

/-- Pair a case that calls no hook with the empty list of hooks. -/
def quiet (x : Except Fault DvcDecoder) : Except Fault (DvcDecoder × List Event) := do
  .ok (← x, [])

/-- The `switch` of `process_bits`, case 37 aside. -/
def dispatch (d : DvcDecoder) (state : Nat) : Except Fault (DvcDecoder × List Event) :=
  match state with
  | 3 | 4 | 5 | 6 | 7 | 32 => quiet (d.casePalette state)
  | 12 => quiet d.caseRun
  | 13 => quiet (emitRun (d.bits.code + 8) (d.setCode (d.bits.code + 8)))
  | 14 => quiet (emitRun d.bits.code d)
  | 33 => quiet d.putPixel
  | 35 => .ok (d.setNext d.cache.pixcode, [])
  | 9 => .ok ({ d with red := d.bits.code <<< 8 }, [])
  | 41 => .ok ({ d with green := d.bits.code <<< 4 }, [])
  | 8 => quiet { d with red := d.bits.code <<< 8, green := d.bits.code <<< 4 }.caseColor
  | 42 => quiet d.caseColor
  | 17 | 26 => .ok (d.caseNewx state, [])
  | 39 => .ok (d.caseNewy, [.repaint])
  | 20 => .ok ((d.setCode (d.lastx + d.bits.code + 1)).caseLastx, [])
  | 21 => .ok (d.caseLastx, [])
  | 27 => do .ok (← d.caseTimeout, [.repaint])
  | 24 => quiet d.caseParam
  | 46 => d.caseCommand
  | 44 => .ok ({ d with printchan := d.bits.code, printstring := "" }, [])
  | 45 => .ok d.casePrint
  | 0 => .ok (d.caseReset, [])
  | 38 => .ok d.caseFatal
  | 34 => .ok (d.nextBlock 1)
  | 29 => .ok ((d.setCode (d.bits.code + 2)).nextBlock (d.bits.code + 2))
  | 30 => .ok (d.nextBlock d.bits.code)
  | 40 => .ok ({ d with sizeX := d.newx, sizeY := d.bits.code }, [])
  | 47 => .ok d.caseMode
  | 43 => .ok (d.caseHunt state, [])
  | _ => .ok (d, [])

/-- The completion branch: a full block that returns to the pixel state is painted. -/
def complete (d : DvcDecoder) : Except Fault (DvcDecoder × List Event) :=
  if d.bits.nextState = 2 ∧ d.pixelCount = 256 then do
    let (d, ev) := d.nextBlock 1
    .ok (d.setCache (← d.cache.cachePrune), ev)
  else .ok (d, [])

/-- How a round of the loop ends. -/
inductive Round where
  /-- Not enough bits: the loop ends with 0. -/
  | wait
  /-- The loop ends with `n`, which is not 0. -/
  | exit (n : Nat) (d : DvcDecoder) (ev : List Event)
  | next (d : DvcDecoder) (ev : List Event)
deriving DecidableEq

/-- The first half of a round: read `need` bits and look up the successor. -/
def fetch (d : DvcDecoder) (need : Nat) : Except Fault DvcDecoder := do
  let bits ← d.bits.getBits need
  let next ← rd .table (if bits.code = 0 then next0 else d.next1) bits.decoderState
  .ok { d with bits := { bits with nextState := next } }

/-- The end of a round: enter the successor, unless the state would stay the same. -/
def advance (d : DvcDecoder) (state : Nat) (ev : List Event) : Round :=
  if state = d.bits.nextState ∧ state ≠ 45 ∧ state ≠ 38 ∧ state ≠ 43 then .exit 6 d ev
  else .next { d with bits.decoderState := d.bits.nextState } ev

/-- The second half of a round: the `switch` and what follows it. -/
def act (d : DvcDecoder) (state : Nat) : Except Fault Round := do
  if state = 37 then return .exit 1 d []
  let (d, ev) ← d.dispatch state
  let (d, ev') ← d.complete
  return d.advance state (ev ++ ev')

/-- One round of the `while` loop of `process_bits`. -/
def iterate (d : DvcDecoder) : Except Fault Round := do
  let need ← rd .table bitsToRead d.bits.decoderState
  if need > d.bits.ibBcnt then return .wait
  let d ← d.fetch need
  d.act d.bits.decoderState

/-- The `while` loop, with at most `fuel` rounds. -/
def loop : (fuel : Nat) → DvcDecoder → Except Fault (Nat × DvcDecoder × List Event)
  | 0, _ => .error .loop
  | fuel + 1, d => do
      match ← d.iterate with
      | .wait => .ok (0, d, [])
      | .exit n d ev => .ok (n, d, ev)
      | .next d ev => do
          let (n, d, ev') ← loop fuel d
          .ok (n, d, ev ++ ev')

/-- A bound on the rounds of the loop: each takes a bit, or enters a state that does. -/
def rounds (d : DvcDecoder) : Nat := 2 * d.bits.ibBcnt + 2

/-- What `process_bits` does before its loop. -/
def enter (d : DvcDecoder) (c : UInt8) : Except Fault DvcDecoder := do
  let (_, bits) ← d.bits.addBits c
  .ok { d with bits := bits, countBytes := d.countBytes + 1 }

def processBits (d : DvcDecoder) (c : UInt8) : Except Fault (Nat × DvcDecoder × List Event) := do
  let d ← d.enter c
  loop d.rounds d

/-- What `process_dvc` does when the loop ends with anything but 0. -/
def resync (d : DvcDecoder) : DvcDecoder :=
  { d with bits.decoderState := 38, bits.nextState := 38, fatalCount := 0 }

/-- `process_dvc` for one byte. -/
def processDvc (d : DvcDecoder) (c : UInt8) : Except Fault (DvcDecoder × List Event) := do
  let (n, d, ev) ← if d.inhibit then .ok (0, d, []) else d.processBits c
  if n ≠ 0 then .ok (d.resync, ev ++ [.refreshScreen]) else .ok (d, ev)

/-- `process_dvc` for every byte of a stream. -/
def feed (d : DvcDecoder) : List UInt8 → Except Fault (DvcDecoder × List Event)
  | [] => .ok (d, [])
  | c :: cs => do
      let (d, ev) ← d.processDvc c
      let (d, ev') ← d.feed cs
      .ok (d, ev ++ ev')

end DvcDecoder

end Ilo2.Dvc
