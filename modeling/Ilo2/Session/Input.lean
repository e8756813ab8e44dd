import Mathlib.Tactic.Common
import Mathlib.Algebra.Group.Nat.Defs

/-!
# Mouse and keyboard

`ilo2_input.hpp`: the bytes of a mouse movement, a button and a key, before encryption.
Coordinates are integers, divided as C divides; a product that does not fit an `int` wraps.
-/

namespace Ilo2.Session

structure Input where
  screenW : Int := 0
  screenH : Int := 0
  absolute : Bool := true
deriving DecidableEq

namespace Input

/-- `static_cast<char>(n & 0xFF)`. -/
def low (n : Int) : UInt8 := (n % 256).toNat.toUInt8

def selectMouse (abs : Bool) : List UInt8 := [0xFF, 0xD5, if abs then 0x01 else 0x02]

/-- `3000 * n`, as the machine multiplies. -/
def times3000 (n : Int) : Int := (3000 * n).bmod (2 ^ 32)

def move (s : Input) (x y : Int) : List UInt8 :=
  let scaled := s.screenW > 0 ∧ s.screenH > 0
  let sx := if scaled then (times3000 x).tdiv s.screenW else times3000 x
  let sy := if scaled then (times3000 y).tdiv s.screenH else times3000 y
  [0xFF, 0xD0, 0, 0] ++
    if s.absolute then
      [low (sx.tdiv 256), low (sx.tmod 256), low (sy.tdiv 256), low (sy.tmod 256)]
    else []

def press (button : Int) : List UInt8 := [0xFF, 0xD1, low button]

def release (button : Int) : List UInt8 := [0xFF, 0xD2, low button]

/-- A line feed is sent as a carriage return, every other character as it is. -/
def typeChar (c : UInt8) : List UInt8 := if c = 0x0A then [0x0D] else [c]

def ctrlAltDel : List UInt8 := [0x1B, 0x5B, 0x32, 0x1B, 0x5B, 0x7F]

end Input

end Ilo2.Session
