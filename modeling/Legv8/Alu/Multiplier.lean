import Legv8.Alu.Adder

/-!
# The shift-and-add multiplier

Values of 128 bits are pairs of a high and a low word. The multiplicand is doubled in every step and
added to the product whenever the current bit of the multiplier is set.
-/
namespace Legv8.Alu

/-- A 128-bit value as two words. -/
structure Wide where
  /-- The most significant 64 bits. -/
  high : UInt64
  /-- The least significant 64 bits. -/
  low : UInt64
  deriving DecidableEq

namespace Wide

/-- Adds modulo 2^128; the carry out of the low words enters the high ones. -/
def add (x y : Wide) : Wide :=
  let (low, carry) := rippleAdd x.low y.low false
  { high := (rippleAdd x.high y.high carry).1, low }

/-- Shifts one bit to the left; the top bit is lost. -/
def double (x : Wide) : Wide :=
  { high := (x.high <<< 1) ||| (x.low >>> 63), low := x.low <<< 1 }

end Wide

/-- Multiplies by the `n` bits of `multiplier` from `position` upwards, given the multiplicand shifted to
that position and the product with the bits below. -/
def multiplyFrom (multiplier : UInt64) :
    (n : Nat) → (position : UInt64) → (multiplicand product : Wide) → Wide
  | 0, _, _, product => product
  | n + 1, position, multiplicand, product =>
    multiplyFrom multiplier n (position + 1) multiplicand.double
      (if bit multiplier position = 1 then product.add multiplicand else product)

/-- The 128-bit product of two words. -/
def product (a b : UInt64) : Wide := multiplyFrom b 64 0 ⟨0, a⟩ ⟨0, 0⟩

end Legv8.Alu
