import Legv8.Alu.Flags
import Legv8.Alu.Multiplier

/-!
# The arithmetic logic unit

The flags are state of the unit. Every addition overwrites them; whoever must not set flags clears them
afterwards.
-/
namespace Legv8

structure Alu where
  /-- The flags of the last addition, or clear. -/
  flags : Alu.Flags
  deriving DecidableEq

namespace Alu

def new : Alu := ⟨.clear⟩

@[inline] def clearFlags (_ : Alu) : Alu := new

/-- Adds modulo 2^64 and sets the flags. -/
@[inline] def add (_ : Alu) (a b : UInt64) : UInt64 × Alu :=
  let (sum, carry) := rippleAdd a b false
  (sum, ⟨.ofAdd a b sum carry⟩)

/-- Negates and clears the flags. -/
@[inline] def negate (alu : Alu) (a : UInt64) : UInt64 × Alu := (twosComplement a, alu.clearFlags)

/-- Subtracts by adding the negation; the flags are those of that addition. -/
@[inline] def sub (alu : Alu) (a b : UInt64) : UInt64 × Alu :=
  let (negated, alu) := alu.negate b
  alu.add a negated

/-- The 128-bit product; the flags are left alone. -/
@[inline] def multiply (_ : Alu) (a b : UInt64) : Wide := product a b

end Alu

end Legv8
