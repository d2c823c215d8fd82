/-!
# Condition flags
-/
namespace Legv8.Alu

structure Flags where
  negative : Bool
  zero : Bool
  /-- Bit 63 carried out. -/
  carry : Bool
  /-- The operands share a sign that the result does not have. -/
  overflow : Bool
  deriving DecidableEq

namespace Flags

def clear : Flags := ⟨false, false, false, false⟩

/-- The flags of an addition, from its operands, sum and carry out. -/
def ofAdd (a b sum : UInt64) (carry : Bool) : Flags where
  negative := sum >>> 63 == 1
  zero := sum == 0
  carry := carry
  overflow := a >>> 63 == b >>> 63 && sum >>> 63 != a >>> 63

end Flags

end Legv8.Alu
