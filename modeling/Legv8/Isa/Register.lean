import Legv8.Text.Numeral

/-!
# Register names

Registers are numbered 0 to 31: `X0` to `X30`, and the zero register `XZR`.
-/
namespace Legv8.Register

def count : Nat := 32

/-- The register that reads as zero and is never a legal destination. -/
def zero : Nat := 31

/-- The assembly name of a register; a number past the zero register has none. -/
def name (r : Nat) : String :=
  if r < zero then "X" ++ Text.decimal r else if r = zero then "XZR" else "X??"

end Legv8.Register
