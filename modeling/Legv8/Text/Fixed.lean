import Legv8.Text.Numeral

/-!
# Fixed-point numerals

The exact value of a double, rounded to a number of decimal places. A tie goes to the even digit.
-/
namespace Legv8.Text

/-- The quotient rounded to the nearest integer, a tie to the even one. -/
def roundDiv (num den : Nat) : Nat :=
  let q := num / den
  let twice := 2 * (num % den)
  if twice < den then q
  else if den < twice then q + 1
  else q + q % 2

/-- A non-negative binary fraction: `mantissa * 2 ^ up / 2 ^ down`. -/
structure Binary where
  mantissa : Nat
  up : Nat
  down : Nat
  deriving DecidableEq

/-- The value of a finite non-negative double, from its bits. -/
def Binary.ofBits (bits : UInt64) : Binary :=
  let exponent := ((bits >>> 52) &&& 0x7FF).toNat
  let fraction := (bits &&& 0xFFFFFFFFFFFFF).toNat
  if exponent = 0 then ⟨fraction, 0, 1074⟩
  else ⟨fraction + 0x10000000000000, exponent - 1075, 1075 - exponent⟩

/-- The value in units of the last of `places` decimal places. -/
def Binary.scaled (b : Binary) (places : Nat) : Nat :=
  roundDiv ((b.mantissa <<< b.up) * Nat.pow 10 places) (1 <<< b.down)

/-- The value with `places` decimal places. -/
def Binary.fixed (b : Binary) (places : Nat) : String :=
  let units := b.scaled places
  let whole := Nat.pow 10 places
  decimal (units / whole) ++ "." ++
    String.ofList (List.leftpad places '0' (Nat.toDigits 10 (units % whole)))

/-- A finite non-negative double with `places` decimal places. -/
def fixed (places : Nat) (x : Float) : String := (Binary.ofBits x.toBits).fixed places

end Legv8.Text
