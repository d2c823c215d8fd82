/-!
# Numerals

Decimal and hexadecimal texts of natural numbers. Hexadecimal digits are written in lower case and read
in either, and a padded numeral is filled with zeros on the left and never cut. Reading is bounded: it
gives up at the digit that takes the number out of range.
-/
namespace Legv8.Text

/-- The decimal digits of `n`, without leading zeros. -/
def decimal (n : Nat) : String := String.ofList (Nat.toDigits 10 n)

/-- The decimal text of an integer; only negative numbers carry a sign. -/
def signedDecimal : Int → String
  | .ofNat n => decimal n
  | .negSucc n => "-" ++ decimal (n + 1)

/-- The hexadecimal digits of `n`, at least `width` of them. -/
def hexDigits (width n : Nat) : String :=
  String.ofList (List.leftpad width '0' (Nat.toDigits 16 n))

/-- `0x` and at least `width` hexadecimal digits. -/
def hexPadded (width n : Nat) : String := "0x" ++ hexDigits width n

/-- `0x` and the fewest hexadecimal digits. -/
def hex (n : Nat) : String := hexPadded 1 n

/-- Fills `text` with blanks on the right up to `width` characters. -/
def padRight (width : Nat) (text : String) : String :=
  text ++ String.ofList (List.replicate (width - text.length) ' ')

def decimalDigit? (c : Char) : Option Nat :=
  if '0' ≤ c ∧ c ≤ '9' then some (c.toNat - 48) else none

def hexDigit? (c : Char) : Option Nat :=
  if '0' ≤ c ∧ c ≤ '9' then some (c.toNat - 48)
  else if 'a' ≤ c ∧ c ≤ 'f' then some (c.toNat - 87)
  else if 'A' ≤ c ∧ c ≤ 'F' then some (c.toNat - 55)
  else none

/-- The number below `bound` that digits in a base spell after those that made `value`. -/
def numberBelow? (digit? : Char → Option Nat) (base bound : Nat) :
    (value : Nat) → List Char → Option Nat
  | value, [] => some value
  | value, c :: rest =>
    match digit? c with
    | some d =>
      if base * value + d < bound then numberBelow? digit? base bound (base * value + d) rest
      else none
    | none => none

end Legv8.Text
