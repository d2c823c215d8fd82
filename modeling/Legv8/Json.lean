import Legv8.Text.Numeral

/-!
# JSON values

Members of an object keep their order, and a number keeps its digits, so that reading loses nothing that
an answer could depend on. A string whose escapes leave a surrogate unpaired is a string without text.
-/
namespace Legv8

inductive Json where
  | null
  | bool (value : Bool)
  /-- A number as it is written. -/
  | number (literal : String)
  /-- A string, if it has a text. -/
  | string (text : Option String)
  | array (items : List Json)
  /-- The members in their order; names may repeat. -/
  | object (members : List (Option String × Json))

namespace Json

def ofNat (n : Nat) : Json := .number (Text.decimal n)

def ofString (s : String) : Json := .string (some s)

def ofMembers (members : List (String × Json)) : Json :=
  .object (members.map fun (name, value) => (some name, value))

/-- A number of 64 bits, or null. -/
def ofOptionNat : Option Nat → Json
  | some n => ofNat n
  | none => .null

/-- What a text is made of, blanks apart. -/
inductive Token where
  | openObject
  | closeObject
  | openArray
  | closeArray
  | comma
  | colon
  | null
  | bool (value : Bool)
  | number (literal : String)
  | string (text : Option String)
  deriving DecidableEq

end Json

end Legv8
