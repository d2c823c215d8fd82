import Legv8.Json.Codec
import Legv8.Json.Parser
import Legv8.Json.Printer

/-!
# The standard codec

The codec that programs run with. A text is read as a whole before its value is. A record is an object with
any of its fields, or an array of its first fields in order; what is not given keeps its default. An object
must not name a known field twice, and members that are not known are skipped. Everything is written on one
line, a record with all of its fields.
-/
namespace Legv8.Json

/-! ## Plain values -/

def toBool? : Json → Option Bool
  | .bool b => some b
  | _ => none

/-- A number of 64 bits, written with digits alone. -/
def toUInt64? : Json → Option UInt64
  | .number literal =>
    (Text.numberBelow? Text.decimalDigit? 10 UInt64.size 0 literal.toList).map Nat.toUInt64
  | _ => none

def Form.optional {α : Type} (form : Form α) : Form (Option α) where
  read
    | .null => some none
    | v => (form.read v).map some
  write
    | none => .null
    | some a => form.write a

/-! ## Records -/

namespace Record

variable {α : Type}

/-- Puts the members of an object in place. `seen` lists the known names so far. -/
def putMembers (record : Record α) :
    (seen : List String) → List (Option String × Json) → α → Option α
  | _, [], a => some a
  | _, (none, _) :: _, _ => none
  | seen, (some name, v) :: rest, a =>
    match record.fields.find? (·.name == name) with
    | none => putMembers record seen rest a
    | some field =>
      if seen.contains name then none
      else
        match field.put v a with
        | none => none
        | some a => putMembers record (name :: seen) rest a

/-- Puts the items of an array in place, which must not outnumber the fields. -/
def putItems : List (Field α) → List Json → α → Option α
  | _, [], a => some a
  | [], _ :: _, _ => none
  | field :: fields, v :: rest, a =>
    match field.put v a with
    | none => none
    | some a => putItems fields rest a

def form (record : Record α) : Form α where
  read
    | .object members => record.putMembers [] members record.default
    | .array items => putItems record.fields items record.default
    | _ => none
  write a := .ofMembers (record.fields.map fun field => (field.name, field.form.write (field.get a)))

end Record

def Codec.standard : Codec where
  fromText form text := (parse? text).bind form.read
  toText form a := (form.write a).compact
  bool := { read := toBool?, write := .bool }
  uint64 := { read := toUInt64?, write := fun n => .ofNat n.toNat }
  optional := Form.optional
  record := Record.form

end Legv8.Json
