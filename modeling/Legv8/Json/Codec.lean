import Legv8.Json

/-!
# Codecs

What reads and writes JSON is left open here. A codec has a form for truth values, for numbers of 64 bits
and for optional values, and it makes the form of a record from a description of its fields.
-/
namespace Legv8.Json

/-- How the values of a type stand in JSON. -/
structure Form (α : Type) where
  /-- The value that is meant, if the JSON value is of the right kind. -/
  read : Json → Option α
  write : α → Json

/-- A field of a record: its name, the form of what it holds, and its place. -/
structure Field (α : Type) where
  name : String
  {Contents : Type}
  form : Form Contents
  get : α → Contents
  set : Contents → α → α

namespace Field

variable {α : Type}

/-- Puts what a value means in place. -/
def put (field : Field α) (v : Json) (a : α) : Option α := (field.form.read v).map (field.set · a)

/-- Fields in different places. -/
def Apart (field other : Field α) : Prop :=
  ∀ x y a, field.set x (other.set y a) = other.set y (field.set x a)

end Field

/-- The fields of a record, which differ in their names and places, and what stands in them when nothing is
given. -/
structure Record (α : Type) where
  fields : List (Field α)
  default : α
  nodup : (fields.map Field.name).Nodup
  apart : fields.Pairwise Field.Apart

/-- The names of the fields. -/
def Record.names {α : Type} (record : Record α) : List String := record.fields.map Field.name

structure Codec where
  /-- Reads a text that is to hold one value of a form. -/
  fromText : {α : Type} → Form α → String → Option α
  toText : {α : Type} → Form α → α → String
  bool : Form Bool
  uint64 : Form UInt64
  /-- A value, or null for none. -/
  optional : {α : Type} → Form α → Form (Option α)
  record : {α : Type} → Record α → Form α

end Legv8.Json
