import Legv8.Json

/-!
# Printing JSON

A value on one line without blanks, or over several lines.
-/
namespace Legv8.Json

def escapeChar (c : Char) : String :=
  if c = '"' then "\\\""
  else if c = '\\' then "\\\\"
  else if c = '\n' then "\\n"
  else if c = '\r' then "\\r"
  else if c = '\t' then "\\t"
  else if c.toNat = 8 then "\\b"
  else if c.toNat = 12 then "\\f"
  else if c.toNat < 32 then "\\u" ++ Text.hexDigits 4 c.toNat
  else c.toString

/-- A quoted text. A string without text is shown as a lone surrogate. -/
def quote : Option String → String
  | some text => "\"" ++ String.join (text.toList.map escapeChar) ++ "\""
  | none => "\"\\ud800\""

mutual

def compact : Json → String
  | .null => "null"
  | .bool true => "true"
  | .bool false => "false"
  | .number literal => literal
  | .string text => quote text
  | .array items => "[" ++ compactItems items ++ "]"
  | .object members => "\x7b" ++ compactMembers members ++ "\x7d"

def compactItems : List Json → String
  | [] => ""
  | [v] => v.compact
  | v :: w :: rest => v.compact ++ "," ++ compactItems (w :: rest)

def compactMembers : List (Option String × Json) → String
  | [] => ""
  | [(name, v)] => quote name ++ ":" ++ v.compact
  | (name, v) :: m :: rest =>
    quote name ++ ":" ++ v.compact ++ "," ++ compactMembers (m :: rest)

end

/-- The start of a line at a depth: two blanks per level. -/
def lineStart (depth : Nat) : String := "\n" ++ String.ofList (List.replicate (2 * depth) ' ')

mutual

/-- The value over several lines, one item or member a line, each level indented by two blanks. Empty
arrays and objects stay on their line. -/
def prettyAt (depth : Nat) : Json → String
  | .null => "null"
  | .bool true => "true"
  | .bool false => "false"
  | .number literal => literal
  | .string text => quote text
  | .array [] => "[]"
  | .array (v :: rest) => "[" ++ prettyItems (depth + 1) (v :: rest) ++ lineStart depth ++ "]"
  | .object [] => "\x7b\x7d"
  | .object (m :: rest) =>
    "\x7b" ++ prettyMembers (depth + 1) (m :: rest) ++ lineStart depth ++ "\x7d"

def prettyItems (depth : Nat) : List Json → String
  | [] => ""
  | [v] => lineStart depth ++ v.prettyAt depth
  | v :: w :: rest =>
    lineStart depth ++ v.prettyAt depth ++ "," ++ prettyItems depth (w :: rest)

def prettyMembers (depth : Nat) : List (Option String × Json) → String
  | [] => ""
  | [(name, v)] => lineStart depth ++ quote name ++ ": " ++ v.prettyAt depth
  | (name, v) :: m :: rest =>
    lineStart depth ++ quote name ++ ": " ++ v.prettyAt depth ++ "," ++
      prettyMembers depth (m :: rest)

end

def pretty (v : Json) : String := v.prettyAt 0

/-- The members of an object in the order of their names. -/
def sortMembers (members : List (String × Json)) : List (String × Json) :=
  members.mergeSort fun a b => decide (a.1 ≤ b.1)

end Legv8.Json
