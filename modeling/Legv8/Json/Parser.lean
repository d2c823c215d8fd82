import Legv8.Json.Lexer

/-!
# Reading JSON

The parser keeps its open arrays and objects on a stack of its own and reads one token at a time, so
nesting may be of any depth.
-/
namespace Legv8.Json

namespace Parser

/-- An array or object that is not closed yet. -/
inductive Frame where
  /-- The items so far, backwards. -/
  | array (items : List Json)
  /-- The members so far, backwards, and the name whose value is being read. -/
  | object (members : List (Option String × Json)) (name : Option String)

inductive Expect where
  | value
  | firstItem
  | firstName
  | name (members : List (Option String × Json))
  | colon (members : List (Option String × Json)) (name : Option String)
  /-- A comma, or the end of the innermost array or object. -/
  | separator
  /-- Nothing: the value is complete. -/
  | nothing (value : Json)

structure State where
  expect : Expect
  /-- The open arrays and objects, innermost first. -/
  stack : List Frame

/-- Puts a complete value where it belongs. -/
def deliver (v : Json) : List Frame → State
  | [] => ⟨.nothing v, []⟩
  | .array items :: rest => ⟨.separator, .array (v :: items) :: rest⟩
  | .object members name :: rest => ⟨.separator, .object ((name, v) :: members) name :: rest⟩

/-- Reads the token that starts a value. -/
def startValue (stack : List Frame) : Token → Option State
  | .null => some (deliver .null stack)
  | .bool b => some (deliver (.bool b) stack)
  | .number literal => some (deliver (.number literal) stack)
  | .string text => some (deliver (.string text) stack)
  | .openArray => some ⟨.firstItem, .array [] :: stack⟩
  | .openObject => some ⟨.firstName, stack⟩
  | _ => none

/-- Reads a comma or the end of the innermost array or object. -/
def continueFrame : List Frame → Token → Option State
  | .array items :: rest, .comma => some ⟨.value, .array items :: rest⟩
  | .array items :: rest, .closeArray => some (deliver (.array items.reverse) rest)
  | .object members _ :: rest, .comma => some ⟨.name members, rest⟩
  | .object members _ :: rest, .closeObject => some (deliver (.object members.reverse) rest)
  | _, _ => none

def step (s : State) (token : Token) : Option State :=
  match s.expect with
  | .value => startValue s.stack token
  | .firstItem =>
    match s.stack, token with
    | .array _ :: rest, .closeArray => some (deliver (.array []) rest)
    | _, _ => startValue s.stack token
  | .firstName =>
    match token with
    | .closeObject => some (deliver (.object []) s.stack)
    | .string name => some ⟨.colon [] name, s.stack⟩
    | _ => none
  | .name members =>
    match token with
    | .string name => some ⟨.colon members name, s.stack⟩
    | _ => none
  | .colon members name =>
    match token with
    | .colon => some ⟨.value, .object members name :: s.stack⟩
    | _ => none
  | .separator => continueFrame s.stack token
  | .nothing _ => none

def run : State → List Token → Option Json
  | s, [] =>
    match s.expect with
    | .nothing v => some v
    | _ => none
  | s, token :: rest =>
    match step s token with
    | none => none
    | some s => run s rest

end Parser

/-- The value that a text spells, with blanks around it allowed. -/
def parse? (text : String) : Option Json :=
  match tokens? text with
  | none => none
  | some tokens => Parser.run ⟨.value, []⟩ tokens

end Legv8.Json
