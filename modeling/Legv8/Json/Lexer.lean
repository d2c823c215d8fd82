import Legv8.Json

/-!
# JSON tokens

A machine that reads one character at a time. A number or a word ends at the first character that cannot
continue it, and that character is then read as the start of something else. Blanks separate tokens and
are dropped.
-/
namespace Legv8.Json

namespace Lexer

/-- Blank, tab, line feed and carriage return. -/
def isBlank (c : Char) : Bool := c = ' ' || c = '\t' || c = '\n' || c = '\r'

/-! ## Numbers -/

/-- How far a number has been read. -/
inductive NumberState where
  /-- After the sign. -/
  | sign
  /-- After a leading zero, which stands alone. -/
  | zero
  /-- Within the digits before the point. -/
  | whole
  /-- After the point. -/
  | point
  /-- Within the digits after the point. -/
  | fraction
  /-- After the exponent mark. -/
  | mark
  /-- After the sign of the exponent. -/
  | markSign
  /-- Within the digits of the exponent. -/
  | exponent
  deriving DecidableEq

namespace NumberState

def accepts : NumberState → Bool
  | zero | whole | fraction | exponent => true
  | sign | point | mark | markSign => false

/-- What may follow the digits before the point. -/
def afterWhole (c : Char) : Option NumberState :=
  if c = '.' then some point else if c = 'e' ∨ c = 'E' then some mark else none

/-- The state after one more character, if the number goes on with it. -/
def next (state : NumberState) (c : Char) : Option NumberState :=
  match state with
  | sign => if c = '0' then some zero else if c.isDigit then some whole else none
  | zero => afterWhole c
  | whole => if c.isDigit then some whole else afterWhole c
  | point => if c.isDigit then some fraction else none
  | fraction =>
    if c.isDigit then some fraction else if c = 'e' ∨ c = 'E' then some mark else none
  | mark =>
    if c.isDigit then some exponent else if c = '+' ∨ c = '-' then some markSign else none
  | markSign | exponent => if c.isDigit then some exponent else none

def start (c : Char) : Option NumberState :=
  if c = '-' then some sign else sign.next c

end NumberState

/-! ## Strings -/

/-- The part of a string that has been read. -/
structure Partial where
  /-- The text backwards; none once a surrogate was left unpaired. -/
  text : Option (List Char)
  /-- A high surrogate that still needs its low one. -/
  high : Option Nat
  deriving DecidableEq

namespace Partial

def empty : Partial := ⟨some [], none⟩

/-- Adds a character; a waiting surrogate stays unpaired. -/
def push (p : Partial) (c : Char) : Partial :=
  match p.high with
  | some _ => ⟨none, none⟩
  | none => ⟨p.text.map (c :: ·), none⟩

/-- Adds an escaped 16-bit unit; a high surrogate and a low one make one character. -/
def pushUnit (p : Partial) (u : Nat) : Partial :=
  if 0xD800 ≤ u ∧ u < 0xDC00 then
    match p.high with
    | some _ => ⟨none, some u⟩
    | none => ⟨p.text, some u⟩
  else if 0xDC00 ≤ u ∧ u < 0xE000 then
    match p.high with
    | some h =>
      ⟨p.text.map (Char.ofNat (0x10000 + (h - 0xD800) * 0x400 + (u - 0xDC00)) :: ·), none⟩
    | none => ⟨none, none⟩
  else p.push (Char.ofNat u)

def finish (p : Partial) : Option String :=
  match p.high with
  | some _ => none
  | none => p.text.map fun cs => String.ofList cs.reverse

end Partial

/-- Where in an escape the reader is. -/
inductive Escape where
  | none
  | backslash
  /-- In a unit, with `left` more digits to come after the next one. -/
  | unit (left value : Nat)
  deriving DecidableEq

def hexValue? (c : Char) : Option Nat :=
  if '0' ≤ c ∧ c ≤ '9' then some (c.toNat - 48)
  else if 'a' ≤ c ∧ c ≤ 'f' then some (c.toNat - 87)
  else if 'A' ≤ c ∧ c ≤ 'F' then some (c.toNat - 55)
  else .none

def escaped? (c : Char) : Option Char :=
  if c = '"' ∨ c = '\\' ∨ c = '/' then some c
  else if c = 'b' then some (Char.ofNat 8)
  else if c = 'f' then some (Char.ofNat 12)
  else if c = 'n' then some '\n'
  else if c = 'r' then some '\r'
  else if c = 't' then some '\t'
  else .none

/-! ## The machine -/

/-- What the reader is in the middle of. -/
inductive Mode where
  | between
  /-- In a word of lower-case letters, kept backwards. -/
  | word (letters : List Char)
  /-- In a number, kept backwards. -/
  | number (state : NumberState) (digits : List Char)
  | string (read : Partial) (escape : Escape)
  deriving DecidableEq

def wordToken? (letters : List Char) : Option Token :=
  match String.ofList letters.reverse with
  | "null" => some .null
  | "true" => some (.bool true)
  | "false" => some (.bool false)
  | _ => none

def numberToken? (state : NumberState) (digits : List Char) : Option Token :=
  if state.accepts then some (.number (String.ofList digits.reverse)) else none

def mark? (c : Char) : Option Token :=
  match c with
  | '\x7b' => some .openObject
  | '\x7d' => some .closeObject
  | '[' => some .openArray
  | ']' => some .closeArray
  | ',' => some .comma
  | ':' => some .colon
  | _ => none

def stepBetween (c : Char) : Option (Mode × List Token) :=
  if isBlank c then some (.between, [])
  else if c = '"' then some (.string .empty .none, [])
  else if c.isLower then some (.word [c], [])
  else
    match mark? c with
    | some token => some (.between, [token])
    | none => (NumberState.start c).map fun state => (.number state [c], [])

/-- Ends a token and reads the character after it. -/
def stepAfter (token : Option Token) (c : Char) : Option (Mode × List Token) :=
  match token, stepBetween c with
  | some token, some (mode, tokens) => some (mode, token :: tokens)
  | _, _ => none

def stepString (read : Partial) (escape : Escape) (c : Char) : Option (Mode × List Token) :=
  match escape with
  | .none =>
    if c = '"' then some (.between, [.string read.finish])
    else if c = '\\' then some (.string read .backslash, [])
    else if c.toNat < 32 then none
    else some (.string (read.push c) .none, [])
  | .backslash =>
    if c = 'u' then some (.string read (.unit 3 0), [])
    else (escaped? c).map fun d => (.string (read.push d) .none, [])
  | .unit left value =>
    (hexValue? c).map fun d =>
      match left with
      | 0 => (.string (read.pushUnit (16 * value + d)) .none, [])
      | n + 1 => (.string read (.unit n (16 * value + d)), [])

/-- Reads one character: the next mode and the tokens that are complete now. -/
def step : Mode → Char → Option (Mode × List Token)
  | .between, c => stepBetween c
  | .word letters, c =>
    if c.isLower then some (.word (c :: letters), []) else stepAfter (wordToken? letters) c
  | .number state digits, c =>
    match state.next c with
    | some state => some (.number state (c :: digits), [])
    | none => stepAfter (numberToken? state digits) c
  | .string read escape, c => stepString read escape c

/-- The tokens that the end of the text completes. -/
def finish : Mode → Option (List Token)
  | .between => some []
  | .word letters => (wordToken? letters).map ([·])
  | .number state digits => (numberToken? state digits).map ([·])
  | .string _ _ => none

/-- Reads characters from a mode, with the tokens so far backwards. -/
def run : List Char → Mode → List Token → Option (List Token)
  | [], mode, tokens => (finish mode).map fun last => tokens.reverse ++ last
  | c :: rest, mode, tokens =>
    match step mode c with
    | none => none
    | some (mode, new) => run rest mode (new.reverse ++ tokens)

end Lexer

/-- The tokens of a text, unless something in it is no token. -/
def tokens? (text : String) : Option (List Token) := Lexer.run text.toList .between []

end Legv8.Json
