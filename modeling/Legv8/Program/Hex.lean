import Legv8.Error
import Legv8.Text.Blank

/-!
# Hexadecimal programs

One word a line. A comment starts at the first `//` or `#` of a line; what remains between blanks is
empty or a word. A word is written in hexadecimal digits of either case, after an optional `0x` or `0X`,
with underscores anywhere behind that. A plus sign may stand before the digits.
-/
namespace Legv8.Program.Hex

/-- The lines of a text behind the lines in `done` and the part of a line in `line`, both backwards. -/
def linesFrom (line : List Char) (done : List (List Char)) : List Char → List (List Char)
  | [] => (line.reverse :: done).reverse
  | c :: rest =>
    if c = '\n' then linesFrom [] (line.reverse :: done) rest else linesFrom (c :: line) done rest

/-- The lines of a text, without their line feeds. The last one may be empty. -/
def lines (text : List Char) : List (List Char) := linesFrom [] [] text

def stripComment : List Char → List Char
  | [] => []
  | '#' :: _ => []
  | '/' :: '/' :: _ => []
  | c :: rest => c :: stripComment rest

/-- The code of a line: neither comment nor blanks around it. -/
def code (line : List Char) : List Char := Text.trim (stripComment line)

/-- The text behind an optional `0x` or `0X`. -/
def stripRadix : List Char → List Char
  | '0' :: 'x' :: rest => rest
  | '0' :: 'X' :: rest => rest
  | cs => cs

/-- The word that hexadecimal digits spell; 32 bits must hold it. -/
def wordOfDigits? (digits : List Char) : Option Word :=
  (Text.numberBelow? Text.hexDigit? 16 UInt32.size 0 digits).map Nat.toUInt32

/-- The word that one or more digits spell, after an optional plus sign. -/
def signedWord? : List Char → Option Word
  | [] => none
  | '+' :: [] => none
  | '+' :: c :: rest => wordOfDigits? (c :: rest)
  | c :: rest => wordOfDigits? (c :: rest)

def word? (cs : List Char) : Option Word := signedWord? ((stripRadix cs).filter (· ≠ '_'))

/-- Reads lines, of which the first has number `n`, with the words so far backwards. -/
def parseLines : (n : Nat) → List (List Char) → List Word → Except ProgramError (List Word)
  | _, [], words => .ok words.reverse
  | n, line :: rest, words =>
    match code line with
    | [] => parseLines (n + 1) rest words
    | c :: cs =>
      match word? (c :: cs) with
      | some w => parseLines (n + 1) rest (w :: words)
      | none => .error (.invalidWord n (String.ofList (c :: cs)))

/-- The words of a program text; the first line that is no word is reported. -/
def parse (text : String) : Except ProgramError (List Word) := parseLines 1 (lines text.toList) []

end Legv8.Program.Hex
