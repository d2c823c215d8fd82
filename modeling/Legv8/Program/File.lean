import Legv8.Files
import Legv8.Program.Binary
import Legv8.Program.Hex

/-!
# Program files

A program is read as hexadecimal text unless its name ends in `.bin`.
-/
namespace Legv8.Program

inductive Encoding where
  | hex
  | binary
  deriving DecidableEq

/-- Cuts a list at every occurrence of a character. -/
def splitAt (sep : Char) : List Char → List (List Char)
  | [] => [[]]
  | c :: rest =>
    if c = sep then [] :: splitAt sep rest
    else
      match splitAt sep rest with
      | [] => [[c]]
      | part :: more => (c :: part) :: more

/-- The parts of a path that name something: neither empty nor a single dot. -/
def pathParts (path : String) : List (List Char) :=
  (splitAt '/' path.toList).filter fun part => part ≠ [] ∧ part ≠ ['.']

/-- The extension of a file name: what follows its last dot, unless that dot comes first. -/
def extension? (name : List Char) : Option (List Char) :=
  if name = ['.', '.'] then none
  else
    match (splitAt '.' name).reverse with
    | _ :: [] :: [] => none
    | last :: _ :: _ => some last
    | _ => none

def Encoding.ofPath (path : String) : Encoding :=
  match (pathParts path).getLast? with
  | some name =>
    match extension? name with
    | some ext => if ext.map Char.toLower = ['b', 'i', 'n'] then .binary else .hex
    | none => .hex
  | none => .hex

def parse (encoding : Encoding) (bytes : ByteArray) (path : String) :
    Except ProgramError (List Word) :=
  match encoding with
  | .binary => Binary.parse bytes.data.toList
  | .hex =>
    match textOfBytes bytes with
    | .ok text => Hex.parse text
    | .error cause => .error (.unreadable path cause)

/-- Reads a program file through `read`, in a given encoding or else in the one that its path suggests. -/
def load {m : Type → Type} [Monad m] (read : String → m (Except ReadError ByteArray))
    (path : String) (encoding : Option Encoding) : m (Except ProgramError (List Word)) := do
  match ← read path with
  | .error cause => return .error (.unreadable path cause)
  | .ok bytes => return parse (encoding.getD (.ofPath path)) bytes path

end Legv8.Program
