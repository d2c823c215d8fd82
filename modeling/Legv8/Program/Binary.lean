import Legv8.Error

/-!
# Binary programs

Consecutive words, the most significant byte of each first.
-/
namespace Legv8.Program.Binary

/-- The words of whole groups of four bytes, with the words so far backwards. Fewer than four bytes at
the end are left out. -/
def wordsOf : List UInt8 → List Word → List Word
  | a :: b :: c :: d :: rest, words => wordsOf rest (Word.ofBytes a b c d :: words)
  | _, words => words.reverse

/-- The words of a program; it must not end within a word. -/
def parse (bytes : List UInt8) : Except ProgramError (List Word) :=
  if bytes.length % Word.size = 0 then .ok (wordsOf bytes []) else .error (.truncated bytes.length)

end Legv8.Program.Binary
