import Legv8.Isa.Word
import Legv8.Text.Numeral

/-!
# Errors

What can go wrong, by cause. A halt, a fault or a used-up budget is no error but a reason to stop.
-/
namespace Legv8

/-- The state behind an operation that succeeds, or else its error alone. -/
def exceptOf {σ ε : Type} : σ × Option ε → Except ε σ
  | (s, none) => .ok s
  | (_, some err) => .error err

inductive Stage where
  | fetch
  | decode
  | execute
  | memory
  | writeback
  deriving DecidableEq

/-- The customary abbreviation of a stage. -/
def Stage.name : Stage → String
  | .fetch => "IF"
  | .decode => "ID"
  | .execute => "EX"
  | .memory => "MEM"
  | .writeback => "WB"

inductive ExecutionError where
  /-- The instruction names the zero register as its destination. -/
  | zeroRegisterWrite (pc : UInt64) (word : Word)
  /-- A stage met a word outside the subset. -/
  | unknownOpcode (stage : Stage) (opcode : UInt32) (word : Word) (pc : UInt64)
  /-- A committing instruction found no reservation to release. -/
  | nothingReserved (pc : UInt64) (word : Word)
  deriving DecidableEq

/-- The place that an execution error names. -/
def ExecutionError.place (word : Word) (pc : UInt64) : String :=
  "(instr " ++ Text.hexPadded 8 word.toNat ++ " at pc=" ++ Text.hex pc.toNat ++ ")"

def ExecutionError.message : ExecutionError → String
  | .zeroRegisterWrite pc word => "cannot write to register XZR " ++ place word pc
  | .unknownOpcode stage opcode word pc =>
    "unknown opcode " ++ Text.hexPadded 3 opcode.toNat ++ " in " ++ stage.name ++ " " ++ place word pc
  | .nothingReserved pc word =>
    "register lock queue underflow at writeback " ++ place word pc

inductive ReadError where
  | notFound
  | isDirectory
  | notDirectory
  | nameTooLong
  | notText
  | nulInName
  | other (text : String)
  deriving DecidableEq

def ReadError.message : ReadError → String
  | .notFound => "No such file or directory (os error 2)"
  | .isDirectory => "Is a directory (os error 21)"
  | .notDirectory => "Not a directory (os error 20)"
  | .nameTooLong => "File name too long (os error 36)"
  | .notText => "stream did not contain valid UTF-8"
  | .nulInName => "file name contained an unexpected NUL byte"
  | .other text => text

inductive ProgramError where
  | unreadable (path : String) (cause : ReadError)
  /-- A line of hex text is no 32-bit word. -/
  | invalidWord (line : Nat) (text : String)
  /-- A binary program ends within a word. -/
  | truncated (length : Nat)
  /-- The program has more bytes than memory. -/
  | tooLarge (words capacity : Nat)
  deriving DecidableEq

def ProgramError.message : ProgramError → String
  | .unreadable path cause => "failed to read program '" ++ path ++ "': " ++ cause.message
  | .invalidWord line text =>
    "line " ++ Text.decimal line ++ ": invalid instruction word '" ++ text ++ "'"
  | .truncated length =>
    "binary program length " ++ Text.decimal length ++ " is not a multiple of 4 bytes"
  | .tooLarge words capacity =>
    "program of " ++ Text.decimal words ++ " words does not fit in " ++ Text.decimal capacity ++
      " bytes of memory"

inductive ConfigError where
  | unreadable (path : String) (cause : ReadError)
  | malformed
  | zeroMemory
  | startPcOutOfRange (pc size : UInt64)
  deriving DecidableEq

def ConfigError.message : ConfigError → String
  | .unreadable path cause => "failed to read config '" ++ path ++ "': " ++ cause.message
  | .malformed => "invalid configuration"
  | .zeroMemory => "memory size must be non-zero"
  | .startPcOutOfRange pc size =>
    "start pc " ++ Text.hex pc.toNat ++ " lies outside " ++ Text.decimal size.toNat ++
      " bytes of memory"

end Legv8
