import Legv8.Isa.Word

/-!
# Instructions in flight

What an instruction carries from one stage to the next. Every form knows its word and the address after
it.
-/
namespace Legv8

structure InFlight where
  word : Word
  /-- The address of the following instruction. -/
  nextPc : UInt64
  deriving DecidableEq

/-- The address of the instruction itself. -/
def InFlight.pc (e : InFlight) : UInt64 := e.nextPc - 4

/-- Between fetch and decode. -/
structure Fetched extends InFlight where
  /-- The first of the word's bytes outside memory. -/
  fault : Option UInt64
  deriving DecidableEq

/-- Between decode and execute. -/
structure Issued extends InFlight where
  first : UInt64
  second : UInt64
  /-- The immediate, extended to 64 bits. -/
  imm : UInt64
  dest : Option Nat
  reserved : Bool
  deriving DecidableEq

/-- Between execute and the memory access. -/
structure Executed extends InFlight where
  /-- The result, or the value to store. -/
  value : UInt64
  address : UInt64
  deriving DecidableEq

/-- Between the memory access and the commit. -/
structure Accessed extends InFlight where
  value : UInt64
  deriving DecidableEq

end Legv8
