import Legv8.Isa.Instruction

/-!
# Register reservations

Operands are read from the register file before execution and nothing is forwarded, so an instruction
waits while a source register still has a pending write. The pending writes are kept in issue order:
issuing adds at the back, committing takes from the front, squashing takes back the newest.
-/
namespace Legv8

/-- The reserved registers, oldest first. -/
abbrev Reservations := List Nat

namespace Reservations

def add (reservations : Reservations) (r : Nat) : Reservations := reservations ++ [r]

/-- The oldest reservation and the queue without it. -/
def release? : Reservations → Option (Nat × Reservations)
  | [] => none
  | r :: rest => some (r, rest)

/-- The queue without its newest reservation. -/
def retract (reservations : Reservations) : Reservations := reservations.dropLast

def newest? (reservations : Reservations) : Option Nat := reservations.getLast?

theorem retract_add (reservations : Reservations) (r : Nat) :
    retract (add reservations r) = reservations := List.dropLast_concat

end Reservations

/-- The first source register of an instruction that has a pending write. -/
def Instruction.pendingSource? (i : Instruction) (reservations : Reservations) : Option Nat :=
  match i.sources.1.filter (reservations.contains ·) with
  | some r => some r
  | none => i.sources.2.filter (reservations.contains ·)

end Legv8
