import Legv8.Error
import Legv8.StopReason

/-!
# Runs

A run repeats a step until the machine stops, a step fails or a budget is used up. A run without a budget
need not end, so it is watched up to a horizon that lies beyond any practical run.
-/
namespace Legv8

inductive Ending where
  | stopped (reason : StopReason)
  | failed (error : ExecutionError)
  /-- A run without a budget was still going at the horizon. -/
  | unfinished
  deriving DecidableEq

def exhausted (max : Option Nat) (steps : Nat) : Bool :=
  match max with
  | some limit => limit ≤ steps
  | none => false

/-- The number of steps for which a run without a budget is watched. -/
def horizon : Nat := 1 <<< 62

/-- How many rounds a run may take: one more than its budget, which the last round reports. -/
def fuelFor : Option Nat → Nat
  | some limit => limit + 1
  | none => horizon

end Legv8
