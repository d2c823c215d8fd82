/-!
# Stop reasons

A machine stops because something asked it to. The first request wins until it is cleared.
-/
namespace Legv8

inductive StopReason where
  | halted (pc : UInt64)
  /-- An access left memory; `addr` is its first byte outside. -/
  | memoryFault (addr : UInt64)
  /-- The budget is used up after so many pulses. A machine takes budgets of 64 bits; here any number is one. -/
  | cycleLimit (cycles : Nat)
  | external
  deriving DecidableEq

namespace StopReason

/-- Adds a request to a possibly pending one. -/
def request (pending : Option StopReason) (reason : StopReason) : Option StopReason :=
  match pending with
  | some first => some first
  | none => some reason

theorem request_none (reason : StopReason) : request none reason = some reason := rfl

theorem request_some (first reason : StopReason) : request (some first) reason = some first := rfl

end StopReason

end Legv8
