import Legv8.Datapath.InFlight

/-!
# Latches

A latch holds at most one instruction between two stages. A full latch refuses its producer.
-/
namespace Legv8

abbrev Latch (α : Type) := Option α

namespace Latch

variable {α : Type}

/-- Puts an entry into an empty latch; a full latch hands it back. -/
def publish (latch : Latch α) (entry : α) : Except α (Latch α) :=
  match latch with
  | none => .ok (some entry)
  | some _ => .error entry

theorem publish_none (entry : α) : publish none entry = .ok (some entry) := rfl

theorem publish_some (held entry : α) : publish (some held) entry = .error entry := rfl

end Latch

structure Latches where
  /-- Fetch to decode. -/
  ifId : Latch Fetched
  /-- Decode to execute. -/
  idEx : Latch Issued
  /-- Execute to memory. -/
  exMem : Latch Executed
  /-- Memory to writeback. -/
  memWb : Latch Accessed
  deriving DecidableEq

def Latches.empty : Latches := ⟨none, none, none, none⟩

/-- Empties every latch. -/
def Latches.flush (l : Latches) : Latches := { l with ifId := none, idEx := none, exMem := none, memWb := none }

end Legv8
