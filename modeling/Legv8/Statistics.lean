import Legv8.Isa.Operation

/-!
# Statistics

Counters of a run. Every retired instruction is counted once in total and once in its class.

The counters are natural numbers. A machine keeps them in 64 bits each, which is the same for its first
2^64 - 1 pulses: a pulse fetches at most one instruction and delays at most one, and an instruction is retired
or squashed once and flushes once, so no counter of a machine that has been reset exceeds the number of its
pulses.
-/
namespace Legv8

structure Statistics where
  cycles : Nat
  retired : Nat
  alu : Nat
  loads : Nat
  stores : Nat
  /-- Retired branches, taken or not. -/
  branches : Nat
  system : Nat
  taken : Nat
  flushes : Nat
  /-- Instructions discarded by flushes and halts. -/
  squashed : Nat
  /-- Pulses in which an instruction waited for a source register. -/
  dataStalls : Nat
  /-- Pulses in which a finished unit found its output latch full. -/
  structuralStalls : Nat
  deriving DecidableEq

namespace Statistics

def zero : Statistics := ⟨0, 0, 0, 0, 0, 0, 0, 0, 0, 0, 0, 0⟩

/-- Counts a retired instruction in the class of its operation. -/
def countClass (s : Statistics) (op : Operation) : Statistics :=
  match op.format with
  | .system => { s with system := s.system + 1 }
  | .b | .cb => { s with branches := s.branches + 1 }
  | .d => if op.isStore then { s with stores := s.stores + 1 } else { s with loads := s.loads + 1 }
  | .im | .r | .i => { s with alu := s.alu + 1 }

def retire (s : Statistics) (op : Operation) : Statistics :=
  { s.countClass op with retired := s.retired + 1 }

/-- The counters with their names, in the order in which they are reported. -/
def fields (s : Statistics) : List (String × Nat) :=
  [("cycles", s.cycles), ("instructions_retired", s.retired), ("inst_alu", s.alu),
    ("inst_load", s.loads), ("inst_store", s.stores), ("inst_branch", s.branches),
    ("inst_system", s.system), ("branches_taken", s.taken), ("flushes", s.flushes),
    ("squashed", s.squashed), ("stalls_data", s.dataStalls),
    ("stalls_structural", s.structuralStalls)]

/-- The class counters add up to the total. -/
def Balanced (s : Statistics) : Prop :=
  s.alu + s.loads + s.stores + s.branches + s.system = s.retired

theorem Balanced.retire {s : Statistics} (h : s.Balanced) (op : Operation) :
    (s.retire op).Balanced := by
  cases op <;>
    simp [Balanced, Statistics.retire, countClass, Operation.format, Operation.isStore] at h ⊢ <;>
    omega

end Statistics

end Legv8
