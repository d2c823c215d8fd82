import Legv8.Reservations
import Legv8.Memory
import Legv8.Registers
import Legv8.Statistics
import Legv8.StopReason

/-!
# Architectural state

What both the pipelined and the sequential machine own: registers, program counter, reservations, memory,
counters and the stop request.
-/
namespace Legv8

structure Core where
  registers : Registers
  /-- The address of the next fetch. -/
  pc : UInt64
  /-- The address to which the program counter returns on reset. -/
  resetPc : UInt64
  /-- The destinations of issued instructions that have not committed. -/
  reservations : Reservations
  memory : Memory
  statistics : Statistics
  tracing : Bool
  stop : Option StopReason
  deriving DecidableEq

namespace Core

/-- A core that starts at `pc`. -/
def new (memory : Memory) (pc : UInt64) (tracing : Bool) : Core :=
  { registers := .new, pc, resetPc := pc, reservations := [], memory, statistics := .zero, tracing,
    stop := none }

/-- Clears registers, reservations and counters and returns to the start address. Memory and the stop
request stay. -/
def reset (core : Core) : Core :=
  { core with registers := .new, pc := core.resetPc, reservations := [], statistics := .zero }

/-- Asks the machine to stop; the first request wins. -/
def requestStop (core : Core) (reason : StopReason) : Core :=
  { core with stop := StopReason.request core.stop reason }

def clearStop (core : Core) : Core := { core with stop := none }

/-- Asks for a stop because of an access outside memory. -/
def reportFault (core : Core) (addr : UInt64) : Core := core.requestStop (.memoryFault addr)

/-- Reports several accesses outside memory in order. -/
def reportFaults (core : Core) (addrs : List UInt64) : Core := addrs.foldl reportFault core

def countCycle (core : Core) : Core :=
  { core with statistics := { core.statistics with cycles := core.statistics.cycles + 1 } }

/-- Counts a pulse in which an instruction waited for a register. -/
def countDataStall (core : Core) : Core :=
  { core with statistics := { core.statistics with dataStalls := core.statistics.dataStalls + 1 } }

/-- Counts a pulse in which a unit waited for its output latch. -/
def countStructuralStall (core : Core) : Core :=
  { core with
    statistics := { core.statistics with structuralStalls := core.statistics.structuralStalls + 1 } }

def countTaken (core : Core) : Core :=
  { core with statistics := { core.statistics with taken := core.statistics.taken + 1 } }

def retire (core : Core) (op : Operation) : Core :=
  { core with statistics := core.statistics.retire op }

/-- Reserves the destination of an issued instruction, if it has one. -/
def reserve (core : Core) (dest : Option Nat) : Core :=
  match dest with
  | some r => { core with reservations := core.reservations.add r }
  | none => core

/-- Writes one byte of memory, reporting an address outside. -/
def poke (core : Core) (addr : UInt64) (value : UInt8) : Core :=
  if core.memory.contains addr then { core with memory := core.memory.write addr value }
  else core.reportFault addr

/-- Writes consecutive bytes of memory from an address upwards, one after the other. -/
def pokeList (core : Core) (addr : UInt64) : List UInt8 → Core
  | [] => core
  | b :: rest => (core.poke addr b).pokeList (addr + 1) rest

theorem reportFaults_stop (core : Core) (addrs : List UInt64) :
    (core.reportFaults addrs).stop = match core.stop with
      | some first => some first
      | none => addrs.head?.map .memoryFault := by
  induction addrs generalizing core with
  | nil => cases h : core.stop <;> simp [reportFaults, h]
  | cons a rest ih =>
    have step : core.reportFaults (a :: rest) = (core.reportFault a).reportFaults rest := rfl
    rw [step, ih]
    cases h : core.stop <;> simp [reportFault, requestStop, StopReason.request, h]

end Core

end Legv8
