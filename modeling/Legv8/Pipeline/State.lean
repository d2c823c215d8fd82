import Legv8.Alu
import Legv8.Core
import Legv8.Memory.Bus
import Legv8.Pipeline.Latch

/-!
# The state of the pipeline

Nine slots hold instructions: the five stage units and the four latches between them. A unit admits one
instruction and completes it in a later pulse.
-/
namespace Legv8

structure FetchUnit where
  bus : Bus
  pending : Bool
  deriving DecidableEq

def FetchUnit.new : FetchUnit := { bus := .new, pending := false }

def FetchUnit.reset (u : FetchUnit) : FetchUnit := { u with bus := u.bus.reset, pending := false }

structure ExecuteUnit where
  alu : Alu
  pending : Option Issued
  /-- A taken branch has left and the front end is not flushed yet. -/
  flushing : Bool
  deriving DecidableEq

def ExecuteUnit.new : ExecuteUnit := { alu := .new, pending := none, flushing := false }

def ExecuteUnit.reset (u : ExecuteUnit) : ExecuteUnit :=
  { u with alu := u.alu.clearFlags, pending := none, flushing := false }

structure AccessUnit where
  bus : Bus
  pending : Option Executed
  deriving DecidableEq

def AccessUnit.new : AccessUnit := { bus := .new, pending := none }

def AccessUnit.reset (u : AccessUnit) : AccessUnit := { u with bus := u.bus.reset, pending := none }

structure Pipeline where
  core : Core
  latches : Latches
  fetch : FetchUnit
  decode : Option Fetched
  execute : ExecuteUnit
  access : AccessUnit
  writeback : Option Accessed
  deriving DecidableEq

namespace Pipeline

def new (core : Core) : Pipeline :=
  { core
    latches := .empty
    fetch := .new
    decode := none
    execute := .new
    access := .new
    writeback := none }

def flags (p : Pipeline) : Alu.Flags := p.execute.alu.flags

/-- Resets the core, the latches and every unit and withdraws the stop request. Memory is kept. -/
def reset (p : Pipeline) : Pipeline :=
  { p with
    core := p.core.reset.clearStop
    latches := p.latches.flush
    fetch := p.fetch.reset
    decode := none
    execute := p.execute.reset
    access := p.access.reset
    writeback := none }

theorem reset_eq (p : Pipeline) :
    p.reset = .new (.new p.core.memory p.core.resetPc p.core.tracing) := rfl

/-- Nothing is behind execute: the last two units and the latches before them are empty. -/
def drained (p : Pipeline) : Bool :=
  p.access.pending.isNone && p.writeback.isNone && p.latches.exMem.isNone && p.latches.memWb.isNone

/-- Everything older than the instruction in decode has retired. -/
def nothingOlder (p : Pipeline) : Bool :=
  p.execute.pending.isNone && p.latches.idEx.isNone && p.drained

end Pipeline

end Legv8
