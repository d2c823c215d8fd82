import Legv8.Datapath.Access
import Legv8.Datapath.Commit
import Legv8.Datapath.Execution
import Legv8.Datapath.Fetch
import Legv8.Datapath.Operands
import Legv8.Pipeline.State

/-!
# The stage units

Each unit completes what it has admitted, if it can. What it does is decided first, as a value that names
the case; the new state and the events of the completion both follow from that decision. A unit then
takes the next instruction from its input latch.
-/
namespace Legv8

inductive Status where
  | idle
  /-- The instruction is held back and stays in the unit. -/
  | stalled
  | completed
  deriving DecidableEq

namespace Pipeline

/-- Events that are only wanted while tracing. -/
@[macro_inline] def traced (p : Pipeline) (events : List Event) : List Event :=
  if p.core.tracing then events else []

/-! ## Fetch -/

inductive FetchStep where
  | idle
  | blocked
  | fetched (entry : Fetched) (bus : Bus)

@[inline] def fetchStep (p : Pipeline) : FetchStep :=
  if p.fetch.pending then
    match p.latches.ifId with
    | some _ => .blocked
    | none =>
      let (entry, bus) := p.fetch.bus.fetch p.core.memory p.core.pc
      .fetched entry bus
  else .idle

/-- Completes a fetch: the word is published and the program counter moves on. -/
@[inline] def completeFetch (p : Pipeline) : Pipeline × Status :=
  match p.fetchStep with
  | .idle => (p, .idle)
  | .blocked => ({ p with core := p.core.countStructuralStall }, .stalled)
  | .fetched entry bus =>
    ({ p with
        core := { p.core with pc := entry.nextPc }
        latches := { p.latches with ifId := some entry }
        fetch := { bus, pending := false } }, .completed)

def fetchEvents (p : Pipeline) : List Event :=
  p.traced <| match p.fetchStep with
    | .fetched entry _ => [.fetched p.core.pc entry.word]
    | _ => []

@[inline] def launchFetch (p : Pipeline) : Pipeline := { p with fetch := { p.fetch with pending := true } }

/-! ## Decode -/

inductive DecodeStep where
  | idle
  /-- The fetch ran outside memory, and older instructions are still in flight. -/
  | faultHeld
  /-- The fetch ran outside memory at `addr`, and everything older has retired. -/
  | fault (addr : UInt64)
  | rejected (error : ExecutionError)
  | waiting (entry : Fetched) (register : Nat)
  | blocked
  | issued (out : Issued)

/-- Decides what the decode unit does. A word whose fetch failed is never looked at. -/
@[inline] def decodeStep (p : Pipeline) (nothingOlder : Bool) : DecodeStep :=
  match p.decode with
  | none => .idle
  | some entry =>
    match entry.fault with
    | some addr => if nothingOlder then .fault addr else .faultHeld
    | none =>
      match entry.accept with
      | .error err => .rejected err
      | .ok i =>
        match i.pendingSource? p.core.reservations with
        | some r => .waiting entry r
        | none =>
          match p.latches.idEx with
          | some _ => .blocked
          | none =>
            let out := entry.operands i p.core.registers
            .issued { out with reserved := out.dest.isSome }

/-- Completes a decode: the destination is reserved and the operands are published. -/
@[inline] def completeDecode (p : Pipeline) (nothingOlder : Bool) :
    Pipeline × Except ExecutionError Status :=
  match p.decodeStep nothingOlder with
  | .idle => (p, .ok .idle)
  | .faultHeld => (p, .ok .stalled)
  | .fault addr => ({ p with core := p.core.reportFault addr, decode := none }, .ok .completed)
  | .rejected err => (p, .error err)
  | .waiting _ _ => ({ p with core := p.core.countDataStall }, .ok .stalled)
  | .blocked => ({ p with core := p.core.countStructuralStall }, .ok .stalled)
  | .issued out =>
    ({ p with
        core := p.core.reserve out.dest
        latches := { p.latches with idEx := some out }
        decode := none }, .ok .completed)

def decodeEvents (p : Pipeline) (nothingOlder : Bool) : List Event :=
  match p.decodeStep nothingOlder with
  | .fault addr => p.core.faultEvents [addr]
  | .waiting entry r => p.traced [.waiting entry.pc r]
  | .issued out => p.traced [.issued out.pc out.word]
  | _ => []

/-- Moves the entry of the latch from fetch, if there is one, into the decode unit. -/
@[inline] def takeDecode (p : Pipeline) : Pipeline :=
  match p.latches.ifId with
  | some entry => { p with decode := some entry, latches := { p.latches with ifId := none } }
  | none => p

/-! ## Execute -/

inductive ExecuteStep where
  | idle
  | rejected (error : ExecutionError)
  /-- A halt waits until everything older has retired. -/
  | draining
  | halted (pc : UInt64)
  /-- The latch to the memory unit is full; only the flags change. -/
  | blocked (alu : Alu)
  /-- The instruction was executed, and branches to `target` if there is one. -/
  | executed (out : Executed) (target : Option UInt64) (alu : Alu)

/-- Decides what the execute unit does. An instruction that cannot leave is executed again in the next
pulse, from the same operands and so with the same result. -/
@[inline] def executeStep (p : Pipeline) (drained : Bool) : ExecuteStep :=
  match p.execute.pending with
  | none => .idle
  | some entry =>
    match p.execute.alu.execute entry with
    | .error err => .rejected err
    | .ok (.halt, _) => if drained then .halted entry.pc else .draining
    | .ok (.forward out target, alu) =>
      match p.latches.exMem.publish out with
      | .error _ => .blocked alu
      | .ok _ => .executed out target alu

/-- What remains to be done after execution. -/
inductive Outcome where
  | status (status : Status)
  /-- The front end must be flushed to the target of a taken branch. -/
  | redirect (target : UInt64)
  | halt (pc : UInt64)
  deriving DecidableEq

/-- Completes an execution: the result is published, and a taken branch raises the flushing gate. -/
@[inline] def completeExecute (p : Pipeline) (drained : Bool) : Pipeline × Except ExecutionError Outcome :=
  match p.executeStep drained with
  | .idle => (p, .ok (.status .idle))
  | .rejected err => (p, .error err)
  | .draining => (p, .ok (.status .stalled))
  | .halted pc => ({ p with execute := { p.execute with pending := none } }, .ok (.halt pc))
  | .blocked alu =>
    ({ p with core := p.core.countStructuralStall, execute := { p.execute with alu } },
      .ok (.status .stalled))
  | .executed out none alu =>
    ({ p with
        latches := { p.latches with exMem := some out }
        execute := { p.execute with alu, pending := none } }, .ok (.status .completed))
  | .executed out (some target) alu =>
    ({ p with
        core := p.core.countTaken
        latches := { p.latches with exMem := some out }
        execute := { alu, pending := none, flushing := true } }, .ok (.redirect target))

def executeEvents (p : Pipeline) (drained : Bool) : List Event :=
  p.traced <| match p.executeStep drained with
    | .executed out _ _ => [.executed out.pc out.value out.address]
    | _ => []

/-- Moves the entry of the latch from decode, if there is one, into the execute unit. -/
@[inline] def takeExecute (p : Pipeline) : Pipeline :=
  match p.latches.idEx with
  | some entry =>
    { p with
      execute := { p.execute with pending := some entry }
      latches := { p.latches with idEx := none } }
  | none => p

/-! ## Memory access -/

inductive AccessStep where
  | idle
  | blocked
  | accessed (entry : Executed)

@[inline] def accessStep (p : Pipeline) : AccessStep :=
  match p.access.pending with
  | none => .idle
  | some entry =>
    match p.latches.memWb with
    | some _ => .blocked
    | none => .accessed entry

/-- Completes a memory access: memory changes, faults are reported and the value is published. -/
@[inline] def completeAccess (p : Pipeline) : Pipeline × Status :=
  match p.accessStep with
  | .idle => (p, .idle)
  | .blocked => ({ p with core := p.core.countStructuralStall }, .stalled)
  | .accessed entry =>
    let access := entry.access p.access.bus p.core.memory
    ({ p with
        core := p.core.settle access
        latches := { p.latches with memWb := some access.out }
        access := { bus := access.bus, pending := none } }, .completed)

def accessEvents (p : Pipeline) : List Event :=
  match p.accessStep with
  | .accessed entry =>
    let access := entry.access p.access.bus p.core.memory
    p.core.faultEvents access.missing ++
      p.traced [.accessed entry.pc entry.address access.out.value]
  | _ => []

/-- Moves the entry of the latch from execute, if there is one, into the memory access unit. -/
@[inline] def takeAccess (p : Pipeline) : Pipeline :=
  match p.latches.exMem with
  | some entry =>
    { p with
      access := { p.access with pending := some entry }
      latches := { p.latches with exMem := none } }
  | none => p

/-! ## Writeback -/

/-- Completes a writeback, which never stalls. A failed commit leaves the unit empty as well. -/
@[inline] def completeWriteback (p : Pipeline) : Pipeline × Except ExecutionError Status :=
  match p.writeback with
  | none => (p, .ok .idle)
  | some entry =>
    let (core, result) := p.core.commit entry
    ({ p with core, writeback := none }, result.map fun _ => .completed)

def writebackEvents (p : Pipeline) : List Event :=
  match p.writeback with
  | none => []
  | some entry =>
    p.core.commitEvents entry ++
      p.traced (match p.core.destination entry with
        | .ok written => [.retired entry.pc written entry.value]
        | .error _ => [])

/-- Moves the entry of the latch from the memory unit, if there is one, into the writeback unit. -/
@[inline] def takeWriteback (p : Pipeline) : Pipeline :=
  match p.latches.memWb with
  | some entry => { p with writeback := some entry, latches := { p.latches with memWb := none } }
  | none => p

end Pipeline

end Legv8
