import Legv8.Clock
import Legv8.Pipeline.Stages

/-!
# The pipelined machine

A pulse walks the stages back to front, so that every unit publishes into a latch that its consumer has
just emptied. Only fetch cannot do so in every pulse: the latch that it has published into is full when it
is to be launched again.

1. writeback retires its instruction and takes the next one;
2. the memory unit makes its access and takes the next instruction;
3. execute completes, a taken branch flushes the front end, a halt stops the machine;
4. decode completes; a fetch that ran outside memory stops the machine here;
5. fetch completes, and the next one is launched if its latch is free.
-/
namespace Legv8.Pipeline

/-- Discards what fetch, decode and the latches around decode hold. A discarded instruction gives back
its reservation, which is the newest. -/
def squash (p : Pipeline) : Pipeline :=
  let held := p.fetch.pending.toNat + p.decode.isSome.toNat + p.latches.ifId.isSome.toNat +
    p.latches.idEx.isSome.toNat
  let reserved := match p.latches.idEx with
    | some entry => entry.reserved
    | none => false
  { p with
    core := { p.core with
      reservations := if reserved then p.core.reservations.retract else p.core.reservations
      statistics :=
        { p.core.statistics with squashed := p.core.statistics.squashed + held } }
    latches := { p.latches with ifId := none, idEx := none }
    fetch := { p.fetch with pending := false }
    decode := none }

/-- Discards everything younger than the instruction in execute and goes on at `target`. -/
def flush (p : Pipeline) (target : UInt64) : Pipeline :=
  let p := p.squash
  { p with
    core := { p.core with
      pc := target
      statistics := { p.core.statistics with flushes := p.core.statistics.flushes + 1 } }
    execute := { p.execute with flushing := false } }

/-- Discards everything younger than a halt, which retires here. -/
def halt (p : Pipeline) (pc : UInt64) : Pipeline :=
  let p := p.squash
  { p with core := (p.core.retire .hlt).requestStop (.halted pc) }

inductive Flow where
  | next (p : Pipeline)
  | done (p : Pipeline)
  | failed (p : Pipeline) (error : ExecutionError)

def writebackPhase (p : Pipeline) : Flow :=
  match p.completeWriteback with
  | (p, .error err) => .failed p err
  | (p, .ok _) => .next p.takeWriteback

def accessPhase (p : Pipeline) : Flow :=
  let p := p.completeAccess.1
  .next (if p.access.pending.isNone then p.takeAccess else p)

/-- Takes the next instruction into execute, unless a flush is still to come. -/
@[inline] def admitExecute (p : Pipeline) : Pipeline :=
  if p.execute.pending.isNone && !p.execute.flushing then p.takeExecute else p

/-- Executes, and flushes or halts as the outcome demands. -/
def executePhase (p : Pipeline) : Flow :=
  match p.completeExecute p.drained with
  | (p, .error err) => .failed p err
  | (p, .ok (.status _)) => .next p.admitExecute
  | (p, .ok (.redirect target)) => .next (p.flush target).admitExecute
  | (p, .ok (.halt pc)) => .done (p.halt pc)

/-- Decodes. A fault reported here ends the pulse. -/
def decodePhase (p : Pipeline) : Flow :=
  match p.completeDecode p.nothingOlder with
  | (p, .error err) => .failed p err
  | (p, .ok _) =>
    if p.core.stop.isSome then .done p
    else .next (if p.decode.isNone then p.takeDecode else p)

def fetchPhase (p : Pipeline) : Flow :=
  let p := p.completeFetch.1
  .next (if !p.fetch.pending && p.latches.ifId.isNone then p.launchFetch else p)

/-- A part of a pulse, with the events that it emits. -/
structure Phase where
  run : Pipeline → Flow
  events : Pipeline → List Event

def phases : List Phase :=
  [⟨writebackPhase, writebackEvents⟩, ⟨accessPhase, accessEvents⟩,
    ⟨executePhase, fun p => p.executeEvents p.drained⟩,
    ⟨decodePhase, fun p => p.decodeEvents p.nothingOlder⟩, ⟨fetchPhase, fetchEvents⟩]

/-- Runs phases until one ends the pulse. -/
def runPhases : List Phase → Pipeline → Pipeline × Option ExecutionError
  | [], p => (p, none)
  | phase :: rest, p =>
    match phase.run p with
    | .next p => runPhases rest p
    | .done p => (p, none)
    | .failed p err => (p, some err)

/-- Runs phases until one ends the pulse, and records their events. -/
def recordPhases : List Phase → Recorded Pipeline → Recorded Pipeline × Option ExecutionError
  | [], r => (r, none)
  | phase :: rest, ⟨p, seen⟩ =>
    let events := seen ++ phase.events p
    match phase.run p with
    | .next p => recordPhases rest ⟨p, events⟩
    | .done p => (⟨p, events⟩, none)
    | .failed p err => (⟨p, events⟩, some err)

def countCycle (p : Pipeline) : Pipeline := { p with core := p.core.countCycle }

/-- Advances every stage by one cycle. Nothing happens while a stop is requested. A failed pulse keeps
what its earlier phases did. -/
def pulse (p : Pipeline) : Pipeline × Option ExecutionError :=
  if p.core.stop.isSome then (p, none) else runPhases phases p.countCycle

def recordPulse : Recorded Pipeline → Recorded Pipeline × Option ExecutionError
  | ⟨p, seen⟩ =>
    if p.core.stop.isSome then (⟨p, seen⟩, none) else recordPhases phases ⟨p.countCycle, seen⟩

def requestStop (p : Pipeline) (reason : StopReason) : Pipeline :=
  { p with core := p.core.requestStop reason }

def clearStop (p : Pipeline) : Pipeline := { p with core := p.core.clearStop }

/-- Replaces the contents of memory by a program, if it fits; everything else stays. -/
def loadProgram (p : Pipeline) (words : List Word) : Pipeline × Option ProgramError :=
  let (memory, error) := p.core.memory.loadProgram words
  ({ p with core := { p.core with memory } }, error)

def loadMemory (p : Pipeline) (words : List Word) : Except ProgramError Pipeline :=
  exceptOf (p.loadProgram words)

def listener : Listener Pipeline where
  stop p := p.core.stop
  requestStop := requestStop
  pulse _ p := p.pulse
  stop_requestStop p reason h := by simp [requestStop, Core.requestStop, StopReason.request, h]

def recorder : Listener (Recorded Pipeline) where
  stop r := r.state.core.stop
  requestStop r reason := { r with state := r.state.requestStop reason }
  pulse _ r := recordPulse r
  stop_requestStop r reason h := listener.stop_requestStop r.state reason h

theorem recordPhases_state (list : List Phase) (r : Recorded Pipeline) :
    ((recordPhases list r).1.state, (recordPhases list r).2) = runPhases list r.state := by
  induction list generalizing r with
  | nil => rfl
  | cons phase rest ih =>
    simp only [recordPhases, runPhases]
    cases phase.run r.state with
    | next p => exact ih _
    | done p => rfl
    | failed p err => rfl

/-- Recording changes nothing. -/
theorem recordPulse_state (r : Recorded Pipeline) :
    ((recordPulse r).1.state, (recordPulse r).2) = r.state.pulse := by
  by_cases h : r.state.core.stop.isSome <;> simp [recordPulse, pulse, h, recordPhases_state]

end Legv8.Pipeline
