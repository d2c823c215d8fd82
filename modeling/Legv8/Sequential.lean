import Legv8.Datapath.Access
import Legv8.Datapath.Commit
import Legv8.Datapath.Execution
import Legv8.Datapath.Fetch
import Legv8.Datapath.Operands
import Legv8.Run

/-!
# The sequential machine

Executes one instruction to its end before the next one starts, over the same datapath as the pipeline
but without latches, hazards or flushes. Its results are what a pipelined run must come to.
-/
namespace Legv8

structure Sequential where
  core : Core
  fetch : Bus
  alu : Alu
  access : Bus
  deriving DecidableEq

namespace Sequential

/-- What a step returns: an error, or the stop reason if the machine has stopped. -/
abbrev StepResult := Except ExecutionError (Option StopReason)

def new (core : Core) : Sequential := { core, fetch := .new, alu := .new, access := .new }

def flags (s : Sequential) : Alu.Flags := s.alu.flags

def requestStop (s : Sequential) (reason : StopReason) : Sequential :=
  { s with core := s.core.requestStop reason }

def clearStop (s : Sequential) : Sequential := { s with core := s.core.clearStop }

/-- Requests a stop and ends the step with whatever is pending. -/
def stopWith (s : Sequential) (reason : StopReason) : Sequential × StepResult :=
  let s := s.requestStop reason
  (s, .ok s.core.stop)

/-- Retires an instruction whose access is done, and moves the program counter. -/
def retire (s : Sequential) (dest : Option Nat) (out : Accessed) (next : UInt64) :
    Sequential × StepResult :=
  match (s.core.reserve dest).commit out with
  | (core, .error err) => ({ s with core }, .error err)
  | (core, .ok _) => ({ s with core := { core with pc := next } }, .ok none)

/-- Makes the memory access of an executed instruction. A fault stops the machine before anything is
committed. -/
def accessAndRetire (s : Sequential) (dest : Option Nat) (out : Executed) (next : UInt64) :
    Sequential × StepResult :=
  let access := out.access s.access s.core.memory
  let s := { s with
    access := access.bus
    core := s.core.settle access }
  match s.core.stop with
  | some reason => (s, .ok (some reason))
  | none => s.retire dest access.out next

def perform (s : Sequential) (entry : Fetched) : Sequential × StepResult :=
  match entry.issue s.core.registers with
  | .error err => (s, .error err)
  | .ok issued =>
    match s.alu.execute issued with
    | .error err => (s, .error err)
    | .ok (.halt, alu) =>
      stopWith { s with alu, core := s.core.retire .hlt } (.halted entry.pc)
    | .ok (.forward out none, alu) =>
      accessAndRetire { s with alu } issued.dest out entry.nextPc
    | .ok (.forward out (some target), alu) =>
      accessAndRetire { s with alu, core := s.core.countTaken } issued.dest out target

/-- Executes one instruction, which counts as one cycle. A stopped machine does nothing. -/
def step (s : Sequential) : Sequential × StepResult :=
  match s.core.stop with
  | some reason => (s, .ok (some reason))
  | none =>
    let (entry, fetch) := s.fetch.fetch s.core.memory s.core.pc
    let s := { s with fetch, core := s.core.countCycle }
    match entry.fault with
    | some addr => s.stopWith (.memoryFault addr)
    | none => s.perform entry

def performEvents (s : Sequential) (entry : Fetched) : List Event :=
  match entry.issue s.core.registers with
  | .error _ => []
  | .ok issued =>
    match s.alu.execute issued with
    | .ok (.forward out _, _) =>
      let access := out.access s.access s.core.memory
      s.core.faultEvents access.missing ++
        if access.missing.isEmpty then (s.core.reserve issued.dest).commitEvents access.out else []
    | _ => []

def stepEvents (s : Sequential) : List Event :=
  match s.core.stop with
  | some _ => []
  | none =>
    let (entry, _) := s.fetch.fetch s.core.memory s.core.pc
    match entry.fault with
    | some addr => s.core.faultEvents [addr]
    | none => s.performEvents entry

/-- Steps until a step stops or fails. Before each step a used-up budget asks for a stop, so that the
step itself reports whatever is pending. `steps` counts the steps taken. -/
def advance (max : Option Nat) : (fuel steps : Nat) → Sequential → Sequential × Ending
  | 0, _, s => (s, .unfinished)
  | fuel + 1, steps, s =>
    match (if exhausted max steps then s.requestStop (.cycleLimit steps) else s).step with
    | (s, .error err) => (s, .failed err)
    | (s, .ok (some reason)) => (s, .stopped reason)
    | (s, .ok none) => advance max fuel (steps + 1) s

/-- Runs until the machine stops or has taken `max` steps. -/
def run (s : Sequential) (max : Option Nat) : Sequential × Ending := advance max (fuelFor max) 0 s

def recordStep : Recorded Sequential → Recorded Sequential × StepResult
  | ⟨s, seen⟩ =>
    let events := seen ++ s.stepEvents
    let (s, result) := s.step
    (⟨s, events⟩, result)

/-- Steps as `advance` does, and records the events. -/
def recordAdvance (max : Option Nat) :
    (fuel steps : Nat) → Recorded Sequential → Recorded Sequential × Ending
  | 0, _, r => (r, .unfinished)
  | fuel + 1, steps, ⟨s, seen⟩ =>
    match recordStep ⟨if exhausted max steps then s.requestStop (.cycleLimit steps) else s, seen⟩ with
    | (r, .error err) => (r, .failed err)
    | (r, .ok (some reason)) => (r, .stopped reason)
    | (r, .ok none) => recordAdvance max fuel (steps + 1) r

/-- Runs as `run` does, and records the events. -/
def recordRun (r : Recorded Sequential) (max : Option Nat) : Recorded Sequential × Ending :=
  recordAdvance max (fuelFor max) 0 r

theorem recordAdvance_state (max : Option Nat) (fuel steps : Nat) (r : Recorded Sequential) :
    ((recordAdvance max fuel steps r).1.state, (recordAdvance max fuel steps r).2) =
      advance max fuel steps r.state := by
  induction fuel generalizing steps r with
  | zero => rfl
  | succ fuel ih =>
    simp only [recordAdvance, recordStep, advance]
    generalize (if exhausted max steps then _ else _ : Sequential) = s
    rcases s.step with ⟨s, _ | _ | _⟩
    · rfl
    · exact ih _ _
    · rfl

end Sequential

end Legv8
