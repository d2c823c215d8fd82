import Legv8.Config
import Legv8.Pipeline
import Legv8.Sequential

/-!
# The simulator

A pipelined machine with the clock that drives it, built from a configuration.
-/
namespace Legv8

structure Simulator where
  pipeline : Pipeline
  clock : Clock
  config : Config
  deriving DecidableEq

/-- A core over a memory, started as a configuration says. -/
def Core.ofConfig (config : Config) (memory : Memory) : Core :=
  .new memory config.startPc config.tracing

namespace Simulator

def new (config : Config) : Except ConfigError Simulator :=
  match config.validate with
  | .error err => .error err
  | .ok () =>
    .ok
      { pipeline := .new (.ofConfig config (.new config.memorySize.toNat))
        clock := .new config.intervalMs
        config }

/-- Puts a program at address 0 and resets the machine. There is no reset behind a program that does not
fit. -/
def loadProgram (sim : Simulator) (words : List Word) : Simulator × Option ProgramError :=
  match sim.pipeline.loadProgram words with
  | (pipeline, some err) => ({ sim with pipeline }, some err)
  | (pipeline, none) => ({ sim with pipeline := pipeline.reset }, none)

def load (sim : Simulator) (words : List Word) : Except ProgramError Simulator :=
  exceptOf (sim.loadProgram words)

/-- Runs the machine until it stops, fails, or has used up the configured budget. -/
def run (sim : Simulator) : Simulator × Ending :=
  let (clock, pipeline, ending) := sim.clock.run Pipeline.listener sim.config.budget sim.pipeline
  ({ sim with clock, pipeline }, ending)

/-- Runs the machine as `run` does, and records the events. -/
def recordRun : Recorded Simulator → Recorded Simulator × Ending
  | ⟨⟨pipeline, clock, config⟩, seen⟩ =>
    let (clock, r, ending) := clock.run Pipeline.recorder config.budget ⟨pipeline, seen⟩
    (⟨⟨r.state, clock, config⟩, r.events⟩, ending)

def step (sim : Simulator) : Simulator × Option ExecutionError :=
  let (pipeline, error) := sim.pipeline.pulse
  ({ sim with pipeline }, error)

def recordStep : Recorded Simulator → Recorded Simulator × Option ExecutionError
  | ⟨⟨pipeline, clock, config⟩, seen⟩ =>
    let (r, error) := Pipeline.recordPulse ⟨pipeline, seen⟩
    (⟨⟨r.state, clock, config⟩, r.events⟩, error)

def requestStop (sim : Simulator) (reason : StopReason) : Simulator :=
  { sim with pipeline := sim.pipeline.requestStop reason }

def clearStop (sim : Simulator) : Simulator := { sim with pipeline := sim.pipeline.clearStop }

/-- A fresh sequential machine over a program, in a memory of the configured size. -/
def sequential (sim : Simulator) (words : List Word) : Except ProgramError Sequential :=
  match Memory.ofProgram sim.config.memorySize.toNat words with
  | .error err => .error err
  | .ok memory => .ok (.new (.ofConfig sim.config memory))

end Simulator

end Legv8
