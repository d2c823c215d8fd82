import Legv8.Proofs.Memory.Programs
import Legv8.Proofs.Pipeline.Phases
import Legv8.Simulator

/-! # Loading erases history

A simulator serves requests: loads, steps, runs, and from outside stops and their withdrawal. Whatever it
has served, its machine keeps what it was built with: where it starts, whether it traces and how large its
memory is. A load that succeeds restores everything else, also behind a run that failed in the middle of a
pulse, so that no later request can tell the simulator from a fresh one. A load that fails restores
nothing. -/
namespace Legv8

/-! ## What a machine is built with -/

/-- The start address, whether the machine traces, and the size of its memory. -/
def Core.build (core : Core) : UInt64 × Bool × Nat := (core.resetPc, core.tracing, core.memory.size)

theorem Core.build_settle (core : Core) (x : Executed) (bus : Bus) :
    (core.settle (x.access bus core.memory)).build = core.build := by
  unfold settle
  rw [reportFaults_eq, build, build, x.size_access bus core.memory]

namespace Pipeline

variable {p : Pipeline}

/-- No pulse changes what the machine is built with, whatever becomes of the pulse. -/
theorem build_pulse (p : Pipeline) : p.pulse.1.core.build = p.core.build :=
  core_pulse (fun _ _ _ _ _ => rfl) (fun _ _ _ => rfl) Core.build_settle p

theorem pulse_listener (clock : Clock) (p : Pipeline) : listener.pulse clock p = p.pulse := rfl

/-- A clock only pulses the machine and asks it to stop. -/
theorem build_drive (max : Option Nat) (fuel delivered : Nat) (clock : Clock) (p : Pipeline) :
    (Clock.drive listener max fuel delivered clock p).2.1.core.build = p.core.build := by
  induction fuel generalizing delivered clock p with
  | zero => rfl
  | succ fuel ih =>
    unfold Clock.drive
    split
    · rfl
    · split
      · rfl
      · have kept := build_pulse p
        rw [pulse_listener]
        rcases h : p.pulse with ⟨q, _ | err⟩ <;> rw [h] at kept
        · exact (ih _ _ q).trans kept
        · exact kept

/-- What a run does to the machine does not depend on the clock that drives it. -/
theorem drive_clock (max : Option Nat) (fuel delivered : Nat) (clock other : Clock) (p : Pipeline) :
    (Clock.drive listener max fuel delivered clock p).2 =
      (Clock.drive listener max fuel delivered other p).2 := by
  induction fuel generalizing delivered clock other p with
  | zero => rfl
  | succ fuel ih =>
    unfold Clock.drive
    split
    · rfl
    · split
      · rfl
      · rw [pulse_listener, pulse_listener]
        rcases p.pulse with ⟨q, _ | err⟩
        · exact ih _ _ _ q
        · rfl

end Pipeline

/-! ## Requests -/

/-- What a simulator can be asked for. -/
inductive Request where
  | load (words : List Word)
  | step
  | run
  /-- A stop from outside. -/
  | requestStop (reason : StopReason)
  /-- The withdrawal of a stop. -/
  | clearStop

/-- What a request returns. -/
inductive Answer where
  | loaded (error : Option ProgramError)
  | stepped (error : Option ExecutionError)
  | ran (ending : Ending)
  | done

namespace Simulator

/-- Serves a request. -/
def serve (sim : Simulator) : Request → Simulator × Answer
  | .load words => ((sim.loadProgram words).1, .loaded (sim.loadProgram words).2)
  | .step => (sim.step.1, .stepped sim.step.2)
  | .run => (sim.run.1, .ran sim.run.2)
  | .requestStop reason => (sim.requestStop reason, .done)
  | .clearStop => (sim.clearStop, .done)

/-- The simulator after it has served some requests. -/
def after (sim : Simulator) : List Request → Simulator
  | [] => sim
  | request :: rest => (sim.serve request).1.after rest

/-- What the requests return, each with the machine that it leaves behind. -/
def answers (sim : Simulator) : List Request → List (Answer × Pipeline)
  | [] => []
  | request :: rest =>
    ((sim.serve request).2, (sim.serve request).1.pipeline) :: (sim.serve request).1.answers rest

variable {c : Config} {sim sim' : Simulator}

/-- The simulator has the configuration, and its machine is built by it. -/
structure Configured (c : Config) (sim : Simulator) : Prop where
  config : sim.config = c
  build : sim.pipeline.core.build = (c.startPc, c.tracing, c.memorySize.toNat)

theorem configured_new (h : new c = .ok sim) : Configured c sim := by
  unfold new at h
  split at h
  · cases h
  · cases h
    exact ⟨rfl, by simp only [Core.build, Pipeline.new, Core.ofConfig, Core.new, Memory.size_new]⟩

/-- Nothing is left behind a load but the configuration and a clock that nobody reads: the machine is new,
over a memory with the program. -/
theorem Configured.loadProgram_eq (built : Configured c sim) (words : List Word) :
    sim.loadProgram words = match Memory.ofProgram c.memorySize.toNat words with
      | .ok memory => ({ sim with pipeline := .new (.ofConfig c memory) }, none)
      | .error err => (sim, some err) := by
  obtain ⟨start, tracing, size⟩ :
      sim.pipeline.core.resetPc = c.startPc ∧ sim.pipeline.core.tracing = c.tracing ∧
        sim.pipeline.core.memory.size = c.memorySize.toNat := by
    simpa only [Core.build, Prod.mk.injEq] using built.build
  unfold loadProgram Pipeline.loadProgram
  rw [Memory.loadProgram_eq, size]
  cases Memory.ofProgram c.memorySize.toNat words with
  | error err => rfl
  | ok memory =>
    simp only [Pipeline.reset_eq, Core.ofConfig, start, tracing]

theorem Configured.serve (built : Configured c sim) (request : Request) :
    Configured c (sim.serve request).1 := by
  cases request with
  | load words =>
    unfold Simulator.serve
    dsimp only
    rw [built.loadProgram_eq words]
    cases h : Memory.ofProgram c.memorySize.toNat words with
    | error err => exact built
    | ok memory => exact ⟨built.config, congrArg (c.startPc, c.tracing, ·) (Memory.size_ofProgram h)⟩
  | step => exact ⟨built.config, (Pipeline.build_pulse _).trans built.build⟩
  | run => exact ⟨built.config, (Pipeline.build_drive _ _ _ _ _).trans built.build⟩
  | requestStop reason => exact ⟨built.config, built.build⟩
  | clearStop => exact ⟨built.config, built.build⟩

theorem Configured.after (built : Configured c sim) (history : List Request) :
    Configured c (sim.after history) := by
  induction history generalizing sim with
  | nil => exact built
  | cons request rest ih => exact ih (built.serve request)

/-! ## Simulators that cannot be told apart -/

/-- Only their clocks tell the simulators apart. -/
structure Alike (sim sim' : Simulator) : Prop where
  pipeline : sim.pipeline = sim'.pipeline
  config : sim.config = sim'.config

theorem Alike.serve (alike : Alike sim sim') (request : Request) :
    (sim.serve request).2 = (sim'.serve request).2 ∧
      Alike (sim.serve request).1 (sim'.serve request).1 := by
  obtain ⟨pipeline, clock, config⟩ := sim
  obtain ⟨_, clock', _⟩ := sim'
  obtain ⟨rfl, rfl⟩ : pipeline = _ ∧ config = _ := ⟨alike.pipeline, alike.config⟩
  cases request with
  | load words =>
    unfold Simulator.serve loadProgram
    dsimp only
    rcases pipeline.loadProgram words with ⟨loaded, _ | err⟩ <;> exact ⟨rfl, rfl, rfl⟩
  | step => exact ⟨rfl, rfl, rfl⟩
  | run =>
    have same := Pipeline.drive_clock config.budget (fuelFor config.budget) 0
      { clock with running := true } { clock' with running := true } pipeline
    exact ⟨congrArg (fun r : Pipeline × Ending => Answer.ran r.2) same,
      congrArg (fun r : Pipeline × Ending => r.1) same, rfl⟩
  | requestStop reason => exact ⟨rfl, rfl, rfl⟩
  | clearStop => exact ⟨rfl, rfl, rfl⟩

theorem Alike.answers (alike : Alike sim sim') (requests : List Request) :
    sim.answers requests = sim'.answers requests := by
  induction requests generalizing sim sim' with
  | nil => rfl
  | cons request rest ih =>
    obtain ⟨answer, left⟩ := alike.serve request
    rw [Simulator.answers, Simulator.answers, answer, left.pipeline, ih left]

/-- Whatever a simulator has served, a load of a program that fits leaves the machine of a fresh simulator
with the program, and every later request returns the same and leaves the same machine. A program that does
not fit is refused with its length and the size of memory, and everything stays as it is.

A stop that arrives during a run takes effect between two pulses; for the machine such a run is as many
steps, the stop and a run that returns at once. -/
theorem load_erases_history (valid : c.validate = .ok ()) : ∃ new₀, new c = .ok new₀ ∧
    ∀ (history : List Request) (words : List Word),
      (Word.size * words.length ≤ c.memorySize.toNat → ∃ loaded fresh,
        (new₀.after history).load words = .ok loaded ∧ new₀.load words = .ok fresh ∧
          loaded.pipeline = fresh.pipeline ∧ ∀ later, loaded.answers later = fresh.answers later) ∧
      (c.memorySize.toNat < Word.size * words.length →
        (new₀.after history).load words = .error (.tooLarge words.length c.memorySize.toNat) ∧
          (new₀.after history).loadProgram words =
            (new₀.after history, some (.tooLarge words.length c.memorySize.toNat)) ∧
          ((new₀.after history).serve (.load words)).1 = new₀.after history) := by
  obtain ⟨new₀, made⟩ : ∃ new₀, new c = .ok new₀ := by
    unfold new
    rw [valid]
    exact ⟨_, rfl⟩
  have first := configured_new made
  refine ⟨new₀, made, fun history words => ?_⟩
  have later := first.after history
  refine ⟨fun fits => ?_, fun large => ?_⟩
  · have program : Memory.ofProgram c.memorySize.toNat words = .ok _ := if_neg (Nat.not_lt.mpr fits)
    have loaded := later.loadProgram_eq words
    have fresh := first.loadProgram_eq words
    rw [program] at loaded fresh
    exact ⟨_, _, congrArg exceptOf loaded, congrArg exceptOf fresh, rfl,
      Alike.answers ⟨rfl, later.config.trans first.config.symm⟩⟩
  · have refused := later.loadProgram_eq words
    rw [show Memory.ofProgram c.memorySize.toNat words = .error _ from if_pos large] at refused
    exact ⟨congrArg exceptOf refused, refused, congrArg Prod.fst refused⟩

/-- A run into a bad opcode, which fails in the middle of a pulse, a stop from outside and a refused load
leave no trace behind a load of a halt. -/
theorem load_erases_failedRun : ∃ new₀ loaded fresh, new { Config.default with memorySize := 8 } = .ok new₀ ∧
    (new₀.after [.load [0xD2800021, 0xFFFFFFFF], .step, .run, .requestStop .external, .load [0, 0, 0]]).load
      [0] = .ok loaded ∧
    new₀.load [0] = .ok fresh ∧ loaded.pipeline = fresh.pipeline ∧
      ∀ later, loaded.answers later = fresh.answers later := by
  obtain ⟨new₀, made, loads⟩ := load_erases_history
    (show Config.validate { Config.default with memorySize := 8 } = .ok () from rfl)
  obtain ⟨loaded, fresh, same⟩ := (loads
    [.load [0xD2800021, 0xFFFFFFFF], .step, .run, .requestStop .external, .load [0, 0, 0]] [0]).1 (by decide)
  exact ⟨new₀, loaded, fresh, made, same⟩

end Simulator

end Legv8
