import Legv8.CommandLine.Options
import Legv8.Config.Standard
import Legv8.Isa.Assembly
import Legv8.Pipeline.Snapshot
import Legv8.Simulator
import Legv8.Statistics.Report

/-!
# The command line

Runs a program on the pipelined or the sequential machine and prints its final state, or prints a listing.
The exit status tells how it went: 0 after a halt, 1 after an error, 2 after a memory fault or for a
command line that is not understood, 3 when the budget is used up.
-/
namespace Legv8.CommandLine

structure Result where
  exit : Nat
  stdout : String
  fatal : Option String
  deriving DecidableEq

namespace Result

def success (stdout : String) : Result := ⟨0, stdout, none⟩

/-- An error; nothing is printed. -/
def failure (message : String) : Result := ⟨1, "", some message⟩

end Result

/-- The budget of a run when nothing else is said. -/
def defaultBudget : UInt64 := 10000000

def usageLine : String :=
  "usage: run PROGRAM [--format hex|bin] [-c FILE] [--interval-ms N] [--max-cycles N] " ++
    "[--sequential] [--trace] [--json] | disasm PROGRAM [--format hex|bin]\n"

/-- The settings of a run laid over a configuration. -/
def RunOptions.apply (o : RunOptions) (c : Config) : Config :=
  { c with
    intervalMs := o.intervalMs.getD c.intervalMs
    maxCycles := some ((o.maxCycles <|> c.maxCycles).getD defaultBudget)
    tracing := c.tracing || o.trace }

/-- The line that tells why a machine stopped, and an empty line. -/
def stopLines : StopReason → String
  | .halted pc => "[*] HLT at " ++ Text.hex pc.toNat ++ "\n\n"
  | .memoryFault addr => "[!] Memory fault at " ++ Text.hex addr.toNat ++ "\n\n"
  | .cycleLimit cycles => "[!] Cycle limit reached after " ++ Text.decimal cycles ++ " cycles\n\n"
  | .external => "[*] Stopped\n\n"

def exitStatus : StopReason → Nat
  | .halted _ | .external => 0
  | .memoryFault _ => 2
  | .cycleLimit _ => 3

/-- The final state for readers: stop reason, registers and statistics. -/
def finalText (reason : StopReason) (core : Core) : String :=
  stopLines reason ++ core.registers.table ++ "\n" ++ core.statistics.report

/-- The final state of a sequential machine as JSON, members in the order of their names. -/
def sequentialJson (reason : StopReason) (s : Sequential) : Json :=
  .ofMembers (Json.sortMembers
    [("stop_reason", reason.toJson),
      ("pc", .ofNat s.core.pc.toNat),
      ("registers", s.core.registers.toJson),
      ("flags", .ofMembers (Json.sortMembers s.flags.members)),
      ("stats", .ofMembers (Json.sortMembers s.core.statistics.members))])

/-- The result of a run that ended, given the output for its stop reason. -/
def resultOf (ending : Ending) (output : StopReason → String) : Result :=
  match ending with
  | .stopped reason => ⟨exitStatus reason, output reason, none⟩
  | .failed err => .failure err.message
  | .unfinished => .failure "the run did not end"

def runSequential (o : RunOptions) (s : Sequential) (budget : Option Nat) : Result :=
  let (s, ending) := s.run budget
  resultOf ending fun reason =>
    if o.json then (sequentialJson reason s).pretty ++ "\n" else finalText reason s.core

def runPipelined (o : RunOptions) (sim : Simulator) : Result :=
  let (sim, ending) := sim.run
  resultOf ending fun reason =>
    if o.json then sim.pipeline.snapshot.pretty ++ "\n" else finalText reason sim.pipeline.core

def runProgram (o : RunOptions) (config : Config) (words : List Word) : Result :=
  match Simulator.new config with
  | .error err => .failure err.message
  | .ok sim =>
    match sim.load words with
    | .error err => .failure err.message
    | .ok sim =>
      if o.sequential then
        match sim.sequential words with
        | .error err => .failure err.message
        | .ok s => runSequential o s config.budget
      else runPipelined o sim

variable {m : Type → Type} [Monad m]

/-- The configuration of a run over the one in its file, checked once more. -/
def overlayOptions (o : RunOptions) (base : Except ConfigError Config) :
    Except ConfigError Config :=
  match base with
  | .error err => .error err
  | .ok c =>
    match (o.apply c).validate with
    | .error err => .error err
    | .ok () => .ok (o.apply c)

/-- The configuration of a run, read through `read` if a file is named. -/
def loadConfig (read : String → m (Except ReadError ByteArray)) (o : RunOptions) :
    m (Except ConfigError Config) := do
  match o.config with
  | none => return overlayOptions o (.ok .default)
  | some path => return overlayOptions o (Config.parseFile path (← read path))

/-- Carries out a command. The configuration is read before the program. -/
def perform (read : String → m (Except ReadError ByteArray)) : Command → m Result
  | .run o => do
    match ← loadConfig read o with
    | .error err => return .failure err.message
    | .ok config =>
      match ← Program.load read o.program o.encoding with
      | .error err => return .failure err.message
      | .ok words => return runProgram o config words
  | .listing program encoding => do
    match ← Program.load read program encoding with
    | .error err => return .failure err.message
    | .ok words => return .success (String.join ((listing 0 words).map (· ++ "\n")))

def run (read : String → m (Except ReadError ByteArray)) (args : List String) : m Result :=
  match readCommand args with
  | .error .usage => return ⟨2, "", none⟩
  | .error .help => return .success usageLine
  | .ok command => perform read command

end Legv8.CommandLine
