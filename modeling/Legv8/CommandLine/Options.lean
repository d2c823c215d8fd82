import Legv8.Program.File

/-!
# Command line options

The first argument names a command; its options and its program file follow in any order. An option that
takes a value gets it from the same argument (`--name=value`, `-xvalue`, `-x=value`) or from the next one,
which must not look like an option. Behind `--` nothing is an option. No option may be repeated.

Arguments are read from left to right, values included, and the first that cannot be read or asks for
help decides: what follows it is not looked at.
-/
namespace Legv8.CommandLine

/-- Why a command line is not carried out. -/
inductive Refusal where
  | usage
  | help
  deriving DecidableEq

/-! ## Values -/

inductive ValueKind where
  | encoding
  | path
  /-- A number of 64 bits. -/
  | number
  deriving DecidableEq

/-- What is given with an option. -/
inductive Value where
  /-- Nothing but the option itself. -/
  | present
  | encoding (encoding : Program.Encoding)
  | path (path : String)
  | number (number : UInt64)
  deriving DecidableEq

def encodingOfName (name : String) : Except Refusal Program.Encoding :=
  match name with
  | "hex" => .ok .hex
  | "bin" => .ok .binary
  | _ => .error .usage

/-- The digits of a number, behind an optional plus sign. -/
def unsignedDigits (text : String) : List Char :=
  match text.toList with
  | '+' :: rest => rest
  | cs => cs

/-- A number of 64 bits in decimal digits. -/
def numberOfText (text : String) : Except Refusal UInt64 :=
  match unsignedDigits text with
  | [] => .error .usage
  | c :: rest =>
    match Text.numberBelow? Text.decimalDigit? 10 UInt64.size 0 (c :: rest) with
    | some value => .ok value.toUInt64
    | none => .error .usage

/-- A path, which must not be empty. -/
def pathOfText (text : String) : Except Refusal String :=
  if text = "" then .error .usage else .ok text

def ValueKind.read (kind : ValueKind) (text : String) : Except Refusal Value :=
  match kind with
  | .encoding => (encodingOfName text).map .encoding
  | .path => (pathOfText text).map .path
  | .number => (numberOfText text).map .number

/-! ## Arguments -/

structure OptionSpec where
  name : String
  letter : Option Char
  /-- The kind of the value, if the option takes one. -/
  kind : Option ValueKind
  deriving DecidableEq

/-- The arguments of a command, taken apart. -/
structure Arguments where
  program : Option String
  options : List (String × Value)
  deriving DecidableEq

namespace Arguments

def empty : Arguments := ⟨none, []⟩

/-- Adds an argument that is no option: the program file, of which there is one. -/
def addProgram (a : Arguments) (text : String) : Except Refusal Arguments :=
  match a.program with
  | some _ => .error .usage
  | none => (pathOfText text).map fun path => { a with program := some path }

/-- Adds arguments that are no options. -/
def addPrograms : Arguments → List String → Except Refusal Arguments
  | a, [] => .ok a
  | a, text :: rest =>
    match a.addProgram text with
    | .error refusal => .error refusal
    | .ok a => addPrograms a rest

/-- Adds an option, which must be new. -/
def addOption (a : Arguments) (name : String) (value : Value) : Except Refusal Arguments :=
  if a.options.any (·.1 == name) then .error .usage
  else .ok { a with options := a.options ++ [(name, value)] }

def has (a : Arguments) (name : String) : Bool := (a.options.lookup name).isSome

def encoding? (a : Arguments) (name : String) : Option Program.Encoding :=
  match a.options.lookup name with
  | some (.encoding encoding) => some encoding
  | _ => none

def path? (a : Arguments) (name : String) : Option String :=
  match a.options.lookup name with
  | some (.path path) => some path
  | _ => none

def number? (a : Arguments) (name : String) : Option UInt64 :=
  match a.options.lookup name with
  | some (.number number) => some number
  | _ => none

end Arguments

/-- The argument looks like an option. A single dash does not. -/
def looksLikeOption (arg : String) : Bool :=
  match arg.toList with
  | '-' :: _ :: _ => true
  | _ => false

/-- What an argument is when it comes where an option may stand. -/
inductive Shape where
  | separator
  | long (name : String) (attached : Option String)
  | short (letter : Char) (rest : List Char)
  | positional
  deriving DecidableEq

def shape (arg : String) : Shape :=
  match arg.toList with
  | ['-', '-'] => .separator
  | '-' :: '-' :: cs =>
    let name := String.ofList (cs.takeWhile (· ≠ '='))
    match cs.dropWhile (· ≠ '=') with
    | [] => .long name none
    | _ :: value => .long name (some (String.ofList value))
  | '-' :: c :: rest => .short c rest
  | _ => .positional

/-- The value attached to a short option, an equals sign before it left out. -/
def attachedValue : List Char → Option String
  | [] => none
  | '=' :: value => some (String.ofList value)
  | value => some (String.ofList value)

def findSpec (specs : List OptionSpec) (isIt : OptionSpec → Bool) : Except Refusal OptionSpec :=
  match specs.find? isIt with
  | some spec => .ok spec
  | none => .error .usage

inductive Contribution where
  | complete (a : Arguments)
  /-- It is an option whose value is the next argument. -/
  | needsValue (name : String) (kind : ValueKind)
  | endOfOptions

/-- Adds an option with a value yet to be read. -/
def addValue (a : Arguments) (name : String) (kind : ValueKind) (text : String) :
    Except Refusal Arguments :=
  match kind.read text with
  | .error refusal => .error refusal
  | .ok value => a.addOption name value

/-- Adds an option with the value attached to it, if any. -/
def contribute (a : Arguments) (spec : OptionSpec) (attached : Option String) :
    Except Refusal Contribution :=
  match spec.kind, attached with
  | some kind, some text => (addValue a spec.name kind text).map .complete
  | some kind, none => .ok (.needsValue spec.name kind)
  | none, none => (a.addOption spec.name .present).map .complete
  | none, some _ => .error .usage

def readArgument (specs : List OptionSpec) (a : Arguments) (arg : String) :
    Except Refusal Contribution :=
  match shape arg with
  | .separator => .ok .endOfOptions
  | .positional => (a.addProgram arg).map .complete
  | .long name attached =>
    if name = "help" ∧ attached = none then .error .help
    else
      match findSpec specs (·.name == name) with
      | .error refusal => .error refusal
      | .ok spec => contribute a spec attached
  | .short letter rest =>
    if letter = 'h' then .error .help
    else
      match findSpec specs (·.letter == some letter) with
      | .error refusal => .error refusal
      | .ok spec => contribute a spec (attachedValue rest)

def readArguments (specs : List OptionSpec) : Arguments → List String → Except Refusal Arguments
  | a, [] => .ok a
  | a, arg :: rest =>
    match readArgument specs a arg with
    | .error refusal => .error refusal
    | .ok .endOfOptions => a.addPrograms rest
    | .ok (.complete a) => readArguments specs a rest
    | .ok (.needsValue name kind) =>
      match rest with
      | [] => .error .usage
      | text :: rest =>
        if looksLikeOption text then .error .usage
        else
          match addValue a name kind text with
          | .error refusal => .error refusal
          | .ok a => readArguments specs a rest

/-! ## Commands -/

structure RunOptions where
  program : String
  encoding : Option Program.Encoding
  config : Option String
  intervalMs : Option UInt64
  maxCycles : Option UInt64
  sequential : Bool
  trace : Bool
  json : Bool
  deriving DecidableEq

inductive Command where
  | run (options : RunOptions)
  | listing (program : String) (encoding : Option Program.Encoding)
  deriving DecidableEq

/-- The program file, which every command needs. -/
def Arguments.programFile (a : Arguments) : Except Refusal String :=
  match a.program with
  | some path => .ok path
  | none => .error .usage

/-- The options of `run`. -/
def runSpecs : List OptionSpec :=
  [⟨"format", none, some .encoding⟩, ⟨"config", some 'c', some .path⟩,
    ⟨"interval-ms", none, some .number⟩, ⟨"max-cycles", none, some .number⟩,
    ⟨"sequential", none, none⟩, ⟨"trace", none, none⟩, ⟨"json", none, none⟩]

/-- The options of `disasm`. -/
def listingSpecs : List OptionSpec := [⟨"format", none, some .encoding⟩]

/-- The command `run`. -/
def readRun (args : List String) : Except Refusal Command := do
  let a ← readArguments runSpecs .empty args
  let program ← a.programFile
  return .run
    { program, encoding := a.encoding? "format", config := a.path? "config"
      intervalMs := a.number? "interval-ms", maxCycles := a.number? "max-cycles"
      sequential := a.has "sequential", trace := a.has "trace", json := a.has "json" }

/-- The command `disasm`. -/
def readListing (args : List String) : Except Refusal Command := do
  let a ← readArguments listingSpecs .empty args
  let program ← a.programFile
  return .listing program (a.encoding? "format")

def commandNames : List String := ["run", "disasm", "help"]

/-- The command `help`, which explains all commands or a named one. -/
def readHelp : List String → Refusal
  | [] => .help
  | [topic] => if commandNames.contains topic then .help else .usage
  | _ => .usage

/-- What an argument in the place of a command asks for. -/
def readOther (arg : String) : Refusal :=
  match shape arg with
  | .long name none => if name = "help" ∨ name = "version" then .help else .usage
  | .short letter _ => if letter = 'h' ∨ letter = 'V' then .help else .usage
  | _ => .usage

def readCommand : List String → Except Refusal Command
  | "run" :: args => readRun args
  | "disasm" :: args => readListing args
  | "help" :: topics => .error (readHelp topics)
  | arg :: _ => .error (readOther arg)
  | [] => .error .usage

end Legv8.CommandLine
