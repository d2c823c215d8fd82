import Legv8.Config
import Legv8.Files
import Legv8.Json.Codec

/-!
# Configurations as JSON

A configuration is an object of three sections, `general`, `memory` and `clock`, and each of them is an
object of its settings. What is read is checked before it is used.
-/
namespace Legv8.Config

variable (codec : Json.Codec)

def GeneralSection.record : Json.Record GeneralSection where
  fields :=
    [⟨"trace_instructions", codec.bool, tracing, fun tracing s => { s with tracing }⟩,
      ⟨"start_pc", codec.uint64, startPc, fun startPc s => { s with startPc }⟩]
  default := .default
  nodup := by simp
  apart := by simp [Json.Field.Apart]

def MemorySection.record : Json.Record MemorySection where
  fields := [⟨"size_bytes", codec.uint64, memorySize, fun memorySize s => { s with memorySize }⟩]
  default := .default
  nodup := by simp
  apart := by simp

def ClockSection.record : Json.Record ClockSection where
  fields :=
    [⟨"interval_ms", codec.uint64, intervalMs, fun intervalMs s => { s with intervalMs }⟩,
      ⟨"max_cycles", codec.optional codec.uint64, maxCycles, fun maxCycles s => { s with maxCycles }⟩]
  default := .default
  nodup := by simp
  apart := by simp [Json.Field.Apart]

def record : Json.Record Config where
  fields :=
    [⟨"general", codec.record (GeneralSection.record codec), toGeneralSection,
        fun toGeneralSection c => { c with toGeneralSection }⟩,
      ⟨"memory", codec.record (MemorySection.record codec), toMemorySection,
        fun toMemorySection c => { c with toMemorySection }⟩,
      ⟨"clock", codec.record (ClockSection.record codec), toClockSection,
        fun toClockSection c => { c with toClockSection }⟩]
  default := .default
  nodup := by simp
  apart := by simp [Json.Field.Apart]

/-- How a configuration stands in JSON. -/
def form : Json.Form Config := codec.record (record codec)

/-- Reads and checks a configuration. -/
def read (text : String) : Except ConfigError Config :=
  match codec.fromText (form codec) text with
  | none => .error .malformed
  | some c =>
    match c.validate with
    | .error err => .error err
    | .ok () => .ok c

/-- Reads and checks the configuration in a file, from what reading the file came to. -/
def readFile (path : String) : Except ReadError ByteArray → Except ConfigError Config
  | .error cause => .error (.unreadable path cause)
  | .ok bytes =>
    match textOfBytes bytes with
    | .error cause => .error (.unreadable path cause)
    | .ok text => read codec text

/-- The text of a configuration, with all of its settings. -/
def write (c : Config) : String := codec.toText (form codec) c

end Legv8.Config
