import Legv8.Error
import Legv8.Isa.Assembly

/-!
# Events

What a running machine reports about itself: the passage of instructions through the stages when tracing
is on, and every register commit and every access outside memory in any case.
-/
namespace Legv8

inductive Channel where
  | trace
  | warning
  | commit
  deriving DecidableEq

inductive Event where
  | fetched (pc : UInt64) (word : Word)
  | waiting (pc : UInt64) (register : Nat)
  | issued (pc : UInt64) (word : Word)
  | executed (pc value address : UInt64)
  | accessed (pc address value : UInt64)
  | committed (pc : UInt64) (register : Nat) (value : UInt64) (word : Word)
  | retired (pc : UInt64) (written : Option Nat) (value : UInt64)
  /-- An access left a memory of `size` bytes. -/
  | outOfRange (addr : UInt64) (size : Nat)
  deriving DecidableEq

namespace Event

def channel : Event → Channel
  | committed .. => .commit
  | outOfRange .. => .warning
  | _ => .trace

def written : Option Nat → String
  | some r => "Some(" ++ Text.decimal r ++ ")"
  | none => "None"

def fields : Event → List (String × String)
  | fetched pc word =>
    [("stage", Stage.fetch.name), ("pc", Text.hex pc.toNat), ("message", word.assembly)]
  | waiting pc register =>
    [("stage", Stage.decode.name), ("pc", Text.hex pc.toNat), ("reg", Text.decimal register),
      ("message", "waiting on locked register")]
  | issued pc word =>
    [("stage", Stage.decode.name), ("pc", Text.hex pc.toNat), ("message", word.assembly)]
  | executed pc value address =>
    [("stage", Stage.execute.name), ("pc", Text.hex pc.toNat), ("write_val", Text.hex value.toNat),
      ("addr", Text.hex address.toNat), ("message", "executed")]
  | accessed pc address value =>
    [("stage", Stage.memory.name), ("pc", Text.hex pc.toNat), ("addr", Text.hex address.toNat),
      ("value", Text.hex value.toNat), ("message", "memory stage")]
  | committed pc register value word =>
    [("pc", Text.hex pc.toNat), ("reg", Register.name register), ("value", Text.hex value.toNat),
      ("message", word.assembly)]
  | retired pc register value =>
    [("stage", Stage.writeback.name), ("pc", Text.hex pc.toNat), ("written", written register),
      ("value", Text.hex value.toNat), ("message", "retired")]
  | outOfRange addr size =>
    [("addr", Text.hex addr.toNat), ("size", Text.decimal size),
      ("message", "memory access out of range")]

end Event

/-- A state together with the events that led to it. -/
structure Recorded (σ : Type) where
  state : σ
  /-- The events so far, oldest first. -/
  events : Array Event

end Legv8
