import Legv8.Core
import Legv8.Datapath.InFlight
import Legv8.Isa.Instruction
import Legv8.Memory.Bus

/-!
# Memory access

Loads read a doubleword and keep the top of it, extended with zeros except for `LDURSW`. Stores write the
low bytes of the result. Every other result passes unchanged.
-/
namespace Legv8

structure Access where
  /-- What goes on to the commit; a store commits nothing and carries zero. -/
  out : Accessed
  bus : Bus
  /-- The width of a store, which takes its address and its bytes from the bus. -/
  stored : Option Nat
  /-- The reported addresses outside memory: the first of a load, all of a store. -/
  missing : List UInt64

@[inline] def Access.memory (access : Access) (mem : Memory) : Memory :=
  match access.stored with
  | some width => access.bus.write mem width
  | none => mem

/-- Carries out an access: memory changes, and addresses outside it are reported. -/
@[inline] def Core.settle (core : Core) (access : Access) : Core :=
  Core.reportFaults { core with memory := access.memory core.memory } access.missing

namespace Executed

/-- Hands a value on without touching memory. -/
@[inline] def pass (e : Executed) (value : UInt64) : Accessed := { word := e.word, nextPc := e.nextPc, value }

/-- The value that a load of `width` bits takes from a bus. -/
@[inline] def loaded (op : Operation) (bus : Bus) (width : Nat) : UInt64 :=
  if op = .ldursw then signExtend (bus.upper width) 32 else bus.upper width

@[inline] def access (e : Executed) (bus : Bus) (mem : Memory) : Access :=
  match Operation.ofWord? e.word with
  | none => { out := e.pass e.value, bus, stored := none, missing := [] }
  | some op =>
    match op.accessWidth? with
    | none => { out := e.pass e.value, bus, stored := none, missing := [] }
    | some width =>
      if op.isLoad then
        let (bus, missing) := Bus.read { bus with address := e.address } mem
        { out := e.pass (loaded op bus width), bus, stored := none, missing := missing.toList }
      else
        let bus : Bus := { address := e.address, data := e.value }
        { out := e.pass 0, bus, stored := some width, missing := bus.lost mem width }

end Executed

end Legv8
