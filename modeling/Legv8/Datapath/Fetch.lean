import Legv8.Datapath.InFlight
import Legv8.Memory.Bus

/-!
# Instruction fetch

A fetch is an eight-byte read of which the upper half is the instruction. Bytes missing from the lower
half do not matter; the first missing byte of the instruction is carried along as its fault.
-/
namespace Legv8

/-- Reads the instruction at `pc`. -/
@[inline] def Bus.fetch (bus : Bus) (mem : Memory) (pc : UInt64) : Fetched × Bus :=
  let (bus, missing) := Bus.read { bus with address := pc } mem
  ({ word := (bus.upper 32).toUInt32
     nextPc := pc + 4
     fault := missing.filter fun addr => addr - pc < 4 }, bus)

end Legv8
