import Legv8.Isa.Operation
import Legv8.Isa.Register

/-!
# Decoded instructions

Decoding names the operation of a word and extends the immediate of its format to 64 bits. The register
fields keep whatever the word carries there; `dest?` and `sources` tell which of them are used.
-/
namespace Legv8

/-- Copies bit `bits - 1` of `value` into all higher bits, for widths from 1 to 64. -/
def signExtend (value bits : UInt64) : UInt64 :=
  let shift := 64 - bits
  ((value <<< shift).toInt64 >>> shift.toInt64).toUInt64

/-- A word with its operation and operands. -/
structure Instruction where
  word : Word
  op : Operation
  /-- Destination register; the transfer register of the D and CB formats. -/
  rd : Nat
  rn : Nat
  rm : Nat
  hw : Nat
  /-- The immediate, extended to 64 bits. -/
  imm : UInt64
  deriving DecidableEq

/-- The immediate of a word in a format: unsigned for IM and I, signed for D, CB and B. -/
def Word.immediate (w : Word) : Format → UInt64
  | .im => w.imm16.toUInt64
  | .i => w.imm12.toUInt64
  | .d => signExtend w.addr9.toUInt64 9
  | .cb => signExtend w.imm19.toUInt64 19
  | .b => signExtend w.imm26.toUInt64 26
  | .r | .system => 0

namespace Instruction

/-- The instruction that a word encodes; words outside the subset encode none. -/
def decode? (w : Word) : Option Instruction :=
  (Operation.ofWord? w).map fun op =>
    { word := w, op, rd := w.rd, rn := w.rn, rm := w.rm, hw := w.hw, imm := w.immediate op.format }

def dest? (i : Instruction) : Option Nat :=
  if i.op.writesRegister then some i.rd else none

def writesZeroRegister (i : Instruction) : Bool :=
  i.op.writesRegister && i.rd == Register.zero

/-- The registers read before execution, first and second operand. `MOVK` merges into its destination
and so reads it; a store reads its base and the value to store; CB reads the compared register. -/
def sources (i : Instruction) : Option Nat × Option Nat :=
  match i.op.format with
  | .im => (if i.op = .movk then some i.rd else none, none)
  | .r => (some i.rn, some i.rm)
  | .i => (some i.rn, none)
  | .d => (some i.rn, if i.op.isStore then some i.rd else none)
  | .cb => (some i.rd, none)
  | .b | .system => (none, none)

end Instruction

end Legv8
