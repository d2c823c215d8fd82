import Legv8.Datapath.InFlight
import Legv8.Error
import Legv8.Isa.Instruction
import Legv8.Registers

/-!
# Operand read

A fetched word is accepted if it is in the subset and does not name the zero register as its destination.
An accepted instruction takes its operands from the register file.
-/
namespace Legv8.Fetched

def accept (e : Fetched) : Except ExecutionError Instruction :=
  match Instruction.decode? e.word with
  | none => .error (.unknownOpcode .decode e.word.opcodeField e.word e.pc)
  | some i => if i.writesZeroRegister then .error (.zeroRegisterWrite e.pc e.word) else .ok i

/-- The operands of an accepted instruction; a source that the format lacks counts as zero. -/
def operands (e : Fetched) (i : Instruction) (regs : Registers) : Issued :=
  { word := e.word
    nextPc := e.nextPc
    first := match i.sources.1 with
      | some r => regs.read r
      | none => 0
    second := match i.sources.2 with
      | some r => regs.read r
      | none => 0
    imm := i.imm
    dest := i.dest?
    reserved := false }

def issue (e : Fetched) (regs : Registers) : Except ExecutionError Issued :=
  match e.accept with
  | .error err => .error err
  | .ok i => .ok (e.operands i regs)

end Legv8.Fetched
