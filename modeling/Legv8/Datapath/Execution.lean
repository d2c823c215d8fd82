import Legv8.Alu
import Legv8.Datapath.InFlight
import Legv8.Error
import Legv8.Isa.Instruction

/-!
# Execution

Moves, arithmetic, effective addresses and branch targets all go through the arithmetic logic unit. The
flags stand after the flag-setting arithmetic only; everything else but a halt leaves them clear.
-/
namespace Legv8

inductive Execution where
  /-- A result for the memory stage, and the target if a branch is taken. -/
  | forward (out : Executed) (target : Option UInt64)
  /-- The machine halts; nothing is forwarded. -/
  | halt
  deriving DecidableEq

namespace Alu

/-- The target of a branch: its own address plus the offset in words. -/
@[inline] def jumpTarget (alu : Alu) (e : Issued) : UInt64 := (alu.add (e.nextPc - 4) (e.imm <<< 2)).1

/-- The shift that a halfword selector stands for. -/
@[inline] def halfwordShift (alu : Alu) (w : Word) : UInt64 := (alu.multiply w.hw.toUInt64 16).low

/-- Forwards a result; the flags stand if `keep` holds. -/
@[inline] def result (e : Issued) (value : UInt64) (alu : Alu) (keep : Bool) : Execution × Alu :=
  (.forward { word := e.word, nextPc := e.nextPc, value, address := 0 } none,
    if keep then alu else alu.clearFlags)

/-- Forwards an effective address and the value to store there. -/
@[inline] def transfer (e : Issued) (address value : UInt64) (alu : Alu) : Execution × Alu :=
  (.forward { word := e.word, nextPc := e.nextPc, value, address } none, alu.clearFlags)

@[inline] def jump (e : Issued) (alu : Alu) (taken : Bool) : Execution × Alu :=
  (.forward { word := e.word, nextPc := e.nextPc, value := 0, address := 0 }
    (if taken then some (alu.jumpTarget e) else none), alu.clearFlags)

/-- Executes an operation on the operands of `e`. -/
def perform (alu : Alu) (op : Operation) (e : Issued) : Execution × Alu :=
  match op with
  | .hlt => (.halt, alu)
  | .movz => result e (e.imm <<< alu.halfwordShift e.word) alu false
  | .movk =>
    let shift := alu.halfwordShift e.word
    result e ((e.first &&& ~~~(0xFFFF <<< shift)) ||| (e.imm <<< shift)) alu false
  | .add | .adds =>
    let (sum, alu) := alu.add e.first e.second
    result e sum alu op.setsFlags
  | .addi | .addis =>
    let (sum, alu) := alu.add e.first e.imm
    result e sum alu op.setsFlags
  | .sub | .subs =>
    let (difference, alu) := alu.sub e.first e.second
    result e difference alu op.setsFlags
  | .subi | .subis =>
    let (difference, alu) := alu.sub e.first e.imm
    result e difference alu op.setsFlags
  | .ldur | .ldurb | .ldurh | .ldursw =>
    let (address, alu) := alu.add e.first e.imm
    transfer e address 0 alu
  | .stur | .sturb | .sturh | .sturw =>
    let (address, alu) := alu.add e.first e.imm
    transfer e address e.second alu
  | .b => jump e alu true
  | .cbz =>
    let (_, alu) := alu.add e.first 0
    jump e alu alu.flags.zero
  | .cbnz =>
    let (_, alu) := alu.add e.first 0
    jump e alu (!alu.flags.zero)

def execute (alu : Alu) (e : Issued) : Except ExecutionError (Execution × Alu) :=
  match Operation.ofWord? e.word with
  | none => .error (.unknownOpcode .execute e.word.opcodeField e.word e.pc)
  | some op => .ok (alu.perform op e)

end Alu

end Legv8
