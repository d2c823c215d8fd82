import Legv8.Proofs.Alu.Arithmetic
import Legv8.Proofs.Memory.BigEndian
import Legv8.Sequential

/-! # The meaning of the instructions

What programs can tell of a machine, and what each instruction makes of it, apart from any datapath:
registers and memory are functions, fields and operands are numbers, and results are numbers modulo 2^64. -/
namespace Legv8

/-- What programs and their callers can tell of a machine. -/
structure Architecture where
  registers : Nat → UInt64
  pc : UInt64
  flags : Alu.Flags
  /-- The bytes inside memory. -/
  memory : UInt64 → Option UInt8
  statistics : Statistics
  stop : Option StopReason

/-- What an instruction is about to do. -/
inductive Effect where
  /-- Writes the destination register. -/
  | write (value : UInt64)
  /-- Reads a number of some bytes into the destination register. -/
  | load (address : UInt64) (bytes : Nat) (signed : Bool)
  /-- Writes the low bytes of a value. -/
  | store (address : UInt64) (bytes : Nat) (value : UInt64)
  /-- Goes on at the target if there is one, and with the next instruction otherwise. -/
  | jump (target : Option UInt64)
  | halt

namespace Architecture

variable (a : Architecture)

/-! ## Memory -/

/-- The bytes from an address upwards, with a zero for each that is outside memory. -/
def bytes (address : UInt64) (n : Nat) : List UInt8 :=
  (Memory.span address n).map fun x => (a.memory x).getD 0

/-- The first of some bytes from an address upwards that is outside memory. -/
def firstOutside (address : UInt64) (n : Nat) : Option UInt64 :=
  (Memory.span address n).find? fun x => (a.memory x).isNone

/-- The instruction word at the program counter. -/
def word : Word := (bigEndian (a.bytes a.pc Word.size)).toUInt32

/-- What a load of some bytes comes to: a number, in two's complement if `signed`. -/
def loaded (address : UInt64) (n : Nat) (signed : Bool) : UInt64 :=
  let number := bigEndian (a.bytes address n)
  .ofInt (if signed then Int.bmod number (2 ^ (8 * n)) else number)

/-- Memory with the `n` low digits of a value, in base 256 and most significant first, from an address
upwards. -/
def stored (address : UInt64) (n : Nat) (value : UInt64) : UInt64 → Option UInt8 := fun x =>
  (a.memory x).map fun old =>
    let k := (x - address).toNat
    if k < n then .ofNat (value.toNat / 256 ^ (n - 1 - k)) else old

/-! ## Instructions -/

/-- The flags behind an instruction: those of its sum where it sets flags, standing over a halt, and clear
otherwise. A difference is the sum with the negated operand. -/
def flagsAfter (w : Word) (op : Operation) : Alu.Flags :=
  let first := a.registers (w.field 5 5)
  let second := a.registers (w.field 16 5)
  let constant := UInt64.ofInt (w.number op.format)
  match op with
  | .adds => .ofSum first second
  | .addis => .ofSum first constant
  | .subs => .ofSum first (.ofNat (2 ^ 64 - second.toNat))
  | .subis => .ofSum first (.ofNat (2 ^ 64 - constant.toNat))
  | .hlt => a.flags
  | _ => .clear

def effect (w : Word) (op : Operation) : Effect :=
  let first := a.registers (w.field 5 5)
  let second := a.registers (w.field 16 5)
  let transfer := a.registers (w.field 0 5)
  let constant := UInt64.ofInt (w.number op.format)
  let address := UInt64.ofInt (first.toNat + w.number op.format)
  let target := UInt64.ofInt (a.pc.toNat + 4 * w.number op.format)
  match op with
  | .hlt => .halt
  | .movz => .write (.ofNat (w.field 5 16 * 2 ^ (16 * w.field 21 2)))
  | .movk => .write (.ofNat (Alu.insertHalfword transfer.toNat (16 * w.field 21 2) (w.field 5 16)))
  | .add | .adds => .write (first + second)
  | .addi | .addis => .write (first + constant)
  | .sub | .subs => .write (first - second)
  | .subi | .subis => .write (first - constant)
  | .ldur => .load address 8 false
  | .ldurb => .load address 1 false
  | .ldurh => .load address 2 false
  | .ldursw => .load address 4 true
  | .stur => .store address 8 transfer
  | .sturb => .store address 1 transfer
  | .sturh => .store address 2 transfer
  | .sturw => .store address 4 transfer
  | .b => .jump (some target)
  | .cbz => .jump (if transfer = 0 then some target else none)
  | .cbnz => .jump (if transfer ≠ 0 then some target else none)

/-- Counts a finished instruction and goes on at `next`. -/
def retire (op : Operation) (next : UInt64) : Architecture :=
  { a with pc := next, statistics := a.statistics.retire op }

def put (r : Nat) (value : UInt64) : Architecture :=
  { a with registers := fun q => if q = r then value else a.registers q }

def stopWith (reason : StopReason) : Architecture := { a with stop := some reason }

def countTaken : Architecture :=
  { a with statistics := { a.statistics with taken := a.statistics.taken + 1 } }

def countCycle : Architecture :=
  { a with statistics := { a.statistics with cycles := a.statistics.cycles + 1 } }

/-- Carries out an effect of an operation, which leaves the flags `flags`. A transfer with a byte outside
memory is not finished: the machine stops at the first such byte, and neither the registers nor the program
counter nor the counts of finished instructions change. A load always touches eight bytes. -/
def apply (w : Word) (op : Operation) (flags : Alu.Flags) : Effect → Architecture
  | .write value => ({ a with flags }.put (w.field 0 5) value).retire op (a.pc + 4)
  | .load address n signed =>
    match a.firstOutside address 8 with
    | some x => { a with flags }.stopWith (.memoryFault x)
    | none => ({ a with flags }.put (w.field 0 5) (a.loaded address n signed)).retire op (a.pc + 4)
  | .store address n value =>
    match a.firstOutside address n with
    | some x => { a with flags, memory := a.stored address n value }.stopWith (.memoryFault x)
    | none => { a with flags, memory := a.stored address n value }.retire op (a.pc + 4)
  | .jump none => { a with flags }.retire op (a.pc + 4)
  | .jump (some target) => { a.countTaken with flags }.retire op target
  | .halt => ({ a with flags }.retire op a.pc).stopWith (.halted a.pc)

/-- Performs an accepted instruction. -/
def perform (w : Word) (op : Operation) : Architecture :=
  a.apply w op (a.flagsAfter w op) (a.effect w op)

/-- One instruction. A word outside the subset and a write to the zero register fail and change
nothing but the count of cycles. -/
def step : Architecture × Sequential.StepResult :=
  match a.firstOutside a.pc Word.size with
  | some x => (a.countCycle.stopWith (.memoryFault x), .ok (some (.memoryFault x)))
  | none =>
    match Operation.ofWord? a.word with
    | none => (a.countCycle, .error (.unknownOpcode .decode (.ofNat (a.word.field 21 11)) a.word a.pc))
    | some op =>
      if op.writesRegister ∧ a.word.field 0 5 = Register.zero then
        (a.countCycle, .error (.zeroRegisterWrite a.pc a.word))
      else (a.countCycle.perform a.word op, .ok (a.countCycle.perform a.word op).stop)

end Architecture

/-- What can be told of the sequential machine. -/
def Sequential.architecture (s : Sequential) : Architecture where
  registers := s.core.registers.read
  pc := s.core.pc
  flags := s.flags
  memory := s.core.memory.byte?
  statistics := s.core.statistics
  stop := s.core.stop

end Legv8
