import Legv8.Isa.Word

/-!
# Operations

The 22 operations of the subset, their formats and their opcodes. An opcode field has 11 bits; the
formats with shorter opcodes let operand bits spill into its low end, so an operation owns an aligned
range of field values.
-/
namespace Legv8

inductive Format where
  /-- Wide immediate moves. -/
  | im
  /-- Arithmetic on two registers. -/
  | r
  /-- Arithmetic on a register and an immediate. -/
  | i
  /-- Loads and stores. -/
  | d
  /-- The unconditional branch. -/
  | b
  /-- Compare and branch. -/
  | cb
  /-- The halt word. -/
  | system
  deriving DecidableEq

/-- How many low bits of the opcode field hold operand bits. -/
def Format.spill : Format → UInt32
  | .im => 2
  | .i => 1
  | .b => 5
  | .cb => 3
  | .r | .d | .system => 0

inductive Operation where
  | hlt
  | b
  | movz
  | movk
  | add
  | adds
  | sub
  | subs
  | addi
  | addis
  | subi
  | subis
  | ldur
  | ldurb
  | ldurh
  | ldursw
  | stur
  | sturb
  | sturh
  | sturw
  | cbz
  | cbnz
  deriving DecidableEq

namespace Operation

/-- Every operation, once. -/
def all : List Operation :=
  [hlt, b, cbz, cbnz, movz, movk, add, adds, sub, subs, addi, addis, subi, subis,
    ldur, ldurb, ldurh, ldursw, stur, sturb, sturh, sturw]

def format : Operation → Format
  | hlt => .system
  | b => .b
  | movz | movk => .im
  | add | adds | sub | subs => .r
  | addi | addis | subi | subis => .i
  | ldur | ldurb | ldurh | ldursw | stur | sturb | sturh | sturw => .d
  | cbz | cbnz => .cb

/-- The first and the last opcode field of the operation. Operand bits vary between the two. -/
def fieldRange : Operation → UInt32 × UInt32
  | hlt => (0x000, 0x000)
  | b => (0x0A0, 0x0BF)
  | movz => (0x694, 0x697)
  | movk => (0x794, 0x797)
  | add => (0x458, 0x458)
  | adds => (0x558, 0x558)
  | sub => (0x658, 0x658)
  | subs => (0x758, 0x758)
  | addi => (0x488, 0x489)
  | addis => (0x588, 0x589)
  | subi => (0x688, 0x689)
  | subis => (0x788, 0x789)
  | ldur => (0x7C2, 0x7C2)
  | ldurb => (0x1C2, 0x1C2)
  | ldurh => (0x3C2, 0x3C2)
  | ldursw => (0x5C4, 0x5C4)
  | stur => (0x7C0, 0x7C0)
  | sturb => (0x1C0, 0x1C0)
  | sturh => (0x3C0, 0x3C0)
  | sturw => (0x5C0, 0x5C0)
  | cbz => (0x5A0, 0x5A7)
  | cbnz => (0x5A8, 0x5AF)

/-- The least opcode field of the operation: the field with all spilled operand bits clear. -/
def opcode (op : Operation) : UInt32 := op.fieldRange.1

/-- The operation owns a field that differs from its opcode in spilled bits only. -/
def owns (op : Operation) (field : UInt32) : Bool :=
  field >>> op.format.spill == op.opcode >>> op.format.spill

/-- The operation that owns each of the 2048 opcode fields. -/
def fieldTable : Array (Option Operation) :=
  ((List.range 2048).map fun field => all.find? (·.owns field.toUInt32)).toArray

@[inline] def ofField? (field : UInt32) : Option Operation :=
  if h : field.toNat < fieldTable.size then fieldTable[field.toNat] else none

def ofWord? (w : Word) : Option Operation := ofField? w.opcodeField

def mnemonic : Operation → String
  | hlt => "HLT"
  | b => "B"
  | movz => "MOVZ"
  | movk => "MOVK"
  | add => "ADD"
  | adds => "ADDS"
  | sub => "SUB"
  | subs => "SUBS"
  | addi => "ADDI"
  | addis => "ADDIS"
  | subi => "SUBI"
  | subis => "SUBIS"
  | ldur => "LDUR"
  | ldurb => "LDURB"
  | ldurh => "LDURH"
  | ldursw => "LDURSW"
  | stur => "STUR"
  | sturb => "STURB"
  | sturh => "STURH"
  | sturw => "STURW"
  | cbz => "CBZ"
  | cbnz => "CBNZ"

def isLoad : Operation → Bool
  | ldur | ldurb | ldurh | ldursw => true
  | _ => false

def isStore : Operation → Bool
  | stur | sturb | sturh | sturw => true
  | _ => false

def isBranch : Operation → Bool
  | b | cbz | cbnz => true
  | _ => false

/-- The arithmetic operations that leave their condition flags standing. -/
def setsFlags : Operation → Bool
  | adds | subs | addis | subis => true
  | _ => false

/-- Moves, arithmetic and loads commit a value to their destination register. -/
def writesRegister (op : Operation) : Bool :=
  match op.format with
  | .im | .r | .i => true
  | _ => op.isLoad

def accessWidth? : Operation → Option Nat
  | ldur | stur => some 64
  | ldursw | sturw => some 32
  | ldurh | sturh => some 16
  | ldurb | sturb => some 8
  | _ => none

theorem mem_all (op : Operation) : op ∈ all := by cases op <;> decide

/-- The fields that differ in spilled bits only are those from the first to the last one. -/
theorem owns_iff_mem_fieldRange {op : Operation} {field : UInt32} :
    op.owns field = true ↔ op.fieldRange.1 ≤ field ∧ field ≤ op.fieldRange.2 := by
  rw [owns, beq_iff_eq, ← UInt32.toNat_inj, UInt32.le_iff_toNat_le, UInt32.le_iff_toNat_le]
  cases op <;> simp [format, Format.spill, opcode, fieldRange, Nat.shiftRight_eq_div_pow] <;> omega

theorem owns_lt {op : Operation} {field : UInt32} (h : op.owns field = true) :
    field.toNat < 2048 := by
  have last := UInt32.le_iff_toNat_le.mp (owns_iff_mem_fieldRange.mp h).2
  have small : op.fieldRange.2.toNat < 2048 := by cases op <;> decide
  exact Nat.lt_of_le_of_lt last small

theorem ofField?_eq_find? (field : UInt32) : ofField? field = all.find? (·.owns field) := by
  unfold ofField?
  split
  · simp [fieldTable]
  · next h =>
    rw [eq_comm, List.find?_eq_none]
    intro op _ ho
    exact h (by simpa [fieldTable] using owns_lt ho)

end Operation

/-- The mnemonic of a word, or three question marks for a word outside the subset. -/
def Word.mnemonic (w : Word) : String :=
  match Operation.ofWord? w with
  | some op => op.mnemonic
  | none => "???"

end Legv8
