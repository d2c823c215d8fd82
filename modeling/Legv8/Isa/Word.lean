/-!
# Instruction words

A LEGv8 instruction is one 32-bit word. Every operand is a slice of it; which slices mean something
depends on the instruction's format.
-/
namespace Legv8

/-- A 32-bit instruction word. -/
abbrev Word := UInt32

namespace Word

/-- The `width` bits of `w` from bit `low` upwards, for widths below 32. -/
@[inline] def slice (w : Word) (low width : UInt32) : UInt32 :=
  (w >>> low) &&& ((1 <<< width) - 1)

/-- The opcode field, bits 31 to 21. -/
def opcodeField (w : Word) : UInt32 := slice w 21 11

/-- The destination register field, bits 4 to 0; the transfer register of the D and CB formats. -/
def rd (w : Word) : Nat := (slice w 0 5).toNat

/-- The first source register field, bits 9 to 5. -/
def rn (w : Word) : Nat := (slice w 5 5).toNat

/-- The second source register field of the R format, bits 20 to 16. -/
def rm (w : Word) : Nat := (slice w 16 5).toNat

/-- The halfword selector of the IM format, bits 22 and 21. -/
def hw (w : Word) : Nat := (slice w 21 2).toNat

/-- The wide immediate of the IM format, bits 20 to 5. -/
def imm16 (w : Word) : UInt32 := slice w 5 16

/-- The arithmetic immediate of the I format, bits 21 to 10. -/
def imm12 (w : Word) : UInt32 := slice w 10 12

/-- The address offset of the D format, bits 20 to 12. -/
def addr9 (w : Word) : UInt32 := slice w 12 9

/-- The branch offset of the CB format, bits 23 to 5. -/
def imm19 (w : Word) : UInt32 := slice w 5 19

/-- The branch offset of the B format, bits 25 to 0. -/
def imm26 (w : Word) : UInt32 := slice w 0 26

/-- The four bytes of a word, most significant first. -/
def bytes (w : Word) : List UInt8 :=
  [(w >>> 24).toUInt8, (w >>> 16).toUInt8, (w >>> 8).toUInt8, w.toUInt8]

/-- The word whose bytes, most significant first, are `a b c d`. -/
def ofBytes (a b c d : UInt8) : Word :=
  (a.toUInt32 <<< 24) ||| (b.toUInt32 <<< 16) ||| (c.toUInt32 <<< 8) ||| d.toUInt32

/-- The bytes that one instruction occupies. -/
def size : Nat := 4

def image (words : List Word) : List UInt8 := words.flatMap bytes

end Word

end Legv8
