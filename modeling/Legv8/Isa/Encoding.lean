import Legv8.Isa.Instruction

/-!
# Encoding

The operand fields of a format, and the word in which an operation carries them. Bits that no operation
looks at count as fields, so that every word of the subset encodes some fields of its operation's format.
-/
namespace Legv8

/-- The operand fields of a word, each as wide as its format holds it. -/
inductive Fields where
  /-- Destination, halfword selector and immediate. -/
  | im (rd : BitVec 5) (hw : BitVec 2) (imm : BitVec 16)
  /-- Destination, two sources and the unused shift amount. -/
  | r (rd rn rm : BitVec 5) (shamt : BitVec 6)
  /-- Destination, source and unsigned immediate. -/
  | i (rd rn : BitVec 5) (imm : BitVec 12)
  /-- Transfer register, base, unused selector and signed offset. -/
  | d (rt rn : BitVec 5) (op2 : BitVec 2) (offset : BitVec 9)
  /-- Signed offset in words. -/
  | b (offset : BitVec 26)
  /-- Compared register and signed offset in words. -/
  | cb (rt : BitVec 5) (offset : BitVec 19)
  /-- The unused bits of the halt word. -/
  | system (payload : BitVec 21)
  deriving DecidableEq

/-- A field at bit `low` of an otherwise clear word. -/
def Word.place {n : Nat} (field : BitVec n) (low : UInt32) : Word :=
  UInt32.ofBitVec (field.setWidth 32) <<< low

namespace Fields

def format : Fields → Format
  | im .. => .im
  | r .. => .r
  | i .. => .i
  | d .. => .d
  | b .. => .b
  | cb .. => .cb
  | system .. => .system

/-- The word with the fields in place and a clear opcode. -/
def word : Fields → Word
  | im rd hw imm => .place rd 0 ||| .place imm 5 ||| .place hw 21
  | r rd rn rm shamt => .place rd 0 ||| .place rn 5 ||| .place shamt 10 ||| .place rm 16
  | i rd rn imm => .place rd 0 ||| .place rn 5 ||| .place imm 10
  | d rt rn op2 offset => .place rt 0 ||| .place rn 5 ||| .place op2 10 ||| .place offset 12
  | b offset => .place offset 0
  | cb rt offset => .place rt 0 ||| .place offset 5
  | system payload => .place payload 0

end Fields

/-- The word of an operation with operand fields of its format. -/
def Operation.encode (op : Operation) (fields : Fields) : Word :=
  (op.opcode <<< 21) ||| fields.word

end Legv8
