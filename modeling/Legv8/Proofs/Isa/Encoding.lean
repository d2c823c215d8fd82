import Legv8.Isa.Encoding
import Legv8.Proofs.Isa.Fields

/-! # Encoding and decoding

A word of the subset begins with the code of its operation, no code begins another one, and behind the
code the fields of the format follow each other down to bit 0. So a word is a sum, of its code and of its
fields, each times a power of two, and reading a field takes a digit of that sum. Decoding an encoded word
gives back the operation and the operands, and every word that decodes is the encoding of what it decodes
to, but for the bits that its format does not use. -/
namespace Legv8

/-! ## Operands -/

/-- The operands that the instructions of a format use, as numbers. -/
inductive Operands where
  | im (rd hw imm : Nat)
  | r (rd rn rm : Nat)
  | i (rd rn imm : Nat)
  | d (rt rn : Nat) (offset : Int)
  | b (offset : Int)
  | cb (rt : Nat) (offset : Int)
  | system
  deriving DecidableEq

namespace Operands

def format : Operands → Format
  | im .. => .im
  | r .. => .r
  | i .. => .i
  | d .. => .d
  | b .. => .b
  | cb .. => .cb
  | system => .system

/-- Every operand is one that its field can hold. -/
def InRange : Operands → Prop
  | im rd hw imm => rd < 32 ∧ hw < 4 ∧ imm < 65536
  | r rd rn rm => rd < 32 ∧ rn < 32 ∧ rm < 32
  | i rd rn imm => rd < 32 ∧ rn < 32 ∧ imm < 4096
  | d rt rn offset => rt < 32 ∧ rn < 32 ∧ -256 ≤ offset ∧ offset < 256
  | b offset => -33554432 ≤ offset ∧ offset < 33554432
  | cb rt offset => rt < 32 ∧ -262144 ≤ offset ∧ offset < 262144
  | system => True

/-- The fields that carry the operands, with the unused bits clear. -/
def fields : Operands → Fields
  | im rd hw imm => .im (.ofNat 5 rd) (.ofNat 2 hw) (.ofNat 16 imm)
  | r rd rn rm => .r (.ofNat 5 rd) (.ofNat 5 rn) (.ofNat 5 rm) 0
  | i rd rn imm => .i (.ofNat 5 rd) (.ofNat 5 rn) (.ofNat 12 imm)
  | d rt rn offset => .d (.ofNat 5 rt) (.ofNat 5 rn) 0 (.ofInt 9 offset)
  | b offset => .b (.ofInt 26 offset)
  | cb rt offset => .cb (.ofNat 5 rt) (.ofInt 19 offset)
  | system => .system 0

theorem format_fields (o : Operands) : o.fields.format = o.format := by
  cases o <;> rfl

end Operands

/-- The operands that an instruction uses. Offsets are read in two's complement. -/
def Instruction.operands (i : Instruction) : Operands :=
  let offset := i.imm.toInt64.toInt
  match i.op.format with
  | .im => .im i.rd i.hw i.imm.toNat
  | .r => .r i.rd i.rn i.rm
  | .i => .i i.rd i.rn i.imm.toNat
  | .d => .d i.rd i.rn offset
  | .b => .b offset
  | .cb => .cb i.rd offset
  | .system => .system

namespace Fields

/-- The operands that the fields carry. -/
def operands : Fields → Operands
  | im rd hw imm => .im rd.toNat hw.toNat imm.toNat
  | r rd rn rm _ => .r rd.toNat rn.toNat rm.toNat
  | i rd rn imm => .i rd.toNat rn.toNat imm.toNat
  | d rt rn _ offset => .d rt.toNat rn.toNat offset.toInt
  | b offset => .b offset.toInt
  | cb rt offset => .cb rt.toNat offset.toInt
  | system _ => .system

/-- The fields with the unused bits clear. -/
def plain : Fields → Fields
  | r rd rn rm _ => .r rd rn rm 0
  | d rt rn _ offset => .d rt rn 0 offset
  | system _ => .system 0
  | f => f

theorem format_operands (f : Fields) : f.operands.format = f.format := by
  cases f <;> rfl

theorem inRange_operands (f : Fields) : f.operands.InRange := by
  cases f with
  | im rd hw imm => exact ⟨rd.isLt, hw.isLt, imm.isLt⟩
  | r rd rn rm shamt => exact ⟨rd.isLt, rn.isLt, rm.isLt⟩
  | i rd rn imm => exact ⟨rd.isLt, rn.isLt, imm.isLt⟩
  | d rt rn op2 offset => exact ⟨rt.isLt, rn.isLt, offset.le_toInt, offset.toInt_lt⟩
  | b offset => exact ⟨offset.le_toInt, offset.toInt_lt⟩
  | cb rt offset => exact ⟨rt.isLt, offset.le_toInt, offset.toInt_lt⟩
  | system payload => trivial

theorem fields_operands (f : Fields) : f.operands.fields = f.plain := by
  cases f <;> simp [operands, Operands.fields, plain]

end Fields

/-- The fields made for operands carry them. -/
theorem Operands.InRange.operands_fields {o : Operands} (h : o.InRange) : o.fields.operands = o := by
  cases o with
  | im rd hw imm =>
    obtain ⟨hd, hh, hi⟩ := h
    simp [fields, Fields.operands, Nat.mod_eq_of_lt hd, Nat.mod_eq_of_lt hh, Nat.mod_eq_of_lt hi]
  | r rd rn rm =>
    obtain ⟨hd, hn, hm⟩ := h
    simp [fields, Fields.operands, Nat.mod_eq_of_lt hd, Nat.mod_eq_of_lt hn, Nat.mod_eq_of_lt hm]
  | i rd rn imm =>
    obtain ⟨hd, hn, hi⟩ := h
    simp [fields, Fields.operands, Nat.mod_eq_of_lt hd, Nat.mod_eq_of_lt hn, Nat.mod_eq_of_lt hi]
  | d rt rn offset =>
    obtain ⟨ht, hn, lower, upper⟩ := h
    have signed : Int.bmod offset 512 = offset := Int.bmod_eq_of_le (by omega) (by omega)
    simp [fields, Fields.operands, Nat.mod_eq_of_lt ht, Nat.mod_eq_of_lt hn, signed]
  | b offset =>
    obtain ⟨lower, upper⟩ := h
    have signed : Int.bmod offset 67108864 = offset := Int.bmod_eq_of_le (by omega) (by omega)
    simp [fields, Fields.operands, signed]
  | cb rt offset =>
    obtain ⟨ht, lower, upper⟩ := h
    have signed : Int.bmod offset 524288 = offset := Int.bmod_eq_of_le (by omega) (by omega)
    simp [fields, Fields.operands, Nat.mod_eq_of_lt ht, signed]
  | system => rfl

/-! ## Fields as a sum -/

namespace Word

theorem toNat_place {n : Nat} (field : BitVec n) (low : UInt32) (inside : n + low.toNat ≤ 32)
    (short : low.toNat < 32) : (place field low).toNat = 2 ^ low.toNat * field.toNat := by
  have small : field.toNat < 2 ^ 32 :=
    Nat.lt_of_lt_of_le field.isLt (Nat.pow_le_pow_right (by decide) (by omega))
  have shifted : 2 ^ low.toNat * field.toNat < 2 ^ 32 := by
    calc 2 ^ low.toNat * field.toNat
      _ < 2 ^ low.toNat * 2 ^ n := Nat.mul_lt_mul_of_pos_left field.isLt (Nat.two_pow_pos _)
      _ = 2 ^ (n + low.toNat) := by rw [Nat.pow_add, Nat.mul_comm]
      _ ≤ 2 ^ 32 := Nat.pow_le_pow_right (by decide) inside
  rw [place, UInt32.toNat_shiftLeft, UInt32.toNat_ofBitVec, BitVec.toNat_setWidth,
    Nat.mod_eq_of_lt short, Nat.mod_eq_of_lt small, Nat.shiftLeft_eq, Nat.mul_comm,
    Nat.mod_eq_of_lt shifted]

/-- A field above everything that is in a word is added to it. -/
theorem toNat_or_place {w : Word} {v n weight : Nat} (value : w.toNat = v) (field : BitVec n) (low : UInt32)
    (inside : n + low.toNat ≤ 32) (short : low.toNat < 32) (power : 2 ^ low.toNat = weight)
    (below : v < weight) : (w ||| place field low).toNat = v + weight * field.toNat := by
  subst value power
  rw [UInt32.toNat_or, toNat_place field low inside short, Nat.or_comm,
    ← Nat.two_pow_add_eq_or_of_lt below, Nat.add_comm]

section Low

variable {n : Nat} (first second : BitVec 5) (field : BitVec n)

theorem toNat_place_zero (inside : n ≤ 32) : (place field 0).toNat = field.toNat := by
  rw [toNat_place field 0 inside (by decide)]
  exact Nat.one_mul _

/-- One register field, and a field behind it. -/
theorem toNat_behind_one (inside : n ≤ 27) :
    (place first 0 ||| place field 5).toNat = first.toNat + 32 * field.toNat :=
  toNat_or_place (toNat_place_zero first (by decide)) field 5 (Nat.add_le_add_right inside 5) (by decide)
    rfl first.isLt

/-- Two register fields, and a field behind them. -/
theorem toNat_behind_two (inside : n ≤ 22) :
    (place first 0 ||| place second 5 ||| place field 10).toNat =
      first.toNat + 32 * second.toNat + 1024 * field.toNat :=
  toNat_or_place (toNat_behind_one first second (by decide)) field 10 (Nat.add_le_add_right inside 10)
    (by decide) rfl (by omega)

end Low

end Word

namespace Fields

/-- The number that the word of the fields spells. -/
def value : Fields → Nat
  | im rd hw imm => rd.toNat + 32 * imm.toNat + 2097152 * hw.toNat
  | r rd rn rm shamt => rd.toNat + 32 * rn.toNat + 1024 * shamt.toNat + 65536 * rm.toNat
  | i rd rn imm => rd.toNat + 32 * rn.toNat + 1024 * imm.toNat
  | d rt rn op2 offset => rt.toNat + 32 * rn.toNat + 1024 * op2.toNat + 4096 * offset.toNat
  | b offset => offset.toNat
  | cb rt offset => rt.toNat + 32 * offset.toNat
  | system payload => payload.toNat

theorem toNat_word (f : Fields) : f.word.toNat = f.value := by
  cases f with
  | im rd hw imm =>
    have low := Word.toNat_behind_one rd imm (by decide)
    exact Word.toNat_or_place low hw 21 (by decide) (by decide) rfl (by omega)
  | r rd rn rm shamt =>
    have low := Word.toNat_behind_two rd rn shamt (by decide)
    exact Word.toNat_or_place low rm 16 (by decide) (by decide) rfl (by omega)
  | i rd rn imm => exact Word.toNat_behind_two rd rn imm (by decide)
  | d rt rn op2 offset =>
    have low := Word.toNat_behind_two rt rn op2 (by decide)
    exact Word.toNat_or_place low offset 12 (by decide) (by decide) rfl (by omega)
  | b offset => exact Word.toNat_place_zero offset (by decide)
  | cb rt offset => exact Word.toNat_behind_one rt offset (by decide)
  | system payload => exact Word.toNat_place_zero payload (by decide)

theorem value_lt (f : Fields) : f.value < 2 ^ (21 + f.format.spill.toNat) := by
  cases f <;>
    simp only [value, format, Format.spill, UInt32.reduceToNat, Nat.reduceAdd, Nat.reducePow] <;>
    omega

end Fields

/-! ## Codes -/

namespace Operation

/-- The bits of the opcode above those that hold operands. -/
def code (op : Operation) : Nat := op.opcode.toNat / 2 ^ op.format.spill.toNat

theorem opcode_eq (op : Operation) : op.opcode.toNat = 2 ^ op.format.spill.toNat * op.code := by
  cases op <;> rfl

theorem owns_iff (op : Operation) (field : UInt32) :
    op.owns field = true ↔ field.toNat / 2 ^ op.format.spill.toNat = op.code := by
  have short : op.format.spill.toNat % 32 = op.format.spill.toNat := by cases op <;> rfl
  rw [owns, beq_iff_eq, ← UInt32.toNat_inj, UInt32.toNat_shiftRight, UInt32.toNat_shiftRight, short,
    Nat.shiftRight_eq_div_pow, Nat.shiftRight_eq_div_pow, code]

/-- No code begins another one. -/
theorem eq_of_code_eq : ∀ op ∈ all, ∀ other ∈ all, op.format.spill ≤ other.format.spill →
    op.opcode.toNat / 2 ^ other.format.spill.toNat = other.code → op = other := by
  decide +kernel

theorem eq_of_owns {op other : Operation} {field : UInt32} (h : op.owns field = true)
    (h' : other.owns field = true) : op = other := by
  have longer : ∀ op other : Operation, op.owns field = true → other.owns field = true →
      op.format.spill ≤ other.format.spill → op = other := by
    intro op other h h' le
    refine eq_of_code_eq op (mem_all op) other (mem_all other) le ?_
    rw [owns_iff] at h h'
    rw [UInt32.le_iff_toNat_le] at le
    have split : 2 ^ other.format.spill.toNat =
        2 ^ op.format.spill.toNat * 2 ^ (other.format.spill.toNat - op.format.spill.toNat) := by
      rw [← Nat.pow_add, Nat.add_sub_cancel' le]
    rw [← h', split, ← Nat.div_div_eq_div_mul, ← Nat.div_div_eq_div_mul, h]
    rfl
  rcases UInt32.le_total op.format.spill other.format.spill with le | le
  · exact longer op other h h' le
  · exact (longer other op h' h le).symm

theorem ofField?_eq_some_iff {field : UInt32} {op : Operation} :
    ofField? field = some op ↔ op.owns field = true := by
  rw [ofField?_eq_find?]
  constructor
  · intro h
    exact List.find?_some (p := fun op => owns op field) h
  · intro h
    have owned : (all.find? (·.owns field)).isSome = true := List.find?_isSome.mpr ⟨op, mem_all op, h⟩
    obtain ⟨other, found⟩ := Option.isSome_iff_exists.mp owned
    rw [found, eq_of_owns (List.find?_some (p := fun op => owns op field) found) h]

/-- A word is one of an operation if it begins with the code of the operation. -/
theorem ofWord?_eq_some_iff {w : Word} {op : Operation} :
    ofWord? w = some op ↔ w.toNat / 2 ^ (21 + op.format.spill.toNat) = op.code := by
  have field : w.opcodeField.toNat = w.toNat / 2 ^ 21 := by
    have bound := w.toNat_lt
    have value : w.opcodeField.toNat = w.field 21 11 := w.toNat_slice (by decide) (by decide)
    rw [value, Word.field]
    omega
  rw [ofWord?, ofField?_eq_some_iff, owns_iff, field, Nat.div_div_eq_div_mul, ← Nat.pow_add]

section Encode

variable {op : Operation} {f : Fields} (h : f.format = op.format)
include h

theorem toNat_encode :
    (op.encode f).toNat = 2 ^ (21 + op.format.spill.toNat) * op.code + f.value := by
  have small : op.opcode.toNat < 2048 := by cases op <;> decide
  have top : (op.opcode <<< 21).toNat = 2 ^ (21 + op.format.spill.toNat) * op.code := by
    rw [UInt32.toNat_shiftLeft, Nat.pow_add, Nat.mul_assoc, ← opcode_eq, Nat.shiftLeft_eq]
    simp only [UInt32.reduceToNat, Nat.reduceMod, Nat.reducePow]
    omega
  have below := f.value_lt
  rw [h] at below
  rw [encode, UInt32.toNat_or, top, f.toNat_word, ← Nat.two_pow_add_eq_or_of_lt below]

theorem ofWord?_encode : ofWord? (op.encode f) = some op := by
  have below := f.value_lt
  rw [h] at below
  rw [ofWord?_eq_some_iff, toNat_encode h, Nat.mul_add_div (Nat.two_pow_pos _), Nat.div_eq_of_lt below,
    Nat.add_zero]

end Encode

end Operation

/-! ## Fields of a word -/

namespace Word

/-- The fields of a word in a format. -/
def fields (w : Word) : Format → Fields
  | .im => .im (.ofNat 5 (w.field 0 5)) (.ofNat 2 (w.field 21 2)) (.ofNat 16 (w.field 5 16))
  | .r =>
    .r (.ofNat 5 (w.field 0 5)) (.ofNat 5 (w.field 5 5)) (.ofNat 5 (w.field 16 5))
      (.ofNat 6 (w.field 10 6))
  | .i => .i (.ofNat 5 (w.field 0 5)) (.ofNat 5 (w.field 5 5)) (.ofNat 12 (w.field 10 12))
  | .d =>
    .d (.ofNat 5 (w.field 0 5)) (.ofNat 5 (w.field 5 5)) (.ofNat 2 (w.field 10 2))
      (.ofNat 9 (w.field 12 9))
  | .b => .b (.ofNat 26 (w.field 0 26))
  | .cb => .cb (.ofNat 5 (w.field 0 5)) (.ofNat 19 (w.field 5 19))
  | .system => .system (.ofNat 21 (w.field 0 21))

theorem format_fields (w : Word) (format : Format) : (w.fields format).format = format := by
  cases format <;> rfl

end Word

/-- The fields of an encoded word are those that were encoded. -/
theorem Operation.fields_encode {op : Operation} {f : Fields} (h : f.format = op.format) :
    (op.encode f).fields op.format = f := by
  have value := toNat_encode h
  rw [← h] at value ⊢
  cases f <;>
    simp only [Fields.value, Fields.format, Format.spill, UInt32.reduceToNat, Nat.reduceAdd,
      Nat.reducePow] at value <;>
    simp only [Fields.format, Word.fields, Word.field, value, Fields.im.injEq, Fields.r.injEq,
      Fields.i.injEq, Fields.d.injEq, Fields.b.injEq, Fields.cb.injEq, Fields.system.injEq,
      ← BitVec.toNat_inj, BitVec.toNat_ofNat] <;>
    omega

/-- A word is made up of the code of its operation and of its fields. -/
theorem Operation.encode_fields {w : Word} {op : Operation} (h : ofWord? w = some op) :
    op.encode (w.fields op.format) = w := by
  have bound := w.toNat_lt
  rw [ofWord?_eq_some_iff] at h
  rw [← UInt32.toNat_inj, toNat_encode (w.format_fields op.format), ← h]
  cases op.format <;>
    simp only [Word.fields, Fields.value, Word.field, BitVec.toNat_ofNat, Format.spill,
      UInt32.reduceToNat, Nat.reduceAdd, Nat.reducePow] <;>
    omega

/-! ## Unused bits -/

namespace Word

/-- The word with the bits cleared that no operation of a format looks at: the shift amount of R, the
selector of D, and all that follows the opcode of a halt. -/
def used (w : Word) : Format → Word
  | .r => w &&& 0xFFFF03FF
  | .d => w &&& 0xFFFFF3FF
  | .system => w &&& 0xFFE00000
  | .im | .i | .b | .cb => w

theorem field_and (v w : Word) (low width : Nat) :
    (v &&& w).field low width = v.field low width &&& w.field low width := by
  simp only [field, UInt32.toNat_and, Nat.and_div_two_pow, Nat.and_mod_two_pow]

theorem field_and_of_ones {w mask : Word} {low width : Nat} (ones : mask.field low width = 2 ^ width - 1) :
    (w &&& mask).field low width = w.field low width := by
  rw [field_and, ones, Nat.and_two_pow_sub_one_eq_mod, Nat.mod_eq_of_lt (w.field_lt low width)]

theorem field_and_of_zeros {w mask : Word} {low width : Nat} (zeros : mask.field low width = 0) :
    (w &&& mask).field low width = 0 := by
  rw [field_and, zeros, Nat.and_zero]

theorem fields_used (w : Word) (format : Format) :
    (w.used format).fields format = (w.fields format).plain := by
  cases format <;>
    simp (disch := decide) only [used, fields, Fields.plain, field_and_of_ones, field_and_of_zeros] <;>
    rfl

theorem ofWord?_used (w : Word) (format : Format) :
    Operation.ofWord? (w.used format) = Operation.ofWord? w := by
  have kept : (w.used format).field 21 11 = w.field 21 11 := by
    cases format <;> simp (disch := decide) only [used, field_and_of_ones]
  rw [Operation.ofWord?, opcodeField_eq, kept, ← opcodeField_eq, Operation.ofWord?]

end Word

/-! ## Decoding -/

theorem toInt_ofInt {z : Int} (lower : -0x8000000000000000 ≤ z) (upper : z < 0x8000000000000000) :
    (UInt64.ofInt z).toInt64.toInt = z := by
  change (UInt64.ofInt z).toBitVec.toInt = z
  rw [toBitVec_ofInt, BitVec.toInt_ofInt]
  exact Int.bmod_eq_of_le (by omega) (by omega)

namespace Word

section Immediates

variable (w : Word) (format : Format) (low width : Nat) (narrow : width ≤ 32)
include narrow

theorem toNat_immediate (number : w.number format = w.field low width) :
    (w.immediate format).toNat = (BitVec.ofNat width (w.field low width)).toNat := by
  have bound := w.field_lt low width
  have wide : 2 ^ width ≤ 2 ^ 32 := Nat.pow_le_pow_right (by decide) narrow
  rw [immediate_eq, number, ofInt_natCast, UInt64.toNat_ofNat', BitVec.toNat_ofNat,
    Nat.mod_eq_of_lt bound]
  exact Nat.mod_eq_of_lt (by omega)

theorem toInt_immediate (number : w.number format = w.signedField low width) :
    (w.immediate format).toInt64.toInt = (BitVec.ofNat width (w.field low width)).toInt := by
  have value : (BitVec.ofNat width (w.field low width)).toInt = w.signedField low width := by
    rw [BitVec.toInt_eq_toNat_bmod, BitVec.toNat_ofNat, Nat.mod_eq_of_lt (w.field_lt low width),
      signedField]
  have wide : 2 ^ width ≤ 2 ^ 32 := Nat.pow_le_pow_right (by decide) narrow
  have lower := Int.le_bmod (x := w.field low width) (Nat.two_pow_pos width)
  have upper := Int.bmod_lt (x := w.field low width) (Nat.two_pow_pos width)
  rw [← signedField] at lower upper
  rw [immediate_eq, number, value]
  exact toInt_ofInt (by omega) (by omega)

end Immediates

end Word

namespace Instruction

variable {w : Word} {i : Instruction}

/-- The operands of a decoded instruction are those that the fields of its word carry. -/
theorem operands_of_decode? (h : decode? w = some i) : i.operands = (w.fields i.op.format).operands := by
  obtain ⟨op, _, rfl⟩ := Option.map_eq_some_iff.mp h
  have register : ∀ low, (BitVec.ofNat 5 (w.field low 5)).toNat = w.field low 5 := by
    intro low
    rw [BitVec.toNat_ofNat, Nat.mod_eq_of_lt (w.field_lt low 5)]
  have selector : (BitVec.ofNat 2 (w.field 21 2)).toNat = w.field 21 2 := by
    rw [BitVec.toNat_ofNat, Nat.mod_eq_of_lt (w.field_lt 21 2)]
  simp only [operands, w.rd_eq, w.rn_eq, w.rm_eq, w.hw_eq]
  cases op.format with
  | im =>
    have imm := w.toNat_immediate .im 5 16 (by decide) rfl
    simp only [Word.fields, Fields.operands, register, selector, imm]
  | r => simp only [Word.fields, Fields.operands, register]
  | i =>
    have imm := w.toNat_immediate .i 10 12 (by decide) rfl
    simp only [Word.fields, Fields.operands, register, imm]
  | d =>
    have offset := w.toInt_immediate .d 12 9 (by decide) rfl
    simp only [Word.fields, Fields.operands, register, offset]
  | b =>
    have offset := w.toInt_immediate .b 0 26 (by decide) rfl
    simp only [Word.fields, Fields.operands, offset]
  | cb =>
    have offset := w.toInt_immediate .cb 5 19 (by decide) rfl
    simp only [Word.fields, Fields.operands, register, offset]
  | system => rfl

theorem exists_decode?_encode {op : Operation} {o : Operands} (format : o.format = op.format)
    (inRange : o.InRange) :
    ∃ i, decode? (op.encode o.fields) = some i ∧ i.op = op ∧ i.operands = o := by
  have suits : o.fields.format = op.format := o.format_fields.trans format
  obtain ⟨i, decoded, hop⟩ : ∃ i, decode? (op.encode o.fields) = some i ∧ i.op = op := by
    unfold decode?
    rw [Operation.ofWord?_encode suits]
    exact ⟨_, rfl, rfl⟩
  refine ⟨i, decoded, hop, ?_⟩
  rw [operands_of_decode? decoded, hop, Operation.fields_encode suits, inRange.operands_fields]

theorem encode_of_decode? (h : decode? w = some i) :
    i.operands.format = i.op.format ∧ i.operands.InRange ∧
      i.op.encode i.operands.fields = w.used i.op.format := by
  obtain ⟨op, hop, built⟩ := Option.map_eq_some_iff.mp h
  obtain rfl : i.op = op := by rw [← built]
  rw [operands_of_decode? h, Fields.format_operands, Fields.fields_operands, ← w.fields_used]
  refine ⟨w.format_fields i.op.format, Fields.inRange_operands _, Operation.encode_fields ?_⟩
  rw [w.ofWord?_used, hop]

/-- Encoded with operands of its format that are in range, every operation decodes to itself and to exactly
these operands. Conversely, every word that decodes has operands in range, and is their encoding but for the
bits that its format does not use. -/
theorem decoding_inverts_encoding :
    (∀ (op : Operation) (o : Operands), o.format = op.format → o.InRange →
      ∃ i, decode? (op.encode o.fields) = some i ∧ i.op = op ∧ i.operands = o) ∧
    ∀ (w : Word) (i : Instruction), decode? w = some i →
      i.operands.format = i.op.format ∧ i.operands.InRange ∧
        i.op.encode i.operands.fields = w.used i.op.format := by
  constructor
  · intro op o format inRange
    exact exists_decode?_encode format inRange
  · intro w i decoded
    exact encode_of_decode? decoded

/-- A branch to the word before it, and an addition with a shift amount that is not looked at. -/
theorem decoding_inverts_branchBack :
    Operation.cbnz.encode (Operands.cb 5 (-1)).fields = 0xB5FFFFE5 ∧
      (∃ i, decode? 0xB5FFFFE5 = some i ∧ i.op = .cbnz ∧ i.operands = .cb 5 (-1)) ∧
      ∃ i, decode? 0x8B021420 = some i ∧ i.operands = .r 0 1 2 ∧
        i.op.encode i.operands.fields = 0x8B020020 := by
  have word : Operation.cbnz.encode (Operands.cb 5 (-1)).fields = 0xB5FFFFE5 := by decide
  have branch := decoding_inverts_encoding.1 .cbnz (.cb 5 (-1)) rfl ⟨by decide, by decide, by decide⟩
  rw [word] at branch
  obtain ⟨i, decoded⟩ : ∃ i, decode? 0x8B021420 = some i :=
    Option.isSome_iff_exists.mp (by decide +kernel)
  have operands : (decode? 0x8B021420).map (fun i => (i.op, i.operands)) = some (.add, .r 0 1 2) := by
    decide +kernel
  rw [decoded, Option.map_some, Option.some.injEq, Prod.mk.injEq] at operands
  obtain ⟨_, _, encoded⟩ := decoding_inverts_encoding.2 0x8B021420 i decoded
  rw [operands.1] at encoded
  refine ⟨word, branch, i, decoded, operands.2, ?_⟩
  rw [operands.1, encoded]
  decide

end Instruction

end Legv8
