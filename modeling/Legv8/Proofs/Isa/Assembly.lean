import Legv8.Isa.Assembly
import Legv8.Proofs.Datapath
import Legv8.Proofs.Isa.Encoding
import Legv8.Proofs.Text.Numerals

/-! # Assembly text and instructions

The text of a word is a mnemonic and, behind a blank, the operands, each of which ends at the next comma or
at the end. So the text can be taken apart again, and two words have the same text only if they are the same
instruction. Everything that decode and execution look at is printed, and so such words are interchangeable,
but for the word itself that is carried along. -/
namespace Legv8

open Text (ContinuesWith append_inj_before append_inj_of_separator decimal_injective hexPadded_injective
  signedDecimal_injective notMem_decimal notMem_hexDigits)

/-! ## Pieces of the text -/

namespace Operation

/-- What stands before the first blank of a text: the mnemonic, or the directive for data. -/
def directive : Option Operation → String
  | some op => op.mnemonic
  | none => ".word"

theorem directive_injective {op other : Option Operation} (h : directive op = directive other) :
    op = other := by
  have distinct : ∀ op ∈ none :: all.map some, ∀ other ∈ none :: all.map some,
      directive op = directive other → op = other := by decide +kernel
  have listed : ∀ op : Option Operation, op ∈ none :: all.map some := by
    intro op
    cases op with
    | none => simp
    | some op => simp [mem_all op]
  exact distinct op (listed op) other (listed other) h

theorem blank_notMem_directive (op : Option Operation) : ' ' ∉ (directive op).toList := by
  cases op with
  | none => decide
  | some op => cases op <;> decide

end Operation

namespace Register

theorem comma_notMem_name (r : Nat) : ',' ∉ (name r).toList := by
  unfold name
  split
  · simpa using notMem_decimal (c := ',') (by decide) r
  · split <;> decide

theorem name_injective {r s : Nat} (hr : r < 32) (hs : s < 32) (h : name r = name s) : r = s := by
  have numbered : ∀ n, "X" ++ Text.decimal n ≠ "XZR" := by
    intro n equal
    have letter : 'Z' ∈ ("X" ++ Text.decimal n).toList := by rw [equal]; decide
    simp [notMem_decimal (c := 'Z') (by decide) n] at letter
  unfold name zero at h
  by_cases hr' : r < 31
  · by_cases hs' : s < 31
    · rw [if_pos hr', if_pos hs'] at h
      exact decimal_injective ((String.append_right_inj _).mp h)
    · rw [if_pos hr', if_neg hs', if_pos (by omega)] at h
      exact absurd h (numbered r)
  · by_cases hs' : s < 31
    · rw [if_neg hr', if_pos (by omega), if_pos hs'] at h
      exact absurd h.symm (numbered s)
    · omega

end Register

namespace Operands

/-- The text of operands, behind the mnemonic. -/
def text : Operands → String
  | im rd hw imm =>
    " " ++ (Register.name rd ++ (", #" ++ (Text.hex imm ++ (", LSL " ++ Text.decimal (hw * 16)))))
  | r rd rn rm => " " ++ (Register.name rd ++ (", " ++ (Register.name rn ++ (", " ++ Register.name rm))))
  | i rd rn imm => " " ++ (Register.name rd ++ (", " ++ (Register.name rn ++ (", #" ++ Text.decimal imm))))
  | d rt rn offset =>
    " " ++ (Register.name rt ++ (", [" ++ (Register.name rn ++
      (", #" ++ (Text.signedDecimal offset ++ "]")))))
  | b offset => " #" ++ Text.signedDecimal offset
  | cb rt offset => " " ++ (Register.name rt ++ (", #" ++ Text.signedDecimal offset))
  | system => ""

theorem continuesWith_text (o : Operands) : ContinuesWith ' ' o.text := by
  cases o <;> simp [ContinuesWith, text]

section Split

variable {separator x y : String} (comma : separator.toList.head? = some ',')
include comma

theorem split_name {r s : Nat} (hr : r < 32) (hs : s < 32)
    (h : Register.name r ++ (separator ++ x) = Register.name s ++ (separator ++ y)) : r = s ∧ x = y := by
  obtain ⟨names, rest⟩ :=
    append_inj_of_separator (Register.comma_notMem_name r) (Register.comma_notMem_name s) comma h
  exact ⟨Register.name_injective hr hs names, rest⟩

theorem split_hex {m n : Nat} (h : Text.hex m ++ (separator ++ x) = Text.hex n ++ (separator ++ y)) :
    m = n ∧ x = y := by
  have free : ∀ n, ',' ∉ (Text.hex n).toList := by
    intro n
    simpa [Text.hex, Text.hexPadded] using notMem_hexDigits (c := ',') (by decide) 1 n
  obtain ⟨numerals, rest⟩ := append_inj_of_separator (free m) (free n) comma h
  exact ⟨hexPadded_injective numerals, rest⟩

end Split

/-- Operands of one format that are in range are determined by their text. -/
theorem text_injective {o p : Operands} (format : o.format = p.format) (ho : o.InRange) (hp : p.InRange)
    (h : o.text = p.text) : o = p := by
  cases o with
  | im rd hw imm =>
    cases p with
    | im rd' hw' imm' =>
      obtain ⟨hd, _, _⟩ := ho
      obtain ⟨hd', _, _⟩ := hp
      simp only [text, String.append_right_inj] at h
      obtain ⟨rfl, rest⟩ := split_name rfl hd hd' h
      obtain ⟨rfl, shift⟩ := split_hex rfl rest
      rw [Nat.mul_right_cancel (by decide) (decimal_injective shift)]
    | _ => cases format
  | r rd rn rm =>
    cases p with
    | r rd' rn' rm' =>
      obtain ⟨hd, hn, hm⟩ := ho
      obtain ⟨hd', hn', hm'⟩ := hp
      simp only [text, String.append_right_inj] at h
      obtain ⟨rfl, rest⟩ := split_name rfl hd hd' h
      obtain ⟨rfl, last⟩ := split_name rfl hn hn' rest
      rw [Register.name_injective hm hm' last]
    | _ => cases format
  | i rd rn imm =>
    cases p with
    | i rd' rn' imm' =>
      obtain ⟨hd, hn, _⟩ := ho
      obtain ⟨hd', hn', _⟩ := hp
      simp only [text, String.append_right_inj] at h
      obtain ⟨rfl, rest⟩ := split_name rfl hd hd' h
      obtain ⟨rfl, last⟩ := split_name rfl hn hn' rest
      rw [decimal_injective last]
    | _ => cases format
  | d rt rn offset =>
    cases p with
    | d rt' rn' offset' =>
      obtain ⟨ht, hn, _⟩ := ho
      obtain ⟨ht', hn', _⟩ := hp
      simp only [text, String.append_right_inj] at h
      obtain ⟨rfl, rest⟩ := split_name rfl ht ht' h
      obtain ⟨rfl, last⟩ := split_name rfl hn hn' rest
      rw [signedDecimal_injective ((String.append_left_inj _).mp last)]
    | _ => cases format
  | b offset =>
    cases p with
    | b offset' =>
      simp only [text, String.append_right_inj] at h
      rw [signedDecimal_injective h]
    | _ => cases format
  | cb rt offset =>
    cases p with
    | cb rt' offset' =>
      obtain ⟨ht, _⟩ := ho
      obtain ⟨ht', _⟩ := hp
      simp only [text, String.append_right_inj] at h
      obtain ⟨rfl, last⟩ := split_name rfl ht ht' h
      rw [signedDecimal_injective last]
    | _ => cases format
  | system =>
    cases p with
    | system => rfl
    | _ => cases format

end Operands

/-! ## Text and instruction -/

/-- Two words that decode to the same operation with the same operands. -/
def Word.SameInstruction (w v : Word) : Prop :=
  ∃ i j, Instruction.decode? w = some i ∧ Instruction.decode? v = some j ∧ i.op = j.op ∧
    i.operands = j.operands

namespace Word

theorem assembly_of_decode? {w : Word} {i : Instruction} (h : Instruction.decode? w = some i) :
    w.assembly = Operation.directive (some i.op) ++ i.operands.text := by
  have text : w.assembly = i.text := by
    unfold assembly
    rw [h]
  rw [text]
  unfold Instruction.text Instruction.operands
  cases i.op.format <;>
    simp only [String.append_assoc, String.append_empty, Operands.text, Operation.directive]

theorem assembly_of_data {w : Word} (h : Instruction.decode? w = none) :
    w.assembly = Operation.directive none ++ (" " ++ Text.hexPadded 8 w.toNat) := by
  have text : w.assembly = ".word " ++ Text.hexPadded 8 w.toNat := by
    unfold assembly
    rw [h]
  rw [text, ← String.append_assoc]
  rfl

/-- The first piece of a text tells the operation; what follows is empty or behind a blank. -/
theorem exists_assembly_eq (w : Word) :
    ∃ rest, ContinuesWith ' ' rest ∧
      w.assembly = Operation.directive ((Instruction.decode? w).map Instruction.op) ++ rest := by
  cases h : Instruction.decode? w with
  | some i => exact ⟨i.operands.text, i.operands.continuesWith_text, assembly_of_decode? h⟩
  | none => exact ⟨_, by simp [ContinuesWith], assembly_of_data h⟩

/-- Words with the same text have the same operation, or are both data. -/
theorem op_eq_of_assembly_eq {w v : Word} (h : w.assembly = v.assembly) :
    (Instruction.decode? w).map Instruction.op = (Instruction.decode? v).map Instruction.op := by
  obtain ⟨x, hx, left⟩ := w.exists_assembly_eq
  obtain ⟨y, hy, right⟩ := v.exists_assembly_eq
  rw [left, right] at h
  have pieces := append_inj_before (Operation.blank_notMem_directive _) (Operation.blank_notMem_directive _)
    hx hy h
  exact Operation.directive_injective pieces.1

theorem assembly_eq_iff (w v : Word) : w.assembly = v.assembly ↔ w = v ∨ w.SameInstruction v := by
  constructor
  · intro h
    have ops := op_eq_of_assembly_eq h
    cases hw : Instruction.decode? w with
    | none =>
      rw [hw, Option.map_none, eq_comm, Option.map_eq_none_iff] at ops
      rw [assembly_of_data hw, assembly_of_data ops, String.append_right_inj, String.append_right_inj] at h
      exact .inl (UInt32.toNat_inj.mp (hexPadded_injective h))
    | some i =>
      rw [hw, Option.map_some, eq_comm] at ops
      obtain ⟨j, hv, same⟩ := Option.map_eq_some_iff.mp ops
      rw [assembly_of_decode? hw, assembly_of_decode? hv, same, String.append_right_inj] at h
      obtain ⟨formatI, rangeI, _⟩ := Instruction.encode_of_decode? hw
      obtain ⟨formatJ, rangeJ, _⟩ := Instruction.encode_of_decode? hv
      have formats : i.operands.format = j.operands.format := by rw [formatI, formatJ, same]
      exact .inr ⟨i, j, hw, hv, same.symm, Operands.text_injective formats rangeI rangeJ h⟩
  · rintro (rfl | ⟨i, j, hw, hv, ops, operands⟩)
    · rfl
    · rw [assembly_of_decode? hw, assembly_of_decode? hv, ops, operands]

end Word

/-! ## Interchangeable words -/

/-- What decode and execution come to, without the pipeline around them. -/
structure Performed where
  issued : Issued
  execution : Execution
  /-- The arithmetic logic unit afterwards. -/
  alu : Alu

def Fetched.perform (e : Fetched) (regs : Registers) (alu : Alu) : Except ExecutionError Performed :=
  match e.issue regs with
  | .error err => .error err
  | .ok issued =>
    match alu.execute issued with
    | .error err => .error err
    | .ok (execution, alu) => .ok { issued, execution, alu }

def Issued.relabel (v : Word) (y : Issued) : Issued := { y with word := v }

/-- The same execution with another word carried along. -/
def Execution.relabel (v : Word) : Execution → Execution
  | .forward out target => .forward { out with word := v } target
  | .halt => .halt

def ExecutionError.relabel (v : Word) : ExecutionError → ExecutionError
  | .zeroRegisterWrite pc _ => .zeroRegisterWrite pc v
  | .unknownOpcode stage opcode _ pc => .unknownOpcode stage opcode v pc
  | .nothingReserved pc _ => .nothingReserved pc v

/-- The same outcome with another word carried along. -/
def Performed.relabel (v : Word) : Except ExecutionError Performed → Except ExecutionError Performed
  | .ok done =>
    .ok { issued := done.issued.relabel v, execution := done.execution.relabel v, alu := done.alu }
  | .error err => .error (err.relabel v)

theorem Operation.format_of_writesRegister {op : Operation} (h : op.writesRegister = true) :
    op.format ≠ .b ∧ op.format ≠ .system := by
  revert h
  cases op <;> decide

namespace Instruction

theorem imm_of_decode? {w : Word} {i : Instruction} (h : decode? w = some i) :
    i.imm = w.immediate i.op.format := by
  obtain ⟨op, _, rfl⟩ := Option.map_eq_some_iff.mp h
  rfl

theorem hw_of_decode? {w : Word} {i : Instruction} (h : decode? w = some i) : i.hw = w.hw := by
  obtain ⟨op, _, rfl⟩ := Option.map_eq_some_iff.mp h
  rfl

section Congr

variable {i j : Instruction} (ops : i.op = j.op) (operands : i.operands = j.operands)
include ops operands

theorem rd_congr (b : i.op.format ≠ .b) (system : i.op.format ≠ .system) : i.rd = j.rd := by
  unfold Instruction.operands at operands
  rw [← ops] at operands
  cases format : i.op.format <;> simp_all

theorem sources_congr : i.sources = j.sources := by
  unfold Instruction.operands at operands
  unfold sources
  rw [← ops] at operands ⊢
  cases format : i.op.format <;> simp_all

theorem hw_congr (format : i.op.format = .im) : i.hw = j.hw := by
  unfold Instruction.operands at operands
  rw [← ops, format] at operands
  simp_all

theorem writes_congr : i.dest? = j.dest? ∧ i.writesZeroRegister = j.writesZeroRegister := by
  unfold dest? writesZeroRegister
  rw [← ops]
  cases writes : i.op.writesRegister with
  | false => simp
  | true =>
    obtain ⟨b, system⟩ := Operation.format_of_writesRegister writes
    simp [rd_congr ops operands b system]

theorem imm_congr {w v : Word} (hi : decode? w = some i) (hj : decode? v = some j) : i.imm = j.imm := by
  have zero : i.op.format = .r ∨ i.op.format = .system → i.imm = j.imm := by
    intro format
    rw [imm_of_decode? hi, imm_of_decode? hj, ← ops]
    rcases format with format | format <;> rw [format] <;> rfl
  have signed : i.imm.toInt64.toInt = j.imm.toInt64.toInt → i.imm = j.imm := by
    intro equal
    exact UInt64.toBitVec_inj.mp (BitVec.eq_of_toInt_eq equal)
  unfold Instruction.operands at operands
  rw [← ops] at operands
  cases format : i.op.format <;> simp_all [UInt64.toNat_inj]

end Congr

end Instruction

/-- Besides the operation, execution looks at nothing in a word but the selector of a wide move. -/
theorem Alu.perform_relabel (alu : Alu) (op : Operation) (y : Issued) {v : Word}
    (hw : op.format = .im → v.hw = y.word.hw) :
    alu.perform op (y.relabel v) =
      ((alu.perform op y).1.relabel v, (alu.perform op y).2) := by
  cases op with
  | movz | movk =>
    have shift : alu.halfwordShift v = alu.halfwordShift y.word := by
      rw [halfwordShift, hw rfl, ← halfwordShift]
    simp only [perform, Issued.relabel, shift]
    rfl
  | _ => rfl

namespace Fetched

variable {e : Fetched} {v : Word}

theorem operands_relabel {i j : Instruction} (hi : Instruction.decode? e.word = some i)
    (hj : Instruction.decode? v = some j) (ops : i.op = j.op) (operands : i.operands = j.operands)
    (regs : Registers) :
    ({ e with word := v } : Fetched).operands j regs = (e.operands i regs).relabel v := by
  unfold Fetched.operands Issued.relabel
  rw [Instruction.sources_congr ops operands, (Instruction.writes_congr ops operands).1,
    Instruction.imm_congr ops operands hi hj]

theorem perform_of_zeroRegister {i : Instruction} (decoded : Instruction.decode? e.word = some i)
    (zero : i.writesZeroRegister = true) (regs : Registers) (alu : Alu) :
    e.perform regs alu = .error (.zeroRegisterWrite e.pc e.word) := by
  have rejected : e.accept = .error (.zeroRegisterWrite e.pc e.word) := by
    unfold accept
    rw [decoded]
    exact if_pos zero
  unfold perform issue
  rw [rejected]

theorem perform_of_accept {i : Instruction} (accepted : e.accept = .ok i) (regs : Registers) (alu : Alu) :
    e.perform regs alu =
      .ok { issued := e.operands i regs
            execution := (alu.perform i.op (e.operands i regs)).1
            alu := (alu.perform i.op (e.operands i regs)).2 } := by
  have hop := (Instruction.decode?_eq_some (accept_eq_ok_iff.mp accepted).1).1
  unfold perform issue
  rw [accepted]
  dsimp only
  rw [Alu.execute_of_ofWord? (e := e.operands i regs) alu hop]

theorem perform_of_data (data : Instruction.decode? e.word = none) (regs : Registers) (alu : Alu) :
    e.perform regs alu = .error (.unknownOpcode .decode e.word.opcodeField e.word e.pc) := by
  have rejected : e.accept = .error (.unknownOpcode .decode e.word.opcodeField e.word e.pc) := by
    unfold accept
    rw [data]
  unfold perform issue
  rw [rejected]

theorem perform_relabel (same : e.word.SameInstruction v) (regs : Registers) (alu : Alu) :
    ({ e with word := v } : Fetched).perform regs alu = Performed.relabel v (e.perform regs alu) := by
  obtain ⟨i, j, hi, hj, ops, operands⟩ := same
  have zero := (Instruction.writes_congr ops operands).2
  cases rejected : i.writesZeroRegister with
  | true =>
    rw [rejected, eq_comm] at zero
    rw [perform_of_zeroRegister hi rejected, perform_of_zeroRegister (e := { e with word := v }) hj zero]
    rfl
  | false =>
    rw [rejected, eq_comm] at zero
    have selector : i.op.format = .im → v.hw = (e.operands i regs).word.hw := by
      intro format
      have read := Instruction.hw_congr ops operands format
      rw [Instruction.hw_of_decode? hi, Instruction.hw_of_decode? hj] at read
      exact read.symm
    rw [perform_of_accept (accept_eq_ok_iff.mpr ⟨hi, rejected⟩),
      perform_of_accept (e := { e with word := v }) (accept_eq_ok_iff.mpr ⟨hj, zero⟩),
      operands_relabel hi hj ops operands, ← ops,
      Alu.perform_relabel alu i.op (e.operands i regs) selector]
    rfl

end Fetched

/-- Two words have the same text exactly if they are equal or decode to the same operation with the same
operands. Words with the same text are interchangeable: whatever the registers and the state of the
arithmetic logic unit, decode and execution give the same operands, result, target, flags or error for both,
with the word carried along as the only difference. -/
theorem assembly_determines_instruction :
    (∀ w v : Word, w.assembly = v.assembly ↔ w = v ∨
      ∃ i j, Instruction.decode? w = some i ∧ Instruction.decode? v = some j ∧ i.op = j.op ∧
        i.operands = j.operands) ∧
    ∀ (e : Fetched) (v : Word), e.word.assembly = v.assembly → ∀ (regs : Registers) (alu : Alu),
      ({ e with word := v } : Fetched).perform regs alu = Performed.relabel v (e.perform regs alu) := by
  constructor
  · exact Word.assembly_eq_iff
  · intro e v text regs alu
    rcases (Word.assembly_eq_iff e.word v).mp text with rfl | same
    · cases h : Instruction.decode? e.word with
      | none =>
        rw [Fetched.perform_of_data h]
        rfl
      | some i => exact Fetched.perform_relabel ⟨i, i, h, h, rfl, rfl⟩ regs alu
    · exact Fetched.perform_relabel same regs alu

/-- Two additions that differ in the shift amount. -/
theorem assembly_determines_addition :
    let regs := (Registers.new.write 1 5).write 2 7
    let e : Fetched := { word := 0x8B020020, nextPc := 4, fault := none }
    e.word.assembly = "ADD X0, X1, X2" ∧ (0x8B021420 : Word).assembly = "ADD X0, X1, X2" ∧
      (e.perform regs .new).toOption.map (fun done => (done.issued.second, done.execution)) =
        some (7, .forward { word := 0x8B020020, nextPc := 4, value := 12, address := 0 } none) ∧
      ({ e with word := 0x8B021420 } : Fetched).perform regs .new =
        Performed.relabel 0x8B021420 (e.perform regs .new) := by
  intro regs e
  have text : e.word.assembly = "ADD X0, X1, X2" := by decide +kernel
  have text' : (0x8B021420 : Word).assembly = "ADD X0, X1, X2" := by decide +kernel
  have same := assembly_determines_instruction.2 e 0x8B021420 (text.trans text'.symm) regs .new
  refine ⟨text, text', by decide +kernel, same⟩

end Legv8
