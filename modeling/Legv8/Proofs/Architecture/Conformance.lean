import Legv8.Proofs.Architecture.Semantics
import Legv8.Proofs.Memory.Accesses
import Legv8.Proofs.Sequential.Run

/-! # The sequential machine executes the instruction set

Every step of the machine, over its gates, buses and slices of words, does what the meaning of the
instruction at the program counter says. Execution comes to the effect of the instruction, the access of
an effect moves the bytes that it names, and the commit carries the effect out. -/
namespace Legv8

variable {a : Architecture} {op : Operation}

/-! ## Execution -/

/-- What execution makes of an effect. -/
def Effect.execution (e : InFlight) : Effect → Execution
  | .write value => .forward { toInFlight := e, value, address := 0 } none
  | .load address _ _ => .forward { toInFlight := e, value := 0, address } none
  | .store address _ value => .forward { toInFlight := e, value, address } none
  | .jump target => .forward { toInFlight := e, value := 0, address := 0 } target
  | .halt => .halt

namespace Alu

theorem jumpTarget_eq (alu : Alu) {y : Issued} {z : Int} (offset : y.imm = .ofInt z) :
    alu.jumpTarget y = .ofInt (y.pc.toNat + 4 * z) := by
  have words : y.imm <<< 2 = .ofInt (4 * z) := by
    rw [UInt64.ofInt_mul, UInt64.mul_comm, ← offset]
    exact shiftLeft_eq_mul y.imm (show 2 < 64 by decide)
  unfold jumpTarget
  rw [add_eq, words, add_ofInt]
  rfl

theorem jumpTarget_operands (alu : Alu) {e : Fetched} {i : Instruction} (regs : Registers)
    (decoded : Instruction.decode? e.word = some i) (pc : a.pc = e.pc) :
    alu.jumpTarget (e.operands i regs) = .ofInt (a.pc.toNat + 4 * e.word.number i.op.format) := by
  have offset : (e.operands i regs).imm = .ofInt (e.word.number i.op.format) := by
    unfold Instruction.decode? at decoded
    obtain ⟨op, _, rfl⟩ := Option.map_eq_some_iff.mp decoded
    exact e.word.immediate_eq op.format
  rw [alu.jumpTarget_eq offset, pc]
  rfl

theorem zero_ofSum (x : UInt64) : (Flags.ofSum x 0).zero = decide (x = 0) := by
  have bound := x.toNat_lt
  rw [Flags.ofSum, UInt64.toNat_zero, Nat.add_zero, Nat.mod_eq_of_lt bound, decide_eq_decide]
  rw [← UInt64.toNat_inj, UInt64.toNat_zero]

/-- Execution comes to the effect of the instruction, on the registers that its operands were read from. -/
theorem perform_effect (a : Architecture) (alu : Alu) {e : Fetched} {regs : Registers} {i : Instruction}
    (decoded : Instruction.decode? e.word = some i) (registers : a.registers = regs.read)
    (pc : a.pc = e.pc) (flags : a.flags = alu.flags) :
    alu.perform i.op (e.operands i regs) =
      ((a.effect e.word i.op).execution e.toInFlight, ⟨a.flagsAfter e.word i.op⟩) := by
  have target := fun alu => jumpTarget_operands alu regs decoded pc
  unfold Instruction.decode? at decoded
  obtain ⟨op, _, rfl⟩ := Option.map_eq_some_iff.mp decoded
  cases op with
  | hlt =>
    unfold Architecture.flagsAfter
    rw [flags]
    rfl
  | movz =>
    simp only [perform, result, Fetched.operands, Architecture.effect, Effect.execution,
      Architecture.flagsAfter, Operation.format, movz_eq]
    rfl
  | movk =>
    simp only [perform, result, Fetched.operands, Instruction.sources, Operation.format, Architecture.effect,
      Effect.execution, Architecture.flagsAfter, registers, Word.rd_eq, movk_eq]
    rfl
  | add | adds | addi | addis | sub | subs | subi | subis =>
    simp only [perform, result, add_value, sub_value, Fetched.operands, Instruction.sources,
      Operation.format, Architecture.effect, Effect.execution, Architecture.flagsAfter, registers, Word.rn_eq,
      Word.rm_eq, Word.immediate_eq]
    rfl
  | ldur | ldurb | ldurh | ldursw | stur | sturb | sturh | sturw =>
    simp only [perform, transfer, add_value, Fetched.operands, Instruction.sources, Operation.format,
      Operation.isStore, Architecture.effect, Effect.execution, Architecture.flagsAfter, registers,
      Word.rn_eq, Word.rd_eq, Word.immediate_eq, add_ofInt]
    rfl
  | b =>
    simp only [perform, jump, if_true, target]
    rfl
  | cbz | cbnz =>
    simp only [perform, jump, add_value, zero_ofSum, target]
    simp only [Fetched.operands, Instruction.sources, Operation.format, Architecture.effect, registers,
      Word.rd_eq, decide_eq_true_iff, Bool.not_eq_true', decide_eq_false_iff_not, ne_eq]
    rfl

end Alu

/-! ## What an effect asks of the operation -/

namespace Effect

/-- The operation transfers as many bytes, and writes a register, as the effect says. -/
def Suits (op : Operation) : Effect → Prop
  | .write _ => op.writesRegister = true ∧ op.accessWidth? = none
  | .load _ n signed =>
    op.writesRegister = true ∧ op.isLoad = true ∧ op.accessWidth? = some (8 * n) ∧
      (0 < n ∧ n ≤ 8) ∧ signed = decide (op = .ldursw) ∧ (signed → n = 4)
  | .store _ n _ =>
    op.writesRegister = false ∧ op.isLoad = false ∧ op.accessWidth? = some (8 * n) ∧ n ≤ 8
  | .jump _ => op.writesRegister = false ∧ op.accessWidth? = none
  | .halt => op = .hlt

theorem suits_effect (a : Architecture) (w : Word) (op : Operation) : (a.effect w op).Suits op := by
  cases op <;> first | exact ⟨rfl, rfl⟩ | rfl | exact ⟨rfl, rfl, rfl, by decide⟩

end Effect

/-! ## Transfers -/

section Transfer

variable {mem : Memory} (memory : a.memory = mem.byte?) (address : UInt64)
include memory

theorem bytes_eq (n : Nat) : a.bytes address n = mem.peek address n := by
  rw [Architecture.bytes, memory, Memory.peek_eq_map]

theorem firstOutside_eq (n : Nat) : a.firstOutside address n = (mem.missing address n).head? := by
  rw [Architecture.firstOutside, memory, Memory.head?_missing]

/-- The view that a load takes of the data register. -/
theorem loaded_eq {n : Nat} {signed : Bool} (size : 0 < n ∧ n ≤ 8) (sign : signed = decide (op = .ldursw))
    (half : signed → n = 4) (data : UInt64) :
    Executed.loaded op (Bus.read ⟨address, data⟩ mem).1 (8 * n) = a.loaded address n signed := by
  have four : op = .ldursw → n = 4 := fun extends_ => half (sign.trans (decide_eq_true extends_))
  rw [Executed.loaded_read size.1 size.2 four, Architecture.loaded, bytes_eq memory, Operation.extend]
  by_cases extends_ : op = .ldursw
  · obtain rfl := four extends_
    rw [if_pos extends_, sign, decide_eq_true extends_, if_pos rfl]
  · rw [if_neg extends_, sign, decide_eq_false extends_, if_neg Bool.false_ne_true, ofInt_natCast]

theorem stored_eq {n : Nat} (size : n ≤ 8) (value : UInt64) :
    (Bus.write ⟨address, value⟩ mem (8 * n)).byte? = a.stored address n value := by
  have width : 8 * n / 8 = n := Nat.mul_div_cancel_left n (by decide)
  funext x
  rw [Bus.byte?_write _ _ _ (by rw [width]; exact size), width, Architecture.stored, memory]

section Access

variable (x : Executed) (hop : Operation.ofWord? x.word = some op) (bus : Bus)
include hop

/-- An access that moves nothing. -/
theorem access_pass (width : op.accessWidth? = none) :
    (x.access bus mem).missing.head? = none ∧ ((x.access bus mem).memory mem).byte? = a.memory ∧
      (x.access bus mem).out.value = x.value := by
  rw [Executed.access_of_width hop width]
  exact ⟨rfl, memory.symm, rfl⟩

theorem access_load {n : Nat} {signed : Bool} (loads : op.isLoad = true)
    (width : op.accessWidth? = some (8 * n)) (size : 0 < n ∧ n ≤ 8) (sign : signed = decide (op = .ldursw))
    (half : signed → n = 4) :
    (x.access bus mem).missing.head? = a.firstOutside x.address 8 ∧
      ((x.access bus mem).memory mem).byte? = a.memory ∧
      (x.access bus mem).out.value = a.loaded x.address n signed := by
  rw [Executed.access_of_load hop width loads]
  refine ⟨?_, memory.symm, loaded_eq memory x.address size sign half bus.data⟩
  rw [firstOutside_eq memory]
  exact Option.head?_toList.trans (Bus.missing_read _ mem)

theorem access_store {n : Nat} (stores : op.isLoad = false) (width : op.accessWidth? = some (8 * n))
    (size : n ≤ 8) :
    (x.access bus mem).missing.head? = a.firstOutside x.address n ∧
      ((x.access bus mem).memory mem).byte? = a.stored x.address n x.value := by
  rw [Executed.access_of_store hop width stores]
  refine ⟨?_, stored_eq memory x.address size x.value⟩
  rw [firstOutside_eq memory, Bus.lost, Nat.mul_div_cancel_left n (by decide)]

end Access

end Transfer

/-! ## The step -/

theorem read_put {regs : Registers} {r : Nat} (hr : r < Register.zero) (value : UInt64) :
    (regs.put (some r) value).read = fun q => if q = r then value else regs.read q := by
  funext q
  rw [Registers.put, Registers.read_write]
  by_cases same : r = q
  · rw [if_pos ⟨same, hr⟩, if_pos same.symm]
  · rw [if_neg fun h => same h.1, if_neg (Ne.symm same)]

namespace Sequential

variable {s : Sequential}

/-- What can be told of the machine as execution finds it: the cycle is counted, and a taken branch. -/
def begun (s : Sequential) : (target : Option UInt64) → Architecture
  | none => s.architecture.countCycle
  | some _ => s.architecture.countCycle.countTaken

theorem begun_eq (s : Sequential) (target : Option UInt64) :
    s.begun target = { s.architecture with statistics := (s.core.began target).statistics } := by
  cases target <;> rfl

section Executed

variable (live : s.core.stop = none) {out : Executed} {target : Option UInt64} {alu : Alu}
  (executes : s.Executes out target alu) {m : UInt64 → Option UInt8}
  (memory : ((s.accessOf out).memory s.core.memory).byte? = m)
include live executes memory

theorem architecture_of_accessFault {x : UInt64} (missing : (s.accessOf out).missing.head? = some x) :
    (s.step.1.architecture, s.step.2) =
      ({ s.begun target with flags := alu.flags, memory := m }.stopWith (.memoryFault x),
        .ok (some (.memoryFault x))) := by
  obtain ⟨rest, missing⟩ := List.head?_eq_some_iff.mp missing
  obtain ⟨result, core⟩ := step_of_accessFault live executes missing
  rw [result, architecture, flags, alu_step_of_executes live executes, core]
  simp only [← memory, begun_eq, registers_began, pc_began, Architecture.stopWith]
  rfl

theorem architecture_of_access (idle : s.core.reservations = [])
    (hop : Operation.ofWord? out.word = some op) (missing : (s.accessOf out).missing.head? = none) :
    (s.step.1.architecture, s.step.2) =
      ({ s.begun target with
          flags := alu.flags
          memory := m
          registers := (s.core.registers.put out.word.dest? (s.accessOf out).out.value).read }.retire op
        (target.getD (s.core.pc + 4)), .ok none) := by
  obtain ⟨result, unit, core⟩ :=
    step_of_access live executes hop idle (List.head?_eq_none_iff.mp missing)
  rw [result, architecture, flags, unit, core, congrArg InFlight.nextPc executes.toInFlight, nextPc_entry]
  have pending : s.architecture.stop = none := live
  simp only [← memory, begun_eq, stop_began, live, pending, Architecture.retire]

end Executed

/-- The step carries out an effect of an operation, and returns what is pending then. -/
def CarriesOut (s : Sequential) (op : Operation) (flagged : Alu.Flags) (effect : Effect) : Prop :=
  (s.step.1.architecture, s.step.2) =
    (s.architecture.countCycle.apply s.entry.word op flagged effect,
      .ok (s.architecture.countCycle.apply s.entry.word op flagged effect).stop)

section Effects

variable (live : s.core.stop = none) (idle : s.core.reservations = []) {y : Issued} (issues : s.Issues y)
  (hop : Operation.ofWord? s.entry.word = some op) {flagged : Alu.Flags}
include live issues hop

theorem carriesOut_halt
    (executed : s.alu.execute y = .ok (.halt, ⟨flagged⟩)) : s.CarriesOut op flagged .halt := by
  obtain ⟨halts, same⟩ := Alu.execute_halt executed
  obtain ⟨result, core, unit⟩ := step_of_halt live issues executed
  rw [issues.word, hop] at halts
  rw [CarriesOut, result, architecture, flags, unit, core, ← same, Option.some.inj halts]
  rfl

include idle

theorem carriesOut_write {value : UInt64}
    (executed : s.alu.execute y = .ok ((Effect.write value).execution s.entry.toInFlight, ⟨flagged⟩))
    (suits : (Effect.write value).Suits op) (proper : s.entry.word.field 0 5 < Register.zero) :
    s.CarriesOut op flagged (.write value) := by
  obtain ⟨writes, width⟩ := suits
  have executes : s.Executes ⟨s.entry.toInFlight, value, 0⟩ none ⟨flagged⟩ :=
    ⟨y, issues, executed⟩
  have dest := Word.dest?_of_ofWord? hop
  rw [writes, if_pos rfl, Word.rd_eq] at dest
  obtain ⟨missing, kept, result⟩ :=
    access_pass (a := s.architecture.countCycle) rfl ⟨s.entry.toInFlight, value, 0⟩ hop s.access width
  have pending : s.architecture.countCycle.stop = none := live
  rw [CarriesOut, architecture_of_access live executes kept idle hop missing, accessOf, result, dest,
    read_put proper]
  simp only [begun, Architecture.apply, Architecture.retire, Architecture.put, pending]
  rfl

theorem carriesOut_load {address : UInt64} {n : Nat} {signed : Bool}
    (executed : s.alu.execute y =
      .ok ((Effect.load address n signed).execution s.entry.toInFlight, ⟨flagged⟩))
    (suits : (Effect.load address n signed).Suits op) (proper : s.entry.word.field 0 5 < Register.zero) :
    s.CarriesOut op flagged (.load address n signed) := by
  obtain ⟨writes, loads, width, size, sign, half⟩ := suits
  have executes : s.Executes ⟨s.entry.toInFlight, 0, address⟩ none ⟨flagged⟩ :=
    ⟨y, issues, executed⟩
  have dest := Word.dest?_of_ofWord? hop
  rw [writes, if_pos rfl, Word.rd_eq] at dest
  obtain ⟨missing, kept, result⟩ :=
    access_load (a := s.architecture.countCycle) rfl ⟨s.entry.toInFlight, 0, address⟩ hop s.access loads
      width size sign half
  have pending : s.architecture.countCycle.stop = none := live
  cases outside : s.architecture.countCycle.firstOutside address 8 with
  | some x =>
    rw [CarriesOut, architecture_of_accessFault live executes kept (missing.trans outside)]
    simp only [Architecture.apply, outside]
    rfl
  | none =>
    rw [CarriesOut, architecture_of_access live executes kept idle hop (missing.trans outside), accessOf,
      result, dest, read_put proper]
    simp only [begun, Architecture.apply, outside, Architecture.retire, Architecture.put, pending]
    rfl

theorem carriesOut_store {address value : UInt64} {n : Nat}
    (executed : s.alu.execute y =
      .ok ((Effect.store address n value).execution s.entry.toInFlight, ⟨flagged⟩))
    (suits : (Effect.store address n value).Suits op) : s.CarriesOut op flagged (.store address n value) := by
  obtain ⟨writes, loads, width, size⟩ := suits
  have executes : s.Executes ⟨s.entry.toInFlight, value, address⟩ none ⟨flagged⟩ :=
    ⟨y, issues, executed⟩
  have dest := Word.dest?_of_ofWord? hop
  rw [writes, if_neg Bool.false_ne_true] at dest
  obtain ⟨missing, kept⟩ :=
    access_store (a := s.architecture.countCycle) rfl ⟨s.entry.toInFlight, value, address⟩ hop s.access loads
      width size
  have pending : s.architecture.countCycle.stop = none := live
  cases outside : s.architecture.countCycle.firstOutside address n with
  | some x =>
    rw [CarriesOut, architecture_of_accessFault live executes kept (missing.trans outside)]
    simp only [Architecture.apply, outside]
    rfl
  | none =>
    rw [CarriesOut, architecture_of_access live executes kept idle hop (missing.trans outside), dest]
    simp only [begun, Architecture.apply, outside, Architecture.retire, pending]
    rfl

theorem carriesOut_jump {target : Option UInt64}
    (executed : s.alu.execute y = .ok ((Effect.jump target).execution s.entry.toInFlight, ⟨flagged⟩))
    (suits : (Effect.jump target).Suits op) : s.CarriesOut op flagged (.jump target) := by
  obtain ⟨writes, width⟩ := suits
  have executes : s.Executes ⟨s.entry.toInFlight, 0, 0⟩ target ⟨flagged⟩ :=
    ⟨y, issues, executed⟩
  have dest := Word.dest?_of_ofWord? hop
  rw [writes, if_neg Bool.false_ne_true] at dest
  obtain ⟨missing, kept, _⟩ :=
    access_pass (a := s.architecture.countCycle) rfl ⟨s.entry.toInFlight, 0, 0⟩ hop s.access width
  have pending : s.architecture.countCycle.stop = none := live
  rw [CarriesOut, architecture_of_access live executes kept idle hop missing, dest]
  cases target with
  | none =>
    simp only [begun, Architecture.apply, Architecture.retire, pending]
    rfl
  | some target =>
    simp only [begun, Architecture.apply, Architecture.retire, Architecture.countTaken, pending]
    rfl

end Effects

/-! ### Instructions -/

section Accepted

variable (live : s.core.stop = none) (idle : s.core.reservations = []) (inside : s.entry.fault = none)
  (hop : Operation.ofWord? s.entry.word = some op)
include live idle inside hop

/-- A step carries out the effect of a word that names a register to write to, if it writes one. -/
theorem carriesOut_effect (proper : op.writesRegister = true → s.entry.word.field 0 5 ≠ Register.zero) :
    s.CarriesOut op (s.architecture.countCycle.flagsAfter s.entry.word op)
      (s.architecture.countCycle.effect s.entry.word op) := by
  obtain ⟨i, decoded⟩ : ∃ i, Instruction.decode? s.entry.word = some i :=
    ⟨_, Option.map_eq_some_iff.mpr ⟨op, hop, rfl⟩⟩
  obtain ⟨operation, _, dest⟩ := Instruction.decode?_eq_some decoded
  obtain rfl : i.op = op := Option.some.inj (operation.symm.trans hop)
  have accepted : i.writesZeroRegister = false := by
    rw [Instruction.writesZeroRegister, dest, Word.rd_eq]
    cases writes : i.op.writesRegister with
    | false => rfl
    | true => exact beq_false_of_ne (proper writes)
  have issues : s.Issues (s.entry.operands i s.core.registers) :=
    ⟨inside, Fetched.issue_eq_ok_iff.mpr ⟨i, Fetched.accept_eq_ok_iff.mpr ⟨decoded, accepted⟩, rfl⟩⟩
  have executed := Alu.execute_of_ofWord? (e := s.entry.operands i s.core.registers) s.alu hop
  rw [Alu.perform_effect s.architecture.countCycle s.alu decoded rfl s.pc_entry.symm rfl] at executed
  have suits := Effect.suits_effect s.architecture.countCycle s.entry.word i.op
  have named : i.op.writesRegister = true → s.entry.word.field 0 5 < Register.zero := fun writes =>
    Nat.lt_of_le_of_ne (Nat.le_of_lt_succ (s.entry.word.field_lt 0 5)) (proper writes)
  cases effect : s.architecture.countCycle.effect s.entry.word i.op with
  | halt =>
    rw [effect] at executed
    exact carriesOut_halt live issues hop executed
  | write value =>
    rw [effect] at executed suits
    exact carriesOut_write live idle issues hop executed suits (named suits.1)
  | load address n signed =>
    rw [effect] at executed suits
    exact carriesOut_load live idle issues hop executed suits (named suits.1)
  | store address n value =>
    rw [effect] at executed suits
    exact carriesOut_store live idle issues hop executed suits
  | jump target =>
    rw [effect] at executed suits
    exact carriesOut_jump live idle issues hop executed suits

end Accepted

theorem entry_eq (s : Sequential) :
    s.entry =
      { word := s.architecture.word
        nextPc := s.core.pc + 4
        fault := s.architecture.firstOutside s.core.pc Word.size } := by
  rw [entry, Memory.entryAt_peek, firstOutside_eq rfl, Architecture.word, bytes_eq rfl]
  rfl

theorem pc_architecture (s : Sequential) : s.architecture.pc = s.core.pc := rfl

theorem architecture_fetchedState (s : Sequential) : s.fetchedState.architecture = s.architecture.countCycle :=
  rfl

theorem accept_of_unknown {e : Fetched} (unknown : Operation.ofWord? e.word = none) :
    e.accept = .error (.unknownOpcode .decode (.ofNat (e.word.field 21 11)) e.word e.pc) := by
  unfold Fetched.accept Instruction.decode?
  rw [unknown, e.word.opcodeField_eq]
  rfl

theorem accept_of_zeroRegister {e : Fetched} (hop : Operation.ofWord? e.word = some op)
    (writes : op.writesRegister = true) (zero : e.word.field 0 5 = Register.zero) :
    e.accept = .error (.zeroRegisterWrite e.pc e.word) := by
  unfold Fetched.accept Instruction.decode?
  rw [hop]
  simp only [Option.map_some, Instruction.writesZeroRegister, writes, Word.rd_eq, zero, beq_self_eq_true,
    Bool.and_self, if_true]

/-- A step of a machine that nothing stops and nothing is reserved in is the step that the meaning of its
instruction describes, in every register, byte, flag and counter and in what it returns. -/
theorem step_implements_instructions (live : s.core.stop = none) (idle : s.core.reservations = []) :
    (s.step.1.architecture, s.step.2) = s.architecture.step := by
  have word : s.entry.word = s.architecture.word := congrArg (fun e : Fetched => e.word) s.entry_eq
  have fault : s.entry.fault = s.architecture.firstOutside s.architecture.pc Word.size :=
    congrArg Fetched.fault s.entry_eq
  unfold Architecture.step
  rw [← word, ← fault]
  cases inside : s.entry.fault with
  | some x =>
    obtain ⟨result, core, unit⟩ := step_of_fault live inside
    rw [result, architecture, flags, unit, core]
    rfl
  | none =>
    cases hop : Operation.ofWord? s.entry.word with
    | none =>
      rw [step_of_rejected live inside (accept_of_unknown hop), architecture_fetchedState, pc_entry,
        pc_architecture]
    | some op =>
      by_cases zero : op.writesRegister = true ∧ s.entry.word.field 0 5 = Register.zero
      · simp only [if_pos zero]
        rw [step_of_rejected live inside (accept_of_zeroRegister hop zero.1 zero.2),
          architecture_fetchedState, pc_entry, pc_architecture]
      · simp only [if_neg zero]
        exact carriesOut_effect live idle inside hop fun writes named => zero ⟨writes, named⟩

/-- A store of eight bytes at the start of a memory of four stops at the first that is lost. -/
theorem step_implements_lostStore :
    (new (.new (.ofWords [0xF80003E1]) 0 false)).core.stop = none ∧
      (new (.new (.ofWords [0xF80003E1]) 0 false)).core.reservations = [] ∧
      ((new (.new (.ofWords [0xF80003E1]) 0 false)).step.1.architecture,
          (new (.new (.ofWords [0xF80003E1]) 0 false)).step.2) =
        (new (.new (.ofWords [0xF80003E1]) 0 false)).architecture.step ∧
      (new (.new (.ofWords [0xF80003E1]) 0 false)).step.2 = .ok (some (.memoryFault 4)) :=
  ⟨rfl, rfl, step_implements_instructions rfl rfl, by decide +kernel⟩

end Sequential

end Legv8
