import Legv8.Datapath.Access
import Legv8.Datapath.Commit
import Legv8.Datapath.Execution
import Legv8.Datapath.Operands
import Legv8.Proofs.Memory.Fetch

/-! # What each step of the datapath keeps

An accepted word stays with its instruction from the fetch to the commit, and so does the address behind
it. The register that it commits to is a function of the word alone, so that the reservation made at issue
is the one that the commit has to release. What a bus or the flags held before matters to nothing that
goes on to the next stage. -/
namespace Legv8

/-! ## Words -/

/-- The register that a word of the subset commits to. -/
def Word.dest? (w : Word) : Option Nat := (Instruction.decode? w).bind Instruction.dest?

/-- The words that decode accepts: those of the subset that do not commit to the zero register. -/
def Word.Supported (w : Word) : Prop :=
  ∃ i, Instruction.decode? w = some i ∧ i.writesZeroRegister = false

instance (w : Word) : Decidable w.Supported :=
  decidable_of_iff ((Instruction.decode? w).any (!·.writesZeroRegister) = true) <| by
    simp only [Option.any_eq_true, Bool.not_eq_true', Word.Supported]

namespace Instruction

theorem decode?_eq_some {w : Word} {i : Instruction} (h : decode? w = some i) :
    Operation.ofWord? w = some i.op ∧ i.word = w ∧ i.rd = w.rd := by
  unfold decode? at h
  obtain ⟨op, hop, rfl⟩ := Option.map_eq_some_iff.mp h
  exact ⟨hop, rfl, rfl⟩

theorem dest?_of_decode? {w : Word} {i : Instruction} (h : decode? w = some i) :
    i.dest? = w.dest? := by
  rw [Word.dest?, h, Option.bind_some]

theorem dest?_ne_zero {i : Instruction} (h : i.writesZeroRegister = false) :
    i.dest? ≠ some Register.zero := by
  unfold dest?
  unfold writesZeroRegister at h
  intro hd
  split at hd
  · rename_i hw
    rw [hw, Option.some.inj hd] at h
    simp at h
  · cases hd

end Instruction

theorem Word.Supported.dest?_ne_zero {w : Word} (h : w.Supported) : w.dest? ≠ some Register.zero := by
  obtain ⟨i, hi, hz⟩ := h
  rw [← Instruction.dest?_of_decode? hi]
  exact Instruction.dest?_ne_zero hz

theorem Word.dest?_of_ofWord? {w : Word} {op : Operation} (h : Operation.ofWord? w = some op) :
    w.dest? = if op.writesRegister then some w.rd else none := by
  unfold Word.dest? Instruction.decode?
  rw [h]
  rfl

/-! ## Decode -/

namespace Fetched

theorem accept_eq_ok_iff {e : Fetched} {i : Instruction} :
    e.accept = .ok i ↔ Instruction.decode? e.word = some i ∧ i.writesZeroRegister = false := by
  unfold accept
  cases hd : Instruction.decode? e.word with
  | none => simp
  | some j =>
    by_cases hz : j.writesZeroRegister = true
    · simp only [hz, if_true]
      constructor
      · intro h; cases h
      · rintro ⟨hj, hf⟩
        rw [← Option.some.inj hj, hz] at hf
        cases hf
    · simp only [hz, if_false, Bool.false_eq_true]
      constructor
      · intro h; cases h; exact ⟨rfl, by simpa using hz⟩
      · rintro ⟨hj, _⟩; rw [Option.some.inj hj]

theorem supported_of_accept {e : Fetched} {i : Instruction} (h : e.accept = .ok i) :
    e.word.Supported := ⟨i, accept_eq_ok_iff.mp h⟩

/-- The acceptance of a word whose decoding is known not to fail. -/
theorem accept_of_supported {e : Fetched} (h : e.word.Supported) : ∃ i, e.accept = .ok i := by
  obtain ⟨i, hi⟩ := h
  exact ⟨i, accept_eq_ok_iff.mpr hi⟩

/-- A word is rejected for its opcode, at decode, or for its destination. -/
theorem eq_of_accept_error {e : Fetched} {err : ExecutionError} (h : e.accept = .error err) :
    err = .unknownOpcode .decode e.word.opcodeField e.word e.pc ∨
      err = .zeroRegisterWrite e.pc e.word := by
  unfold accept at h
  cases hd : Instruction.decode? e.word with
  | none =>
    rw [hd] at h
    cases h
    exact .inl rfl
  | some i =>
    rw [hd] at h
    dsimp only at h
    split at h
    · cases h
      exact .inr rfl
    · cases h

theorem issue_eq_ok_iff {e : Fetched} {regs : Registers} {y : Issued} :
    e.issue regs = .ok y ↔ ∃ i, e.accept = .ok i ∧ e.operands i regs = y := by
  unfold issue
  cases e.accept with
  | error err => simp
  | ok i => simp

theorem toInFlight_operands (e : Fetched) (i : Instruction) (regs : Registers) :
    (e.operands i regs).toInFlight = e.toInFlight := rfl

/-- Operands depend on the registers that the instruction reads. -/
theorem operands_congr {e : Fetched} {i : Instruction} {regs other : Registers}
    (h : ∀ r, i.sources.1 = some r ∨ i.sources.2 = some r → regs.read r = other.read r) :
    e.operands i regs = e.operands i other := by
  unfold operands
  congr 1
  · cases hs : i.sources.1 with
    | none => rfl
    | some r => exact h r (.inl hs)
  · cases hs : i.sources.2 with
    | none => rfl
    | some r => exact h r (.inr hs)

end Fetched

/-- An instruction waits for nothing if it reads no reserved register. -/
theorem Instruction.pendingSource?_eq_none_iff {i : Instruction} {reservations : Reservations} :
    i.pendingSource? reservations = none ↔
      ∀ r, i.sources.1 = some r ∨ i.sources.2 = some r → r ∉ reservations := by
  have filtered : ∀ source : Option Nat, source.filter (reservations.contains ·) = none ↔
      ∀ r, source = some r → r ∉ reservations := by
    intro source
    rw [Option.filter_eq_none_iff]
    simp only [List.contains_iff_mem]
  have both : i.pendingSource? reservations = none ↔
      i.sources.1.filter (reservations.contains ·) = none ∧
        i.sources.2.filter (reservations.contains ·) = none := by
    unfold pendingSource?
    cases i.sources.1.filter (reservations.contains ·) with
    | some r => exact ⟨fun h => (by cases h), fun h => (by cases h.1)⟩
    | none => exact ⟨fun h => ⟨rfl, h⟩, fun h => h.2⟩
  rw [both, filtered, filtered]
  exact ⟨fun h r hr => hr.elim (h.1 r) (h.2 r),
    fun h => ⟨fun r hr => h r (.inl hr), fun r hr => h r (.inr hr)⟩⟩

/-! ## Execution -/

namespace Alu

theorem execute_of_ofWord? {e : Issued} {op : Operation} (alu : Alu)
    (h : Operation.ofWord? e.word = some op) : alu.execute e = .ok (alu.perform op e) := by
  unfold execute
  rw [h]

/-- Only a halt is not forwarded, and what is forwarded keeps the word and its address. -/
theorem perform_cases (alu : Alu) (op : Operation) (e : Issued) :
    (op = .hlt ∧ alu.perform op e = (.halt, alu)) ∨
      (op ≠ .hlt ∧ ∃ out target alu', alu.perform op e = (.forward out target, alu') ∧
        out.toInFlight = e.toInFlight) := by
  cases op with
  | hlt => exact .inl ⟨rfl, rfl⟩
  | _ => exact .inr ⟨by decide, _, _, _, rfl, rfl⟩

/-- Execution does not ask whether the destination is reserved. -/
theorem execute_reserved (alu : Alu) (e : Issued) (reserved : Bool) :
    alu.execute { e with reserved } = alu.execute e := by
  unfold execute
  cases Operation.ofWord? e.word with
  | none => rfl
  | some op => cases op <;> rfl

theorem execute_forward {alu alu' : Alu} {e : Issued} {out : Executed} {target : Option UInt64}
    (h : alu.execute e = .ok (.forward out target, alu')) :
    out.toInFlight = e.toInFlight ∧ ∃ op, Operation.ofWord? e.word = some op ∧ op ≠ .hlt := by
  cases hop : Operation.ofWord? e.word with
  | none => unfold execute at h; rw [hop] at h; cases h
  | some op =>
    rw [execute_of_ofWord? alu hop, Except.ok.injEq] at h
    rcases alu.perform_cases op e with ⟨_, hp⟩ | ⟨hne, out', target', alu'', hp, hk⟩
    · rw [hp] at h; cases h
    · rw [hp] at h; cases h; exact ⟨hk, op, rfl, hne⟩

theorem execute_halt {alu alu' : Alu} {e : Issued} (h : alu.execute e = .ok (.halt, alu')) :
    Operation.ofWord? e.word = some .hlt ∧ alu' = alu := by
  cases hop : Operation.ofWord? e.word with
  | none => unfold execute at h; rw [hop] at h; cases h
  | some op =>
    rw [execute_of_ofWord? alu hop, Except.ok.injEq] at h
    rcases alu.perform_cases op e with ⟨rfl, hp⟩ | ⟨_, out, target, alu'', hp, _⟩
    · rw [hp] at h; cases h; exact ⟨rfl, rfl⟩
    · rw [hp] at h; cases h

end Alu

/-! ## Memory access -/

theorem Operation.isSome_accessWidth? (op : Operation) :
    op.accessWidth?.isSome = (op.isLoad || op.isStore) := by
  cases op <;> rfl

theorem Operation.isStore_of_isLoad {op : Operation} (h : op.isLoad = true) : op.isStore = false := by
  cases op <;> first | rfl | cases h

namespace Executed

/-- The addresses that a store writes to. -/
def storedBytes (x : Executed) : List UInt64 :=
  match Operation.ofWord? x.word with
  | some op => if op.isStore then Memory.span x.address (op.accessWidth?.getD 0 / 8) else []
  | none => []

/-- An access passes the result on, loads or stores; the word alone decides which. -/
theorem access_cases (x : Executed) :
    (x.storedBytes = [] ∧ ∀ bus mem,
      x.access bus mem = { out := x.pass x.value, bus, stored := none, missing := [] }) ∨
    (x.storedBytes = [] ∧ ∃ op width, ∀ bus mem,
      x.access bus mem =
        let read := Bus.read ⟨x.address, bus.data⟩ mem
        { out := x.pass (loaded op read.1 width), bus := read.1, stored := none
          missing := read.2.toList }) ∨
    (∃ width, x.storedBytes = Memory.span x.address (width / 8) ∧ ∀ bus mem,
      x.access bus mem =
        { out := x.pass 0, bus := ⟨x.address, x.value⟩, stored := some width
          missing := Bus.lost ⟨x.address, x.value⟩ mem width }) := by
  unfold access storedBytes
  cases Operation.ofWord? x.word with
  | none => exact .inl ⟨rfl, fun _ _ => rfl⟩
  | some op =>
    dsimp only
    have moves := op.isSome_accessWidth?
    cases hw : op.accessWidth? with
    | none =>
      rw [hw] at moves
      have store : op.isStore = false := (Bool.or_eq_false_iff.mp moves.symm).2
      exact .inl ⟨by rw [store]; rfl, fun _ _ => rfl⟩
    | some width =>
      dsimp only
      cases hl : op.isLoad with
      | true =>
        have store : op.isStore = false := Operation.isStore_of_isLoad hl
        exact .inr (.inl ⟨by rw [store]; rfl, op, width, fun _ _ => rfl⟩)
      | false =>
        rw [hw, hl] at moves
        have store : op.isStore = true := moves.symm
        exact .inr (.inr ⟨width, by rw [store]; rfl, fun _ _ => rfl⟩)

section Operation

variable {x : Executed} {op : Operation} (hop : Operation.ofWord? x.word = some op)
include hop

theorem access_of_width (width : op.accessWidth? = none) (bus : Bus) (mem : Memory) :
    x.access bus mem = { out := x.pass x.value, bus, stored := none, missing := [] } := by
  unfold access
  simp only [hop, width]

theorem access_of_load {width : Nat} (transfers : op.accessWidth? = some width) (loads : op.isLoad = true)
    (bus : Bus) (mem : Memory) :
    x.access bus mem =
      { out := x.pass (loaded op (Bus.read ⟨x.address, bus.data⟩ mem).1 width)
        bus := (Bus.read ⟨x.address, bus.data⟩ mem).1
        stored := none
        missing := (Bus.read ⟨x.address, bus.data⟩ mem).2.toList } := by
  unfold access
  simp only [hop, transfers, loads, if_true]

theorem access_of_store {width : Nat} (transfers : op.accessWidth? = some width) (stores : op.isLoad = false)
    (bus : Bus) (mem : Memory) :
    x.access bus mem =
      { out := x.pass 0
        bus := ⟨x.address, x.value⟩
        stored := some width
        missing := Bus.lost ⟨x.address, x.value⟩ mem width } := by
  unfold access
  simp only [hop, transfers, stores, Bool.false_eq_true, if_false]

end Operation

/-- What an access comes to does not hang on the state of its bus. -/
theorem access_congr (x : Executed) (bus other : Bus) (mem : Memory) :
    (x.access bus mem).out = (x.access other mem).out ∧
      (x.access bus mem).missing = (x.access other mem).missing ∧
      ∀ m, (x.access bus mem).memory m = (x.access other mem).memory m := by
  rcases x.access_cases with ⟨_, h⟩ | ⟨_, op, width, h⟩ | ⟨width, _, h⟩
  · rw [h, h]; exact ⟨rfl, rfl, fun _ => rfl⟩
  · rw [h, h]; exact ⟨rfl, rfl, fun _ => rfl⟩
  · rw [h, h]; exact ⟨rfl, rfl, fun _ => rfl⟩

theorem access_out (x : Executed) (bus : Bus) (mem : Memory) :
    (x.access bus mem).out.toInFlight = x.toInFlight := by
  rcases x.access_cases with ⟨_, h⟩ | ⟨_, op, width, h⟩ | ⟨width, _, h⟩ <;> rw [h] <;> rfl

/-- An access changes no byte but those that it stores. -/
theorem byte?_access (x : Executed) (bus : Bus) (mem : Memory) {addr : UInt64}
    (h : addr ∉ x.storedBytes) : ((x.access bus mem).memory mem).byte? addr = mem.byte? addr := by
  rcases x.access_cases with ⟨_, ha⟩ | ⟨_, op, width, ha⟩ | ⟨width, hs, ha⟩
  · rw [ha]; rfl
  · rw [ha]; rfl
  · rw [hs] at h
    rw [ha]
    exact Bus.byte?_write_of_notMem ⟨x.address, x.value⟩ h

theorem size_access (x : Executed) (bus : Bus) (mem : Memory) :
    ((x.access bus mem).memory mem).size = mem.size := by
  rcases x.access_cases with ⟨_, h⟩ | ⟨_, op, width, h⟩ | ⟨width, _, h⟩
  · rw [h]; rfl
  · rw [h]; rfl
  · rw [h]; exact Memory.size_writeList _ _ _

end Executed

/-- Reported faults change the stop request and nothing else. -/
theorem Core.reportFaults_eq (core : Core) (addrs : List UInt64) :
    core.reportFaults addrs = { core with stop := (core.reportFaults addrs).stop } := by
  induction addrs generalizing core with
  | nil => rfl
  | cons a rest ih =>
    have step : core.reportFaults (a :: rest) = (core.reportFault a).reportFaults rest := rfl
    rw [step, ih]
    rfl

/-- An access asks for a stop at the first byte that it misses; a stop asked for before stands. -/
theorem Core.settle_or (core : Core) (access : Access) :
    core.settle access =
      { core with
        memory := access.memory core.memory
        stop := core.stop.or (access.missing.head?.map .memoryFault) } := by
  unfold settle
  rw [reportFaults_eq, reportFaults_stop]
  cases core.stop <;> rfl

theorem Core.settle_eq {core : Core} (access : Access) (h : core.stop = none) :
    core.settle access =
      { core with
        memory := access.memory core.memory
        stop := access.missing.head?.map .memoryFault } := by
  rw [settle_or, h, Option.none_or]

/-! ## Requests for a stop -/

/-- The steps of the run that asked for the stop because its budget was used up. -/
def StopReason.cycleLimit? : StopReason → Option Nat
  | .cycleLimit cycles => some cycles
  | _ => none

namespace Core

/-- The cycle limit that is pending. -/
def cycleLimit? (core : Core) : Option Nat := core.stop.bind StopReason.cycleLimit?

theorem cycleLimit?_requestStop (core : Core) {reason : StopReason} (h : reason.cycleLimit? = none) :
    (core.requestStop reason).cycleLimit? = core.cycleLimit? := by
  unfold cycleLimit? requestStop StopReason.request
  cases core.stop with
  | none => exact h
  | some first => rfl

theorem cycleLimit?_settle (core : Core) (access : Access) :
    (core.settle access).cycleLimit? = core.cycleLimit? := by
  rw [settle_or, cycleLimit?, cycleLimit?]
  cases core.stop with
  | none => cases access.missing <;> rfl
  | some first => rfl

end Core

/-! ## Commit -/

/-- Writes a register if there is one to write. -/
def Registers.put (regs : Registers) (dest : Option Nat) (value : UInt64) : Registers :=
  match dest with
  | some r => regs.write r value
  | none => regs

theorem Registers.read_put_of_ne {regs : Registers} {dest : Option Nat} {value : UInt64} {r : Nat}
    (h : r ∉ dest.toList) : (regs.put dest value).read r = regs.read r := by
  cases dest with
  | none => rfl
  | some d =>
    have ne : ¬ (d = r ∧ d < Register.zero) := fun hc => h (by simp [hc.1])
    rw [put, read_write, if_neg ne]

theorem Core.reserve_eq (core : Core) (dest : Option Nat) :
    core.reserve dest = { core with reservations := core.reservations ++ dest.toList } := by
  cases dest with
  | none => rw [Option.toList_none, List.append_nil]; rfl
  | some r => rfl

/-- A commit whose own reservation is the oldest one releases it and writes its register. -/
theorem Core.commit_of_reserved {core : Core} {e : Accessed} {op : Operation} {rest : List Nat}
    (hop : Operation.ofWord? e.word = some op)
    (hr : core.reservations = e.word.dest?.toList ++ rest) :
    core.commit e =
      ({ core with
          statistics := core.statistics.retire op
          reservations := rest
          registers := core.registers.put e.word.dest? e.value }, .ok e.word.dest?) := by
  have dest := Word.dest?_of_ofWord? hop
  unfold commit
  simp only [hop]
  cases hw : op.writesRegister with
  | true =>
    rw [hw, if_pos rfl] at dest
    rw [dest] at hr ⊢
    simp only [retire, hr, if_true, Option.toList_some, List.singleton_append, Reservations.release?]
    rfl
  | false =>
    rw [hw] at dest
    simp only [Bool.false_eq_true, if_false] at dest ⊢
    rw [dest] at hr ⊢
    rw [Option.toList_none, List.nil_append] at hr
    rw [← hr]
    rfl

/-- Whatever becomes of it, a commit changes registers, reservations and counters only. -/
theorem Core.kept_commit {β : Type} {f : Core → β}
    (kept : ∀ core registers reservations statistics,
      f { core with registers, reservations, statistics } = f core)
    (core : Core) (e : Accessed) : f (core.commit e).1 = f core := by
  unfold commit
  cases Operation.ofWord? e.word with
  | none => rfl
  | some op =>
    dsimp only
    split
    · split <;> exact kept core _ _ _
    · exact kept core _ _ _

/-- A commit that succeeds counts its instruction. -/
theorem Core.commit_eq {core core' : Core} {e : Accessed} {written : Option Nat}
    (h : core.commit e = (core', .ok written)) :
    ∃ op registers reservations,
      core' = { core with registers, reservations, statistics := core.statistics.retire op } := by
  unfold commit at h
  cases hop : Operation.ofWord? e.word with
  | none => rw [hop] at h; cases h
  | some op =>
    rw [hop] at h
    dsimp only at h
    split at h
    · split at h
      · cases h
      · cases h
        exact ⟨op, _, _, rfl⟩
    · cases h
      exact ⟨op, _, _, rfl⟩

end Legv8
