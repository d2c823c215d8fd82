import Legv8.Proofs.Memory.Programs
import Legv8.Proofs.Timing.Cycles

/-! # The rate of a stream without hazards

Moves and arithmetic none of which waits for another run at the rate of the front end, and that is one
instruction in two pulses: a fetch is launched only while the latch to decode is free, and so never in the
pulse in which the fetch before it is completed. -/
namespace Legv8

/-- A move or an arithmetic instruction whose destination is not the zero register. -/
def Word.Arithmetic (w : Word) : Prop :=
  ∃ op, Operation.ofWord? w = some op ∧ (op.format = .im ∨ op.format = .r ∨ op.format = .i) ∧
    w.rd ≠ Register.zero

namespace Word.Arithmetic

variable {w : Word}

theorem supported (h : w.Arithmetic) : w.Supported := by
  obtain ⟨op, hop, _, dest⟩ := h
  refine ⟨_, by rw [Instruction.decode?, hop, Option.map_some], ?_⟩
  rw [Instruction.writesZeroRegister, beq_eq_false_iff_ne.mpr dest, Bool.and_false]

theorem operation (h : w.Arithmetic) : ∃ op, Operation.ofWord? w = some op ∧ op ≠ .hlt ∧
    op.isBranch = false ∧ op.isStore = false ∧ op.accessWidth? = none := by
  obtain ⟨op, hop, format, _⟩ := h
  refine ⟨op, hop, ?_⟩
  cases op <;> first | exact ⟨by decide, rfl, rfl, rfl⟩ | simp [Operation.format] at format

end Word.Arithmetic

theorem Word.supported_of_hlt {w : Word} (h : Operation.ofWord? w = some .hlt) : w.Supported :=
  ⟨_, by rw [Instruction.decode?, h, Option.map_some], rfl⟩

theorem Word.reads_of_hlt {w : Word} (h : Operation.ofWord? w = some .hlt) (r : Nat) : w.reads r = false := by
  rw [Word.reads, Instruction.decode?, h]
  rfl

/-- A program of moves and arithmetic none of which reads what an earlier one writes, and the halt behind
it. -/
structure HazardFree (words : List Word) (halt : Word) : Prop where
  arithmetic : ∀ w ∈ words, w.Arithmetic
  independent : words.Pairwise fun earlier later => earlier.dest?.any later.reads = false
  halts : Operation.ofWord? halt = some .hlt

/-- A move from an immediate, to a register other than the zero register. -/
def Word.isMove (w : Word) : Bool := Operation.ofWord? w == some .movz && w.rd != Register.zero

theorem Word.isMove_iff {w : Word} :
    w.isMove = true ↔ Operation.ofWord? w = some .movz ∧ w.rd ≠ Register.zero := by
  rw [isMove, Bool.and_eq_true, beq_iff_eq, bne_iff_ne]

/-- A move reads nothing, so that no stream of moves has a hazard. -/
theorem hazardFree_of_moves {words : List Word} {halt : Word} (moves : words.all (·.isMove) = true)
    (halts : Operation.ofWord? halt = some .hlt) : HazardFree words halt := by
  have move : ∀ w ∈ words, Operation.ofWord? w = some .movz ∧ w.rd ≠ Register.zero := fun w hw =>
    Word.isMove_iff.mp (List.all_eq_true.mp moves w hw)
  refine ⟨fun w hw => ⟨.movz, (move w hw).1, .inl rfl, (move w hw).2⟩, ?_, halts⟩
  refine List.pairwise_of_forall_mem_list fun earlier _ later hl => ?_
  rw [Option.any_eq_false]
  intro r _
  rw [Word.reads, Instruction.decode?, (move later hl).1]
  rfl

/-! ## Steps -/

/-- Only branches have targets. -/
theorem Alu.perform_target {alu alu' : Alu} {op : Operation} {e : Issued} {out : Executed}
    {target : Option UInt64} (straight : op.isBranch = false)
    (h : alu.perform op e = (.forward out target, alu')) : target = none := by
  cases op with
  | b | cbz | cbnz => cases straight
  | _ => cases h <;> rfl

namespace Sequential

variable {s : Sequential}

/-- A move or an arithmetic instruction goes on to the next word and leaves memory alone. -/
theorem step_of_arithmetic (live : s.core.stop = none) (idle : s.core.reservations = [])
    (inside : s.entry.fault = none) (h : s.entry.word.Arithmetic) :
    s.step.2 = .ok none ∧ s.step.1.core.pc = s.core.pc + 4 ∧
      s.step.1.core.memory = s.core.memory ∧ s.takesBranch = false := by
  obtain ⟨op, hop, runs, straight, _, width⟩ := h.operation
  rcases s.step_cases with ⟨addr, outside⟩ | ⟨_, err, rejected⟩ | ⟨y, alu, issues, halts⟩ |
    ⟨out, target, alu, op', executes, _⟩
  · cases inside.symm.trans outside
  · obtain ⟨i, accepts⟩ := Fetched.accept_of_supported h.supported
    cases accepts.symm.trans rejected
  · have halt := (Alu.execute_halt halts).1
    rw [issues.word, hop] at halt
    exact absurd (Option.some.inj halt) runs
  · obtain ⟨y, issues, result⟩ := executes
    rw [← issues.word] at hop
    rw [Alu.execute_of_ofWord? s.alu hop] at result
    obtain rfl := Alu.perform_target straight (Except.ok.inj result)
    have executes : s.Executes out none alu :=
      ⟨y, issues, (Alu.execute_of_ofWord? s.alu hop).trans result⟩
    have word : Operation.ofWord? out.word = some op := by
      rw [congrArg InFlight.word executes.toInFlight, ← issues.word]
      exact hop
    have access : s.accessOf out = _ := Executed.access_of_width word width s.access s.core.memory
    have missing : (s.accessOf out).missing = [] := congrArg Access.missing access
    obtain ⟨continues, _, core⟩ := step_of_access live executes word idle missing
    refine ⟨continues, ?_, ?_, executes.takesBranch⟩
    · rw [core, Option.getD_none, congrArg InFlight.nextPc executes.toInFlight, nextPc_entry]
    · rw [core, access]
      rfl

theorem step_of_hlt (live : s.core.stop = none) (inside : s.entry.fault = none)
    (h : Operation.ofWord? s.entry.word = some .hlt) : s.step.2 = .ok (some (.halted s.core.pc)) ∧
      s.step.1.core.memory = s.core.memory := by
  rcases s.step_cases with ⟨addr, outside⟩ | ⟨_, err, rejected⟩ | ⟨y, alu, issues, halts⟩ |
    ⟨out, target, alu, op, ⟨y, issues, result⟩, _⟩
  · cases inside.symm.trans outside
  · obtain ⟨i, accepts⟩ := Fetched.accept_of_supported (Word.supported_of_hlt h)
    cases accepts.symm.trans rejected
  · obtain ⟨result, core, _⟩ := step_of_halt live issues halts
    refine ⟨result, ?_⟩
    rw [core]
    rfl
  · obtain ⟨_, op', hop, runs⟩ := Alu.execute_forward result
    rw [issues.word, h] at hop
    exact absurd (Option.some.inj hop).symm runs

end Sequential

/-! ## The schedule -/

namespace ExecutedPath

variable {π : ExecutedPath} {n i : Nat} (branches : ∀ i < n, π.branches i = false)
  (waits : ∀ i ≤ n, ∀ j < i, π.waits i j = false)
include branches waits

/-- Every other pulse an instruction enters decode, and it is issued in the next one. -/
theorem schedule_of_free (hi : i ≤ n) : π.enters i = 2 * i + 3 ∧ π.issues i = 2 * i + 4 := by
  induction i with
  | zero =>
    have enters : π.enters 0 = 3 := enters_zero
    refine ⟨enters, eq_of_forall_ge_iff fun t => ?_⟩
    rw [issues_le_iff, enters]
    exact and_iff_left fun j hj => absurd hj (Nat.not_lt_zero j)
  | succ i ih =>
    obtain ⟨entered, issued⟩ := ih (Nat.le_of_succ_le hi)
    have enters : π.enters (i + 1) = 2 * (i + 1) + 3 := by
      rw [enters_succ_of_not_branches (branches i hi), entered, issued]
      omega
    refine ⟨enters, eq_of_forall_ge_iff fun t => ?_⟩
    rw [issues_le_iff, enters]
    refine and_iff_left fun j hj waiting => ?_
    rw [waits (i + 1) hi j hj] at waiting
    cases waiting

theorem finish_of_free : π.finish n = if n = 0 then 6 else 2 * n + 8 := by
  have last := (schedule_of_free branches waits (Nat.le_refl n)).2
  cases n with
  | zero => rw [finish, last, if_pos rfl]
  | succ n =>
    have before := (schedule_of_free branches waits (Nat.le_succ n)).2
    rw [finish, last, before, if_neg (Nat.succ_ne_zero n)]
    omega

end ExecutedPath

/-! ## The run -/

section Program

variable {words : List Word} {halt : Word} {size : UInt64} {image : Memory} (tracing : Bool)
  (free : HazardFree words halt)
  (program : Memory.ofProgram size.toNat (words ++ [halt]) = .ok image)
include program

/-- Word `i` of the program, or a zero behind it. -/
theorem entryAt_stream {i : Nat} {addr : UInt64} (at_ : addr.toNat = Word.size * i)
    (inside : Word.size * (i + 1) ≤ size.toNat) :
    (image.entryAt addr).fault = none ∧ (image.entryAt addr).word = (words ++ [halt]).getD i 0 := by
  rw [Memory.entryAt_ofProgram program at_ inside]
  exact ⟨rfl, rfl⟩

theorem fits_stream {i : Nat} (hi : i ≤ words.length) : Word.size * (i + 1) ≤ size.toNat := by
  have fits := (Memory.ofProgram_eq_ok program).1
  rw [List.length_append, List.length_singleton] at fits
  exact Nat.le_trans (Nat.mul_le_mul_left _ (Nat.succ_le_succ hi)) fits

include free

/-- The machine executes the program word by word. -/
theorem after_stream {i : Nat} (hi : i ≤ words.length) :
    (Sequential.new (.new image 0 tracing)).Reaches i ∧
      ((Sequential.new (.new image 0 tracing)).after i).core.pc.toNat = Word.size * i ∧
      ((Sequential.new (.new image 0 tracing)).after i).core.memory = image ∧
      ∀ j < i, ((Sequential.new (.new image 0 tracing)).after j).takesBranch = false := by
  generalize hs : Sequential.new (.new image 0 tracing) = s
  have live₀ : s.core.stop = none := by rw [← hs]; rfl
  have idle₀ : s.core.reservations = [] := by rw [← hs]; rfl
  induction i with
  | zero =>
    rw [← hs]
    exact ⟨Sequential.reaches_zero _, rfl, rfl, fun j hj => absurd hj (Nat.not_lt_zero j)⟩
  | succ i ih =>
    obtain ⟨reaches, pc, memory, straight⟩ := ih (Nat.le_of_succ_le hi)
    have live := reaches.stop idle₀ live₀
    have fits := fits_stream program hi
    have entry := entryAt_stream program pc (fits_stream program (Nat.le_of_succ_le hi))
    rw [← memory] at entry
    have word : (s.after i).entry.word.Arithmetic := by
      rw [show (s.after i).entry.word = words[i] by
        rw [Sequential.entry, entry.2, List.getD_eq_getElem?_getD, List.getElem?_append_left hi,
          List.getElem?_eq_getElem hi, Option.getD_some]]
      exact free.arithmetic _ (List.getElem_mem hi)
    obtain ⟨continues, next, kept, falls⟩ := Sequential.step_of_arithmetic live
      (Sequential.reservations_after idle₀ i) entry.1 word
    refine ⟨reaches.succ continues, ?_, kept.trans memory, fun j hj => ?_⟩
    · have bound := size.toNat_lt
      rw [Sequential.after, next, UInt64.toNat_add, pc, show (4 : UInt64).toNat = Word.size from rfl,
        ← Nat.mul_succ, Nat.mod_eq_of_lt]
      unfold Word.size at fits ⊢
      omega
    · rcases Nat.lt_succ_iff_lt_or_eq.mp hj with early | rfl
      · exact straight j early
      · exact falls

theorem entry_stream {i : Nat} (hi : i ≤ words.length) :
    ((Sequential.new (.new image 0 tracing)).after i).entry.fault = none ∧
      ((Sequential.new (.new image 0 tracing)).after i).entry.word = (words ++ [halt]).getD i 0 := by
  obtain ⟨_, pc, memory, _⟩ := after_stream tracing free program hi
  rw [Sequential.entry, memory]
  exact entryAt_stream program pc (fits_stream program hi)

theorem word_stream {i : Nat} (hi : i < words.length) :
    ((Sequential.new (.new image 0 tracing)).after i).entry.word = words[i] := by
  rw [(entry_stream tracing free program (Nat.le_of_lt hi)).2, List.getD_eq_getElem?_getD,
    List.getElem?_append_left hi, List.getElem?_eq_getElem hi, Option.getD_some]

theorem word_stream_last :
    ((Sequential.new (.new image 0 tracing)).after words.length).entry.word = halt := by
  rw [(entry_stream tracing free program (Nat.le_refl _)).2, List.getD_eq_getElem?_getD,
    List.getElem?_append_right (Nat.le_refl _), Nat.sub_self, List.getElem?_cons_zero, Option.getD_some]

theorem halts_stream :
    (Sequential.new (.new image 0 tracing)).StopsAt words.length
        (.halted (Word.size * words.length).toUInt64) ∧
      ∀ i ≤ words.length + 1,
        ((Sequential.new (.new image 0 tracing)).after i).core.memory = image := by
  obtain ⟨reaches, pc, memory, _⟩ := after_stream tracing free program (Nat.le_refl _)
  have halt := word_stream_last tracing free program
  obtain ⟨stops, kept⟩ := Sequential.step_of_hlt (reaches.stop rfl rfl)
    (entry_stream tracing free program (Nat.le_refl _)).1 (halt.symm ▸ free.halts)
  rw [← UInt64.ofNat_toNat (x := Sequential.core _ |>.pc), pc] at stops
  refine ⟨⟨reaches, stops⟩, fun i hi => ?_⟩
  rcases Nat.le_succ_iff.mp hi with early | rfl
  · exact (after_stream tracing free program early).2.2.1
  · exact kept.trans memory

theorem path_stream :
    (∀ i < words.length, (Sequential.new (.new image 0 tracing)).path.branches i = false) ∧
      ∀ i ≤ words.length, ∀ j < i, (Sequential.new (.new image 0 tracing)).path.waits i j = false := by
  refine ⟨fun i hi => ?_, fun i hi j hj => ?_⟩
  · rw [Sequential.branches_path]
    exact (after_stream tracing free program hi).2.2.2 i (Nat.lt_succ_self i)
  · rw [Sequential.waits_path, word_stream tracing free program (Nat.lt_of_lt_of_le hj hi)]
    rcases Nat.lt_or_eq_of_le hi with early | rfl
    · rw [word_stream tracing free program early]
      exact List.pairwise_iff_getElem.mp free.independent j i (Nat.lt_trans hj early) early hj
    · rw [word_stream_last tracing free program, Option.any_eq_false]
      exact fun r _ => Word.reads_of_hlt free.halts r

theorem codeUntouched_stream : (Sequential.new (.new image 0 tracing)).CodeUntouched := by
  obtain ⟨stops, _⟩ := halts_stream tracing free program
  refine Sequential.codeUntouched_of_noStore rfl (by rw [stops.stop_after rfl]; rfl) fun i hi => ?_
  obtain ⟨op, hop, _, _, store, _⟩ := (free.arithmetic _ (List.getElem_mem hi)).operation
  rw [word_stream tracing free program hi, hop, Option.all_some, store]
  rfl

/-- Whatever is fetched ahead is a word of the program, the halt or a zero, and all of them are accepted. -/
theorem supported_stream : image.SupportedFrom 0 := by
  intro addr aligned inside
  have four : addr.toNat % 4 = 0 := WordsApart.toNat_mod.mp aligned
  have at_ : addr.toNat = Word.size * (addr.toNat / 4) := by
    unfold Word.size
    omega
  have fits := Memory.fits_of_entryAt at_ inside
  rw [Memory.size_ofProgram program] at fits
  rw [(entryAt_stream program at_ fits).2, List.getD_eq_getElem?_getD]
  cases hw : (words ++ [halt])[addr.toNat / 4]? with
  | none => exact Word.supported_of_hlt (by decide +kernel)
  | some w =>
    rcases List.mem_append.mp (List.mem_of_getElem? hw) with held | last
    · exact (free.arithmetic w held).supported
    · rw [List.mem_singleton.mp last]
      exact Word.supported_of_hlt free.halts

theorem ends_stream :
    let p := Pipeline.new (.new image 0 tracing)
    let n := if words.length = 0 then 6 else 2 * words.length + 8
    (∀ t, (p.pulses t).pulse.2 = none) ∧ (∀ t < n, (p.pulses t).core.stop = none) ∧
      (p.pulses n).core.stop = some (.halted (Word.size * words.length).toUInt64) ∧
      (p.pulses n).core.statistics.cycles = n := by
  intro p n
  have start : Pipeline.Starts image 0 p := .fresh tracing
  have code := codeUntouched_stream tracing free program
  obtain ⟨halts, memory⟩ := halts_stream tracing free program
  obtain ⟨branches, waits⟩ := path_stream tracing free program
  have finish : (Sequential.new (.new image 0 tracing)).path.finish words.length = n :=
    ExecutedPath.finish_of_free branches waits
  obtain ⟨running, stopped⟩ := stops_finish start code halts
  rw [finish] at running stopped
  obtain ⟨reason, stop⟩ := Option.ne_none_iff_exists'.mp stopped
  refine ⟨pulses_succeed start code halts fun i hi => ?_, running, ?_, ?_⟩
  · rw [memory i hi]
    exact supported_stream free program
  · rw [stop, (refines_pulses start code n).2.stop_eq halts rfl rfl stop]
  · rw [Pipeline.cycles_pulses running]
    exact Nat.zero_add n

end Program

/-- A program of moves and arithmetic none of which waits for another halts after two cycles for each of
them and eight more, so that it retires one instruction every other cycle. -/
theorem cycles_of_hazardFree {words : List Word} {halt : Word} {size : UInt64} {image : Memory}
    (tracing : Bool) (free : HazardFree words halt)
    (program : Memory.ofProgram size.toNat (words ++ [halt]) = .ok image) :
    let p := Pipeline.new (.new image 0 tracing)
    let n := if words.length = 0 then 6 else 2 * words.length + 8
    (∀ t, (p.pulses t).pulse.2 = none) ∧ (∀ t < n, (p.pulses t).core.stop = none) ∧
      (p.pulses n).core.stop = some (.halted (Word.size * words.length).toUInt64) ∧
      (p.pulses n).core.statistics.cycles = n :=
  ends_stream tracing free program

/-- Three moves to different registers and a halt. -/
def Pipeline.threeMoves : Memory := .ofWords [0xD2800021, 0xD2800042, 0xD2800063, 0]

/-- Three moves and a halt take fourteen cycles. -/
theorem threeMoves_cycles :
    HazardFree [0xD2800021, 0xD2800042, 0xD2800063] 0 ∧
      Memory.ofProgram (16 : UInt64).toNat ([0xD2800021, 0xD2800042, 0xD2800063] ++ [0]) =
        .ok Pipeline.threeMoves ∧
      ((Pipeline.new (.new Pipeline.threeMoves 0 false)).pulses 14).core.stop = some (.halted 12) ∧
      ((Pipeline.new (.new Pipeline.threeMoves 0 false)).pulses 14).core.statistics.cycles = 14 := by
  have free : HazardFree [0xD2800021, 0xD2800042, 0xD2800063] 0 :=
    hazardFree_of_moves (by decide +kernel) (by decide +kernel)
  have program : Memory.ofProgram (16 : UInt64).toNat
      ([0xD2800021, 0xD2800042, 0xD2800063] ++ [0]) = .ok Pipeline.threeMoves := rfl
  obtain ⟨_, _, stop, cycles⟩ := cycles_of_hazardFree false free program
  simp only [List.length_cons, List.length_nil, Nat.reduceAdd, Nat.reduceMul, Nat.reduceEqDiff, if_false]
    at stop cycles
  exact ⟨free, program, stop, cycles⟩

/-- No number of cycles makes up for the rate: whatever the start of a run is granted, some stream that a
memory can hold is later than one cycle for each instruction behind it. -/
theorem exists_late_stream (c : Nat) (fits : Word.size * (c + 1) < 2 ^ 64) :
    ∃ words halt image, ∃ size : UInt64, HazardFree words halt ∧
      Memory.ofProgram size.toNat (words ++ [halt]) = .ok image ∧
      ((Pipeline.new (.new image 0 false)).pulses (words.length + c)).core.stop = none := by
  have move : (0xD2800021 : Word).isMove = true := by decide +kernel
  have free : HazardFree (List.replicate c 0xD2800021) 0 :=
    hazardFree_of_moves (by rw [List.all_replicate, move, ite_self]) (by decide +kernel)
  have size : (Word.size * (c + 1)).toUInt64.toNat = Word.size * (c + 1) := by
    rw [Nat.toUInt64, UInt64.toNat_ofNat', Nat.mod_eq_of_lt fits]
  have program : ∃ image, Memory.ofProgram (Word.size * (c + 1)).toUInt64.toNat
      (List.replicate c 0xD2800021 ++ [0]) = .ok image := by
    have whole : (List.replicate c (0xD2800021 : Word) ++ [0]).length = c + 1 := by
      rw [List.length_append, List.length_replicate, List.length_singleton]
    rw [size, Memory.ofProgram, whole, if_neg (Nat.lt_irrefl _)]
    exact ⟨_, rfl⟩
  obtain ⟨image, program⟩ := program
  refine ⟨_, _, image, _, free, program, ?_⟩
  refine (ends_stream false free program).2.1 _ ?_
  rw [List.length_replicate]
  split <;> omega

end Legv8
