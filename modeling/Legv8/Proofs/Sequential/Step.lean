import Legv8.Proofs.Datapath
import Legv8.Sequential

/-! # One step of the sequential machine

What a step does is read off the forms that its instruction takes on the way through the datapath: the
entry that it fetches, what that issues, what this executes to, and what the memory access hands to the
commit. Each way for a step to end has one statement here; later proofs cite these and never unfold the
step. -/
namespace Legv8

/-- The counters with which an instruction comes out of execution. -/
def Core.began (core : Core) (target : Option UInt64) : Core :=
  match target with
  | some _ => core.countCycle.countTaken
  | none => core.countCycle

/-- What retirement counts: instructions by class, and all of them. -/
structure Statistics.Tally where
  alu : Nat
  loads : Nat
  stores : Nat
  branches : Nat
  system : Nat
  deriving DecidableEq

def Statistics.tally (s : Statistics) : Tally :=
  { alu := s.alu, loads := s.loads, stores := s.stores, branches := s.branches, system := s.system }

namespace Statistics

theorem tally_retire_congr {s t : Statistics} (h : s.tally = t.tally) (op : Operation) :
    (s.retire op).tally = (t.retire op).tally := by
  simp only [tally, Tally.mk.injEq] at h
  obtain ⟨ha, hl, hs, hb, hy⟩ := h
  cases op <;> simp [tally, retire, countClass, Operation.format, Operation.isStore, ha, hl, hs, hb, hy]

theorem retired_retire (s : Statistics) (op : Operation) : (s.retire op).retired = s.retired + 1 := by
  cases op <;> rfl

theorem taken_retire (s : Statistics) (op : Operation) : (s.retire op).taken = s.taken := by
  cases op <;> rfl

end Statistics

/-- A commit counts one retired instruction. -/
theorem Core.retired_commit {core core' : Core} {e : Accessed} {written : Option Nat}
    (h : core.commit e = (core', .ok written)) :
    core'.statistics.retired = core.statistics.retired + 1 := by
  obtain ⟨op, _, _, rfl⟩ := commit_eq h
  exact Statistics.retired_retire _ op

namespace Sequential

variable {s : Sequential}

/-- The entry that the next step fetches. -/
def entry (s : Sequential) : Fetched := s.core.memory.entryAt s.core.pc

theorem nextPc_entry (s : Sequential) : s.entry.nextPc = s.core.pc + 4 := rfl

theorem pc_entry (s : Sequential) : s.entry.pc = s.core.pc := by
  unfold InFlight.pc
  rw [nextPc_entry, UInt64.add_sub_cancel]

/-- The next step issues `y`. -/
structure Issues (s : Sequential) (y : Issued) : Prop where
  inside : s.entry.fault = none
  issue : s.entry.issue s.core.registers = .ok y

/-- The next step executes to `out`, with the target of a taken branch. -/
def Executes (s : Sequential) (out : Executed) (target : Option UInt64) (alu : Alu) : Prop :=
  ∃ y, s.Issues y ∧ s.alu.execute y = .ok (.forward out target, alu)

/-- The memory access that the next step makes for `out`. -/
def accessOf (s : Sequential) (out : Executed) : Access := out.access s.access s.core.memory

/-- The next step hands `w` to the commit. -/
def Accesses (s : Sequential) (w : Accessed) : Prop :=
  ∃ out target alu, s.Executes out target alu ∧ (s.accessOf out).out = w

theorem Issues.toInFlight {y : Issued} (h : s.Issues y) : y.toInFlight = s.entry.toInFlight := by
  obtain ⟨i, _, rfl⟩ := Fetched.issue_eq_ok_iff.mp h.issue
  rfl

theorem Issues.word {y : Issued} (h : s.Issues y) : y.word = s.entry.word :=
  congrArg InFlight.word h.toInFlight

theorem Issues.dest {y : Issued} (h : s.Issues y) : y.dest = y.word.dest? := by
  obtain ⟨i, hi, rfl⟩ := Fetched.issue_eq_ok_iff.mp h.issue
  exact Instruction.dest?_of_decode? (Fetched.accept_eq_ok_iff.mp hi).1

theorem Executes.toInFlight {out target alu} (h : s.Executes out target alu) :
    out.toInFlight = s.entry.toInFlight := by
  obtain ⟨y, hy, hx⟩ := h
  rw [(Alu.execute_forward hx).1, hy.toInFlight]

theorem accessOf_out (s : Sequential) (out : Executed) :
    (s.accessOf out).out.toInFlight = out.toInFlight := by
  rw [accessOf, Executed.access_out]

theorem Accesses.toInFlight {w : Accessed} (h : s.Accesses w) : w.toInFlight = s.entry.toInFlight := by
  obtain ⟨out, target, alu, hx, rfl⟩ := h
  rw [accessOf_out, hx.toInFlight]

theorem Issues.unique {y z : Issued} (hy : s.Issues y) (hz : s.Issues z) : y = z :=
  Except.ok.inj (hy.issue.symm.trans hz.issue)

theorem Executes.unique {out out' : Executed} {target target' : Option UInt64} {alu alu' : Alu}
    (h : s.Executes out target alu) (h' : s.Executes out' target' alu') :
    out = out' ∧ target = target' ∧ alu = alu' := by
  obtain ⟨y, hy, hx⟩ := h
  obtain ⟨z, hz, hx'⟩ := h'
  rw [hz.unique hy, hx, Except.ok.injEq, Prod.mk.injEq, Execution.forward.injEq] at hx'
  exact ⟨hx'.1.1, hx'.1.2, hx'.2⟩

/-! ## The ways for a step to end -/

theorem step_of_stop {reason : StopReason} (h : s.core.stop = some reason) :
    s.step = (s, .ok (some reason)) := by
  unfold step
  rw [h]

/-- The machine as a step finds it after the fetch. -/
def fetchedState (s : Sequential) : Sequential :=
  { s with fetch := (s.fetch.fetch s.core.memory s.core.pc).2, core := s.core.countCycle }

theorem step_of_live (h : s.core.stop = none) :
    s.step = match s.entry.fault with
      | some addr => s.fetchedState.stopWith (.memoryFault addr)
      | none => s.fetchedState.perform s.entry := by
  unfold step
  rw [h]
  rfl

/-- A fetch that leaves memory stops the machine and changes nothing but the cycle count. -/
theorem step_of_fault (h : s.core.stop = none) {addr : UInt64} (hf : s.entry.fault = some addr) :
    s.step.2 = .ok (some (.memoryFault addr)) ∧
      s.step.1.core = { s.core.countCycle with stop := some (.memoryFault addr) } ∧
      s.step.1.alu = s.alu := by
  simp only [step_of_live h, hf]
  simp [fetchedState, stopWith, requestStop, Core.requestStop, Core.countCycle, StopReason.request, h]

theorem perform_of_rejected {e : Fetched} {err : ExecutionError} (ha : e.accept = .error err) :
    s.perform e = (s, .error err) := by
  unfold perform Fetched.issue
  simp only [ha]

/-- A rejected word fails the step. -/
theorem step_of_rejected (h : s.core.stop = none) (hf : s.entry.fault = none) {err : ExecutionError}
    (ha : s.entry.accept = .error err) : s.step = (s.fetchedState, .error err) := by
  simp only [step_of_live h, hf]
  exact perform_of_rejected ha

/-- A halt retires, stops the machine at its own address and leaves the flags standing. -/
theorem step_of_halt (h : s.core.stop = none) {y : Issued} {alu : Alu} (hy : s.Issues y)
    (hx : s.alu.execute y = .ok (.halt, alu)) :
    s.step.2 = .ok (some (.halted s.core.pc)) ∧
      s.step.1.core =
        { s.core.countCycle with
          statistics := s.core.countCycle.statistics.retire .hlt
          stop := some (.halted s.core.pc) } ∧
      s.step.1.alu = s.alu := by
  obtain ⟨_, rfl⟩ := Alu.execute_halt hx
  have issue : s.entry.issue s.fetchedState.core.registers = .ok y := hy.issue
  have execute : s.fetchedState.alu.execute y = .ok (.halt, s.alu) := hx
  have step : s.step = stopWith
      { s.fetchedState with alu := s.alu, core := s.fetchedState.core.retire .hlt }
      (.halted s.core.pc) := by
    simp only [step_of_live h, hy.inside]
    unfold perform
    simp only [issue, execute, pc_entry]
  rw [step]
  simp [fetchedState, stopWith, requestStop, Core.requestStop, Core.retire, Core.countCycle,
    StopReason.request, h]

/-- The machine as a step finds it after execution. -/
def executedState (s : Sequential) (target : Option UInt64) (alu : Alu) : Sequential :=
  { s.fetchedState with core := s.core.began target, alu }

theorem core_executedState (s : Sequential) (target : Option UInt64) (alu : Alu) :
    (s.executedState target alu).core = s.core.began target := rfl

theorem step_of_executes (h : s.core.stop = none) {out : Executed} {target : Option UInt64} {alu : Alu}
    (hx : s.Executes out target alu) :
    s.step = (s.executedState target alu).accessAndRetire out.word.dest? out
      (target.getD out.nextPc) := by
  obtain ⟨y, hy, he⟩ := hx
  obtain ⟨kept, _⟩ := Alu.execute_forward he
  have word : out.word = y.word := congrArg InFlight.word kept
  have nextPc : out.nextPc = s.entry.nextPc := congrArg InFlight.nextPc (kept.trans hy.toInFlight)
  have issue : s.entry.issue s.fetchedState.core.registers = .ok y := hy.issue
  have execute : s.fetchedState.alu.execute y = .ok (.forward out target, alu) := he
  rw [word, ← hy.dest, nextPc]
  simp only [step_of_live h, hy.inside]
  unfold perform
  simp only [issue, execute]
  cases target with
  | none => rfl
  | some t => rfl

theorem memory_began (core : Core) (target : Option UInt64) :
    (core.began target).memory = core.memory := by
  cases target <;> rfl

theorem registers_began (core : Core) (target : Option UInt64) :
    (core.began target).registers = core.registers := by
  cases target <;> rfl

theorem pc_began (core : Core) (target : Option UInt64) : (core.began target).pc = core.pc := by
  cases target <;> rfl

theorem stop_began (core : Core) (target : Option UInt64) : (core.began target).stop = core.stop := by
  cases target <;> rfl

theorem accessOf_executedState (s : Sequential) (target : Option UInt64) (alu : Alu) (out : Executed) :
    (s.executedState target alu).accessOf out = s.accessOf out := by
  have memory : (s.executedState target alu).core.memory = s.core.memory := memory_began s.core target
  unfold accessOf
  rw [memory]
  rfl

theorem accessAndRetire_of_fault (h : s.core.stop = none) {dest : Option Nat} {out : Executed}
    {next addr : UInt64} {rest : List UInt64} (hm : (s.accessOf out).missing = addr :: rest) :
    s.accessAndRetire dest out next =
      ({ s with
          access := (s.accessOf out).bus
          core := { s.core with
            memory := (s.accessOf out).memory s.core.memory
            stop := some (.memoryFault addr) } }, .ok (some (.memoryFault addr))) := by
  have settled := Core.settle_eq (s.accessOf out) h
  rw [hm, List.head?_cons, Option.map_some] at settled
  unfold accessAndRetire
  unfold accessOf at settled ⊢
  simp only [settled]

theorem accessAndRetire_of_inside (h : s.core.stop = none) {dest : Option Nat} {out : Executed}
    {next : UInt64} (hm : (s.accessOf out).missing = []) :
    s.accessAndRetire dest out next =
      retire
        { s with
          access := (s.accessOf out).bus
          core := { s.core with memory := (s.accessOf out).memory s.core.memory } }
        dest (s.accessOf out).out next := by
  have settled := Core.settle_eq (s.accessOf out) h
  rw [hm, List.head?_nil, Option.map_none, ← h] at settled
  unfold accessAndRetire
  unfold accessOf at settled ⊢
  simp only [settled, h]

/-- With nothing else reserved an instruction reserves its destination and releases it at once. -/
theorem retire_of_idle {w : Accessed} {op : Operation} {next : UInt64}
    (hop : Operation.ofWord? w.word = some op) (hr : s.core.reservations = []) :
    s.retire w.word.dest? w next =
      ({ s with
          core := { s.core with
            statistics := s.core.statistics.retire op
            registers := s.core.registers.put w.word.dest? w.value
            pc := next } }, .ok none) := by
  have own : (s.core.reserve w.word.dest?).reservations = w.word.dest?.toList ++ [] := by
    simp only [Core.reserve_eq, hr, List.nil_append, List.append_nil]
  unfold retire
  rw [Core.commit_of_reserved hop own, Core.reserve_eq, ← hr]

/-- An access that leaves memory stops the machine: what it stored inside memory stays, and nothing is
committed. -/
theorem step_of_accessFault (h : s.core.stop = none) {out : Executed} {target : Option UInt64} {alu : Alu}
    (hx : s.Executes out target alu) {addr : UInt64} {rest : List UInt64}
    (hm : (s.accessOf out).missing = addr :: rest) :
    s.step.2 = .ok (some (.memoryFault addr)) ∧
      s.step.1.core =
        { s.core.began target with
          memory := (s.accessOf out).memory s.core.memory
          stop := some (.memoryFault addr) } := by
  have live : (s.executedState target alu).core.stop = none := by
    rw [← h]; cases target <;> rfl
  rw [← s.accessOf_executedState target alu] at hm
  rw [step_of_executes h hx, accessAndRetire_of_fault live hm, accessOf_executedState,
    ← memory_began s.core target]
  exact ⟨rfl, rfl⟩

/-- An access inside memory lets the instruction commit, and the machine goes on. -/
theorem step_of_access (h : s.core.stop = none) {out : Executed} {target : Option UInt64} {alu : Alu}
    (hx : s.Executes out target alu) {op : Operation} (hop : Operation.ofWord? out.word = some op)
    (hr : s.core.reservations = []) (hm : (s.accessOf out).missing = []) :
    s.step.2 = .ok none ∧
      s.step.1.alu = alu ∧
      s.step.1.core =
        { s.core.began target with
          memory := (s.accessOf out).memory s.core.memory
          statistics := (s.core.began target).statistics.retire op
          registers := s.core.registers.put out.word.dest? (s.accessOf out).out.value
          pc := target.getD out.nextPc } := by
  have live : (s.executedState target alu).core.stop = none := by
    rw [← h]; cases target <;> rfl
  have word : (s.accessOf out).out.word = out.word := congrArg InFlight.word (s.accessOf_out out)
  rw [← s.accessOf_executedState target alu] at hm
  have idle : (s.core.began target).reservations = [] := by
    rw [← hr]; cases target <;> rfl
  rw [← word] at hop
  rw [step_of_executes h hx, accessAndRetire_of_inside live hm, accessOf_executedState, ← word,
    retire_of_idle hop idle]
  refine ⟨rfl, rfl, ?_⟩
  simp only [core_executedState, memory_began, registers_began]

/-- The flags do not wait for the memory access. -/
theorem alu_step_of_executes (h : s.core.stop = none) {out : Executed} {target : Option UInt64} {alu : Alu}
    (hx : s.Executes out target alu) : s.step.1.alu = alu := by
  rw [step_of_executes h hx]
  unfold accessAndRetire
  dsimp only
  split
  · rfl
  · unfold retire
    split <;> rfl

/-! ## What every step has in common -/

/-- An instruction leaves memory at its fetch, is rejected, halts or executes. -/
theorem step_cases (s : Sequential) :
    (∃ addr, s.entry.fault = some addr) ∨
    (s.entry.fault = none ∧ ∃ err, s.entry.accept = .error err) ∨
    (∃ y alu, s.Issues y ∧ s.alu.execute y = .ok (.halt, alu)) ∨
    (∃ out target alu op, s.Executes out target alu ∧ Operation.ofWord? out.word = some op) := by
  cases hf : s.entry.fault with
  | some addr => exact .inl ⟨addr, rfl⟩
  | none =>
    cases ha : s.entry.accept with
    | error err => exact .inr (.inl ⟨rfl, err, rfl⟩)
    | ok i =>
      have hy : s.Issues (s.entry.operands i s.core.registers) :=
        ⟨hf, Fetched.issue_eq_ok_iff.mpr ⟨i, ha, rfl⟩⟩
      have hop := (Instruction.decode?_eq_some (Fetched.accept_eq_ok_iff.mp ha).1).1
      have he := Alu.execute_of_ofWord? (e := s.entry.operands i s.core.registers) s.alu hop
      rcases s.alu.perform_cases i.op (s.entry.operands i s.core.registers) with
        ⟨_, hp⟩ | ⟨_, out, target, alu, hp, kept⟩
      · exact .inr (.inr (.inl ⟨_, _, hy, by rw [he, hp]⟩))
      · refine .inr (.inr (.inr ⟨out, target, alu, i.op, ⟨_, hy, by rw [he, hp]⟩, ?_⟩))
        rw [congrArg InFlight.word kept]
        exact hop

/-- A step that returns shows whatever is pending afterwards. -/
theorem stop_step_of_ok (hr : s.core.reservations = []) {r : Option StopReason} (h : s.step.2 = .ok r) :
    s.step.1.core.stop = r := by
  cases hs : s.core.stop with
  | some reason =>
    rw [step_of_stop hs] at h ⊢
    cases h
    exact hs
  | none =>
    rcases s.step_cases with ⟨addr, hf⟩ | ⟨hf, err, ha⟩ | ⟨y, alu, hy, he⟩ |
      ⟨out, target, alu, op, hx, hop⟩
    · obtain ⟨result, core, _⟩ := step_of_fault hs hf
      rw [result] at h
      cases h
      rw [core]
    · rw [step_of_rejected hs hf ha] at h
      cases h
    · obtain ⟨result, core, _⟩ := step_of_halt hs hy he
      rw [result] at h
      cases h
      rw [core]
    · cases hm : (s.accessOf out).missing with
      | nil =>
        obtain ⟨result, _, core⟩ := step_of_access hs hx hop hr hm
        rw [result] at h
        cases h
        rw [core]
        exact (show (s.core.began target).stop = s.core.stop by cases target <;> rfl).trans hs
      | cons addr rest =>
        obtain ⟨result, core⟩ := step_of_accessFault hs hx hm
        rw [result] at h
        cases h
        rw [core]

/-- What a step that lets the machine go on has done. -/
theorem executes_of_continues (h : s.step.2 = .ok none) :
    s.core.stop = none ∧ ∃ out target alu op, s.Executes out target alu ∧
      Operation.ofWord? out.word = some op ∧ (s.accessOf out).missing = [] := by
  cases hs : s.core.stop with
  | some reason =>
    rw [step_of_stop hs] at h
    cases h
  | none =>
    refine ⟨rfl, ?_⟩
    rcases s.step_cases with ⟨addr, hf⟩ | ⟨hf, err, ha⟩ | ⟨y, alu, hy, he⟩ |
      ⟨out, target, alu, op, hx, hop⟩
    · rw [(step_of_fault hs hf).1] at h
      cases h
    · rw [step_of_rejected hs hf ha] at h
      cases h
    · rw [(step_of_halt hs hy he).1] at h
      cases h
    · cases hm : (s.accessOf out).missing with
      | nil => exact ⟨out, target, alu, op, hx, hop, hm⟩
      | cons addr rest =>
        rw [(step_of_accessFault hs hx hm).1] at h
        cases h

/-- Only a halt stops the machine as halted. -/
theorem halts_of_step (live : s.core.stop = none) (hr : s.core.reservations = []) {addr : UInt64}
    (h : s.step.2 = .ok (some (.halted addr))) :
    ∃ y alu, s.Issues y ∧ s.alu.execute y = .ok (.halt, alu) := by
  rcases s.step_cases with ⟨first, hf⟩ | ⟨hf, err, ha⟩ | halts | ⟨out, target, alu, op, hx, hop⟩
  · rw [(step_of_fault live hf).1] at h
    cases h
  · rw [step_of_rejected live hf ha] at h
    cases h
  · exact halts
  · cases hm : (s.accessOf out).missing with
    | nil =>
      rw [(step_of_access live hx hop hr hm).1] at h
      cases h
    | cons first rest =>
      rw [(step_of_accessFault live hx hm).1] at h
      cases h

/-- A step that lets the machine go on commits what its instruction executes to. -/
theorem step_of_continues (hr : s.core.reservations = []) (h : s.step.2 = .ok none) {out : Executed}
    {target : Option UInt64} {alu : Alu} (hx : s.Executes out target alu) :
    ∃ op, Operation.ofWord? out.word = some op ∧ (s.accessOf out).missing = [] ∧
      s.step.1.alu = alu ∧
      s.step.1.core =
        { s.core.began target with
          memory := (s.accessOf out).memory s.core.memory
          statistics := (s.core.began target).statistics.retire op
          registers := s.core.registers.put out.word.dest? (s.accessOf out).out.value
          pc := target.getD out.nextPc } := by
  obtain ⟨live, out', target', alu', op, hx', hop, inside⟩ := executes_of_continues h
  obtain ⟨rfl, rfl, rfl⟩ := hx.unique hx'
  obtain ⟨_, unit, core⟩ := step_of_access live hx hop hr inside
  exact ⟨op, hop, inside, unit, core⟩

theorem tally_began (core : Core) (target : Option UInt64) :
    (core.began target).statistics.tally = core.statistics.tally := by
  cases target <;> rfl

theorem retired_began (core : Core) (target : Option UInt64) :
    (core.began target).statistics.retired = core.statistics.retired := by
  cases target <;> rfl

theorem taken_began (core : Core) (target : Option UInt64) :
    (core.began target).statistics.taken = core.statistics.taken + target.isSome.toNat := by
  cases target <;> rfl

theorem reservations_began (core : Core) (target : Option UInt64) :
    (core.began target).reservations = core.reservations := by
  cases target <;> rfl

/-- What the memory access of a step leaves, whether or not it lets the machine go on. -/
theorem step_of_executes_memory (hs : s.core.stop = none) (hr : s.core.reservations = [])
    {out : Executed} {target : Option UInt64} {alu : Alu} (hx : s.Executes out target alu) :
    (∃ r, s.step.2 = .ok r) ∧
      s.step.1.core.memory = (s.accessOf out).memory s.core.memory ∧
      s.step.1.core.stop = (s.accessOf out).missing.head?.map .memoryFault := by
  cases hm : (s.accessOf out).missing with
  | nil =>
    obtain ⟨y, _, he⟩ := id hx
    obtain ⟨kept, op, hop, _⟩ := Alu.execute_forward he
    rw [← congrArg InFlight.word kept] at hop
    obtain ⟨result, _, core⟩ := step_of_access hs hx hop hr hm
    refine ⟨⟨_, result⟩, by rw [core], ?_⟩
    rw [stop_step_of_ok hr result]
    rfl
  | cons addr rest =>
    obtain ⟨result, core⟩ := step_of_accessFault hs hx hm
    exact ⟨⟨_, result⟩, by rw [core], by rw [core]; rfl⟩

/-- A step whose word is accepted does not fail. -/
theorem step_of_issues (hs : s.core.stop = none) (hr : s.core.reservations = []) {y : Issued}
    (hy : s.Issues y) : ∃ r, s.step.2 = .ok r := by
  rcases s.step_cases with ⟨addr, hf⟩ | ⟨hf, err, ha⟩ | ⟨z, alu, hz, he⟩ |
    ⟨out, target, alu, op, hx, hop⟩
  · exact ⟨_, (step_of_fault hs hf).1⟩
  · obtain ⟨i, hi, _⟩ := Fetched.issue_eq_ok_iff.mp hy.issue
    rw [ha] at hi
    cases hi
  · exact ⟨_, (step_of_halt hs hz he).1⟩
  · exact (step_of_executes_memory hs hr hx).1

/-- A step fails at a word that is rejected, and in no other way. -/
theorem rejected_of_step (hr : s.core.reservations = []) {err : ExecutionError}
    (h : s.step.2 = .error err) : s.entry.accept = .error err := by
  cases hs : s.core.stop with
  | some reason =>
    rw [step_of_stop hs] at h
    cases h
  | none =>
    rcases s.step_cases with ⟨addr, hf⟩ | ⟨hf, err', ha⟩ | ⟨z, alu, hz, he⟩ |
      ⟨out, target, alu, op, hx, hop⟩
    · rw [(step_of_fault hs hf).1] at h
      cases h
    · rw [step_of_rejected hs hf ha] at h
      cases h
      exact ha
    · rw [(step_of_halt hs hz he).1] at h
      cases h
    · obtain ⟨⟨r, result⟩, _⟩ := step_of_executes_memory hs hr hx
      rw [result] at h
      cases h

/-- No step leaves a reservation behind. -/
theorem reservations_step (hr : s.core.reservations = []) : s.step.1.core.reservations = [] := by
  cases hs : s.core.stop with
  | some reason => rw [step_of_stop hs, hr]
  | none =>
    rcases s.step_cases with ⟨addr, hf⟩ | ⟨hf, err, ha⟩ | ⟨y, alu, hy, he⟩ |
      ⟨out, target, alu, op, hx, hop⟩
    · rw [(step_of_fault hs hf).2.1]
      exact hr
    · rw [step_of_rejected hs hf ha]
      exact hr
    · rw [(step_of_halt hs hy he).2.1]
      exact hr
    · cases hm : (s.accessOf out).missing with
      | nil =>
        rw [(step_of_access hs hx hop hr hm).2.2]
        exact (reservations_began s.core target).trans hr
      | cons addr rest =>
        rw [(step_of_accessFault hs hx hm).2]
        exact (reservations_began s.core target).trans hr

/-- A step changes no byte of memory but those that its instruction stores. -/
theorem byte?_step (hr : s.core.reservations = []) {addr : UInt64}
    (h : ∀ out target alu, s.Executes out target alu → addr ∉ out.storedBytes) :
    s.step.1.core.memory.byte? addr = s.core.memory.byte? addr := by
  cases hs : s.core.stop with
  | some reason => rw [step_of_stop hs]
  | none =>
    rcases s.step_cases with ⟨a, hf⟩ | ⟨hf, err, ha⟩ | ⟨y, alu, hy, he⟩ |
      ⟨out, target, alu, op, hx, hop⟩
    · rw [(step_of_fault hs hf).2.1]
      rfl
    · rw [step_of_rejected hs hf ha]
      rfl
    · rw [(step_of_halt hs hy he).2.1]
      rfl
    · have kept : ((s.accessOf out).memory s.core.memory).byte? addr = s.core.memory.byte? addr :=
        out.byte?_access s.access s.core.memory (h out target alu hx)
      cases hm : (s.accessOf out).missing with
      | nil =>
        simp only [(step_of_access hs hx hop hr hm).2.2, kept]
      | cons a rest =>
        simp only [(step_of_accessFault hs hx hm).2, kept]

end Sequential

end Legv8
