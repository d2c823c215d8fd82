import Legv8.Proofs.Refinement.Tracking

/-! # The pipeline simulates the sequential machine

A running pipeline is matched with the sequential machine that has executed what the pipeline has retired.
Registers and class counters are those of that machine. Memory is ahead by the instructions that have made
their access, and the arithmetic logic unit and the count of taken branches by those that have executed.
What is in flight tracks the steps to come, wrong paths included: they never lead anywhere. Every move
keeps the match or ends the run at a halt or at a fetch outside memory. -/
namespace Legv8

namespace View

/-- The slots that have been executed, oldest first. -/
def front (v : View) : List Slot := v.accessed.map .accessed ++ v.executed.map .executed

/-- The slots that have not been executed, oldest first. -/
def back (v : View) : List Slot := v.issued.map .issued ++ v.fetched.map .fetched

end View

/-- The machine at the point where the next instruction executes: the unit and the count of taken branches
are given, the unexecuted slots come next and then the instruction at `pc`. -/
structure AtExecute (alu : Alu) (taken : Nat) (pc : UInt64) (back : List Slot) (t : Sequential) : Prop where
  alu : t.alu = alu
  taken : t.core.statistics.taken = taken
  tracks : Tracks (·.core.pc = pc) t back

/-- A pipeline that has not stopped, or only at a data fault, against the machine that has executed what it
has retired. -/
structure Flowing (s : Sequential) (v : View) : Prop where
  live : s.core.stop = none
  idle : s.core.reservations = []
  code : s.CodeUntouched
  performs : s.Performs v.accessed.length
  registers : v.core.registers = s.core.registers
  tally : v.core.statistics.tally = s.core.statistics.tally
  memory : v.core.memory = (s.after v.accessed.length).core.memory
  stop : v.core.stop = (s.after v.accessed.length).core.stop
  pending : ∀ reason, v.core.stop = some reason → v.accessed ≠ [] ∧ ∃ addr, reason = .memoryFault addr
  tracks : Tracks (AtExecute v.alu v.core.statistics.taken v.core.pc v.back) s v.front

/-- A pipeline that a halt has stopped, against the machine that is about to execute it. -/
structure Halted (s : Sequential) (v : View) : Prop where
  live : s.core.stop = none
  idle : s.core.reservations = []
  result : s.step.2 = .ok (some (.halted s.core.pc))
  stop : v.core.stop = some (.halted s.core.pc)
  registers : v.core.registers = s.step.1.core.registers
  tally : v.core.statistics.tally = s.step.1.core.statistics.tally
  memory : v.core.memory = s.step.1.core.memory
  alu : v.alu = s.step.1.alu
  taken : v.core.statistics.taken = s.step.1.core.statistics.taken
  empty : v.accessed = [] ∧ v.executed = [] ∧ v.issued = []

/-- A pipeline that a fetch outside memory has stopped, against the machine that is about to make it. -/
structure FetchFaulted (s : Sequential) (v : View) (addr : UInt64) : Prop where
  live : s.core.stop = none
  idle : s.core.reservations = []
  outside : s.entry.fault = some addr
  stop : v.core.stop = some (.memoryFault addr)
  registers : v.core.registers = s.core.registers
  tally : v.core.statistics.tally = s.core.statistics.tally
  memory : v.core.memory = s.core.memory
  alu : v.alu = s.alu
  taken : v.core.statistics.taken = s.core.statistics.taken
  empty : v.accessed = [] ∧ v.executed = [] ∧ v.issued = []

namespace Flowing

variable {s : Sequential} {v : View}

/-- Without a pending stop every access has let the machine go on. -/
theorem reaches (h : Flowing s v) (live : v.core.stop = none) : s.Reaches v.accessed.length :=
  h.performs.reaches h.idle (h.stop.symm.trans live)

theorem settled_front (v : View) : ∀ x ∈ v.front, x.Settled := by
  intro x hx
  rcases List.mem_append.mp hx with hx | hx <;> obtain ⟨_, _, rfl⟩ := List.mem_map.mp hx <;> trivial

theorem settled_accessed (v : View) : ∀ x ∈ v.accessed.map Slot.accessed, x.Settled := fun x hx =>
  settled_front v x (List.mem_append_left _ hx)

/-! ## The front end -/

theorem pace (h : Flowing s v) {core : Core} (paces : v.core.Paces core) :
    Flowing s { v with core } := by
  obtain ⟨_, _, _, rfl⟩ := paces
  exact ⟨h.live, h.idle, h.code, h.performs, h.registers, h.tally, h.memory, h.stop, h.pending, h.tracks⟩

/-- Only the slots that have not been executed, the reservations and the program counter change. -/
theorem changeBack (h : Flowing s v) {v' : View} (accessed : v'.accessed = v.accessed)
    (executed : v'.executed = v.executed) (alu : v'.alu = v.alu)
    (core : ∃ reservations pc, v'.core = { v.core with reservations, pc })
    (tracks : ∀ t, Follows s v.front t → Tracks (·.core.pc = v.core.pc) t v.back →
      Tracks (·.core.pc = v'.core.pc) t v'.back) : Flowing s v' := by
  have front : v'.front = v.front := by simp only [View.front, accessed, executed]
  obtain ⟨reservations, pc, core⟩ := core
  have taken : v'.core.statistics.taken = v.core.statistics.taken := by rw [core]
  refine ⟨h.live, h.idle, h.code, ?_, ?_, ?_, ?_, ?_, ?_, ?_⟩
  · rw [accessed]; exact h.performs
  · rw [core]; exact h.registers
  · rw [core]; exact h.tally
  · rw [core, accessed]; exact h.memory
  · rw [core, accessed]; exact h.stop
  · rw [core, accessed]; exact h.pending
  · rw [front, alu, taken]
    exact h.tracks.mono h.idle fun t follows at_ => ⟨at_.alu, at_.taken, tracks t follows at_.tracks⟩

theorem fetch (h : Flowing s v) {e : Fetched} (result : v.core.memory.entryAt v.core.pc = e) :
    Flowing s { v with core := { v.core with pc := e.nextPc }, fetched := v.fetched ++ [e] } := by
  refine h.changeBack rfl rfl rfl ⟨_, _, rfl⟩ fun t follows tracks => ?_
  have back : { v with core := { v.core with pc := e.nextPc }, fetched := v.fetched ++ [e] }.back =
      v.back ++ [.fetched e] := by
    simp only [View.back, List.map_append, List.map_cons, List.map_nil, List.append_assoc]
  have idle : t.core.reservations = [] := by
    rw [follows.state]
    exact Sequential.reservations_after h.idle _
  rw [back, tracks_append]
  refine tracks.mono idle fun u onward pc _ => ⟨?_, fun leads _ => ?_⟩
  · -- nothing between the access and this fetch writes into the word
    have reaches := follows.reaches.add (by rw [← follows.state]; exact onward.reaches)
    have state : u = s.after (v.front.length + v.back.length) := by
      rw [Sequential.after_add, ← follows.state, onward.state]
    have order : v.accessed.length ≤ v.front.length + v.back.length := by
      simp only [View.front, List.length_append, List.length_map]
      omega
    have entry := h.code.entryAt h.idle order reaches
    rw [← state, ← h.memory, pc, result] at entry
    exact entry.symm
  · exact leads.2.resolve_left id

theorem destinations_words (v : View) : Word.destinations v.words =
    Word.destinations (v.front.map (·.toInFlight.word)) ++
      Word.destinations ((v.issued.map Slot.issued).map (·.toInFlight.word)) := by
  rw [← Word.destinations_append]
  simp only [View.words, View.front, List.map_append, List.map_map]
  rfl

theorem issue (h : Flowing s v) (reserved : v.Reserved) {e : Fetched} {rest : List Fetched}
    {i : Instruction} (oldest : v.fetched = e :: rest) (inside : e.fault = none)
    (accept : e.accept = .ok i) (ready : i.pendingSource? v.core.reservations = none) :
    Flowing s { v with
      core := v.core.reserve i.dest?
      issued := v.issued ++ [{ e.operands i v.core.registers with reserved := i.dest?.isSome }]
      fetched := rest } := by
  refine h.changeBack rfl rfl rfl ⟨_, _, Core.reserve_eq _ _⟩ fun t follows tracks => ?_
  have idle : t.core.reservations = [] := by
    rw [follows.state]
    exact Sequential.reservations_after h.idle _
  have pc : (v.core.reserve i.dest?).pc = v.core.pc := by rw [Core.reserve_eq]
  simp only [View.back, oldest, pc, List.map_append, List.map_cons, List.map_nil, List.append_assoc,
    List.cons_append, List.nil_append] at tracks ⊢
  rw [tracks_append] at tracks ⊢
  refine tracks.mono idle fun u onward slot live => ?_
  obtain ⟨entry, next⟩ := slot live
  refine ⟨⟨by rw [← inside, ← (show u.entry = e from entry)], ?_⟩, next⟩
  -- no register that the instruction reads is written by what is still in flight
  have read : ∀ r, i.sources.1 = some r ∨ i.sources.2 = some r →
      u.core.registers.read r = v.core.registers.read r := by
    intro r hr
    have free := Instruction.pendingSource?_eq_none_iff.mp ready r hr
    rw [reserved.queue, destinations_words, List.mem_append, not_or] at free
    rw [onward.registers r free.2, follows.registers r free.1, h.registers]
  have issue : e.issue u.core.registers = .ok (e.operands i u.core.registers) :=
    Fetched.issue_eq_ok_iff.mpr ⟨i, accept, rfl⟩
  rw [← (show u.entry = e from entry)] at issue ⊢
  rw [issue, Fetched.operands_congr read]
  rfl

/-! ## Execution -/

/-- The oldest issued instruction executes; what stays behind it is up to the outcome. -/
theorem grow (h : Flowing s v) {y : Issued} {rest : List Issued} {out : Executed}
    {target : Option UInt64} {alu : Alu} (oldest : v.issued = y :: rest)
    (result : v.alu.execute y = .ok (.forward out target, alu)) {v' : View}
    (accessed : v'.accessed = v.accessed) (executed : v'.executed = v.executed ++ [out])
    (unit : v'.alu = alu)
    (core : ∃ reservations pc statistics, v'.core = { v.core with reservations, pc, statistics })
    (tally : v'.core.statistics.tally = v.core.statistics.tally)
    (taken : v'.core.statistics.taken = v.core.statistics.taken + target.isSome.toNat)
    (tracks : ∀ t, t.core.pc = target.getD y.nextPc →
      (t.core.pc = y.nextPc →
        Tracks (·.core.pc = v.core.pc) t (rest.map .issued ++ v.fetched.map .fetched)) →
      Tracks (·.core.pc = v'.core.pc) t v'.back) : Flowing s v' := by
  have front : v'.front = v.front ++ [.executed out] := by
    simp only [View.front, accessed, executed, List.map_append, List.map_cons, List.map_nil,
      List.append_assoc]
  have nextPc : out.nextPc = y.nextPc := congrArg InFlight.nextPc (Alu.execute_forward result).1
  obtain ⟨reservations, pc, statistics, core⟩ := core
  refine ⟨h.live, h.idle, h.code, ?_, ?_, ?_, ?_, ?_, ?_, ?_⟩
  · rw [accessed]; exact h.performs
  · rw [core]; exact h.registers
  · rw [tally]; exact h.tally
  · rw [core, accessed]; exact h.memory
  · rw [core, accessed]; exact h.stop
  · rw [core, accessed]; exact h.pending
  · rw [front, unit, tracks_append]
    refine h.tracks.mono h.idle fun t follows at_ live => ?_
    have idle : t.core.reservations = [] := by
      rw [follows.state]
      exact Sequential.reservations_after h.idle _
    have slots := at_.tracks
    simp only [View.back, oldest, List.map_cons, List.cons_append] at slots
    obtain ⟨issues, next⟩ := slots live
    have hx : t.Executes out target alu :=
      ⟨_, issues, by rw [at_.alu, Alu.execute_reserved]; exact result⟩
    refine ⟨⟨target, alu, hx⟩, fun leads _ => ?_⟩
    obtain ⟨op, _, _, unitAfter, coreAfter⟩ := Sequential.step_of_continues idle leads.1 hx
    have pcAfter : t.step.1.core.pc = target.getD y.nextPc := by rw [coreAfter, nextPc]
    refine ⟨unitAfter, ?_, tracks _ pcAfter fun falls => next ⟨leads.1, .inr falls⟩⟩
    rw [coreAfter, taken, ← at_.taken]
    exact (Statistics.taken_retire _ _).trans (Sequential.taken_began t.core target)

theorem execute (h : Flowing s v) {y : Issued} {rest : List Issued} {out : Executed} {alu : Alu}
    (oldest : v.issued = y :: rest) (result : v.alu.execute y = .ok (.forward out none, alu)) :
    Flowing s { v with alu, executed := v.executed ++ [out], issued := rest } :=
  h.grow oldest result rfl rfl rfl ⟨_, _, _, rfl⟩ rfl rfl fun _ pc tracks => tracks pc

theorem redirect (h : Flowing s v) {y : Issued} {newest : Option Issued} {out : Executed}
    {target : UInt64} {alu : Alu} (held : Nat) (oldest : v.issued = y :: newest.toList)
    (result : v.alu.execute y = .ok (.forward out (some target), alu)) :
    Flowing s { v with
      core := (v.core.countTaken.discard newest held).divert target
      alu
      executed := v.executed ++ [out]
      issued := []
      fetched := [] } :=
  h.grow oldest result rfl rfl rfl ⟨_, _, _, rfl⟩ rfl rfl fun _ pc _ _ => pc

/-! ## Memory access -/

/-- The oldest executed instruction is what the machine executes behind the accesses made so far. -/
theorem executes (h : Flowing s v) (live : v.core.stop = none) {x : Executed} {rest : List Executed}
    (oldest : v.executed = x :: rest) :
    ∃ target alu, (s.after v.accessed.length).Executes x target alu := by
  have running : (s.after v.accessed.length).core.stop = none := h.stop.symm.trans live
  have slots := h.tracks
  rw [View.front, oldest, tracks_append] at slots
  have here := slots.elim (settled_accessed v) (by rw [List.length_map]; exact h.reaches live)
    (by rw [List.length_map]; exact running)
  rw [List.length_map] at here
  exact (here running).1

theorem access (h : Flowing s v) {x : Executed} {rest : List Executed} {bus : Bus} {access : Access}
    (live : v.core.stop = none) (oldest : v.executed = x :: rest)
    (result : x.access bus v.core.memory = access) :
    Flowing s { v with
      core := v.core.settle access
      accessed := v.accessed ++ [access.out]
      executed := rest } := by
  have reaches := h.reaches live
  have running : (s.after v.accessed.length).core.stop = none := h.stop.symm.trans live
  have idle := Sequential.reservations_after h.idle v.accessed.length
  obtain ⟨target, alu, hx⟩ := h.executes live oldest
  obtain ⟨⟨r, performed⟩, memory, stop⟩ := Sequential.step_of_executes_memory running idle hx
  -- the buses of the two machines differ, but not in what the access comes to
  have same := x.access_congr bus (s.after v.accessed.length).access v.core.memory
  rw [result, h.memory] at same
  obtain ⟨sameOut, sameMissing, sameMemory⟩ := same
  have length : (v.accessed ++ [access.out]).length = v.accessed.length + 1 := List.length_append
  rw [Core.settle_eq _ live]
  refine ⟨h.live, h.idle, h.code, ?_, h.registers, h.tally, ?_, ?_, ?_, ?_⟩
  · rw [length]
    exact h.performs.succ running performed
  · simp only [length, Sequential.after, memory, Sequential.accessOf, ← sameMemory, h.memory]
  · simp only [length, Sequential.after, stop, Sequential.accessOf, ← sameMissing]
  · intro reason pending
    obtain ⟨addr, _, faulted⟩ := Option.map_eq_some_iff.mp pending
    exact ⟨List.append_ne_nil_of_right_ne_nil _ (List.cons_ne_nil _ _), addr, faulted.symm⟩
  · have slots := h.tracks
    simp only [View.front, oldest, List.map_append, List.map_cons, List.map_nil, List.append_assoc,
      List.cons_append, List.nil_append] at slots ⊢
    rw [tracks_append] at slots ⊢
    refine slots.mono h.idle fun t follows slot running => ?_
    obtain ⟨_, next⟩ := slot running
    have here : t = s.after v.accessed.length := by rw [follows.state, List.length_map]
    refine ⟨⟨x, target, alu, ?_, ?_⟩, fun leads => next ⟨leads.1, .inl trivial⟩⟩
    · rw [here]; exact hx
    · rw [here]; exact sameOut.symm

/-! ## Retirement -/

/-- If the machine goes on, it commits what the oldest access hands to the commit. -/
theorem commits (h : Flowing s v) {w : Accessed} {rest : List Accessed} {op : Operation}
    (oldest : v.accessed = w :: rest) (hop : Operation.ofWord? w.word = some op)
    (continues : s.step.2 = .ok none) :
    s.step.1.core.registers = v.core.registers.put w.word.dest? w.value ∧
      ∃ target, s.step.1.core.statistics = (s.core.began target).statistics.retire op := by
  have slots := h.tracks
  simp only [View.front, oldest, List.map_cons, List.cons_append] at slots
  obtain ⟨⟨out, target, alu, hx, sameOut⟩, _⟩ := slots h.live
  obtain ⟨op', hop', _, _, after⟩ := Sequential.step_of_continues h.idle continues hx
  have word : out.word = w.word := by
    rw [← sameOut]
    exact (congrArg InFlight.word (s.accessOf_out out)).symm
  have sameOp : op' = op := by
    rw [word, hop] at hop'
    exact (Option.some.inj hop').symm
  refine ⟨?_, target, ?_⟩
  · simp only [after, word, sameOut, h.registers]
  · simp only [after, sameOp]

/-- The oldest instruction commits what the machine commits. -/
theorem retire (h : Flowing s v) (reserved : v.Reserved) {w : Accessed} {rest : List Accessed}
    {core : Core} {written : Option Nat} (live : v.core.stop = none) (oldest : v.accessed = w :: rest)
    (commit : v.core.commit w = (core, .ok written)) :
    s.step.2 = .ok none ∧ core.statistics.retired = v.core.statistics.retired + 1 ∧
      Flowing s.step.1 { v with core, accessed := rest } := by
  obtain ⟨op, hop, done⟩ := reserved.commit oldest
  rw [done, Prod.mk.injEq] at commit
  obtain ⟨rfl, _⟩ := commit
  have reaches := h.reaches live
  rw [oldest] at reaches
  have continues : s.step.2 = .ok none := reaches 0 (Nat.succ_pos _)
  obtain ⟨registers, target, statistics⟩ := h.commits oldest hop continues
  have performs : s.step.1.Performs rest.length := by
    have performs := h.performs
    rw [oldest] at performs
    exact performs.tail
  have later : s.after (w :: rest).length = s.step.1.after rest.length := (s.after_step _).symm
  refine ⟨continues, Statistics.retired_retire _ _, ?_⟩
  refine ⟨?_, Sequential.reservations_step h.idle, h.code.tail continues, performs, ?_, ?_, ?_, ?_, ?_, ?_⟩
  · exact Sequential.stop_step_of_ok h.idle continues
  · simp only [registers]
  · rw [statistics]
    exact Statistics.tally_retire_congr (h.tally.trans (Sequential.tally_began _ target).symm) op
  · have memory := h.memory
    rw [oldest, later] at memory
    exact memory
  · have stop := h.stop
    rw [oldest, later] at stop
    exact stop
  · intro reason pending
    rw [show v.core.stop = some reason from pending] at live
    cases live
  · have taken : (v.core.statistics.retire op).taken = v.core.statistics.taken :=
      Statistics.taken_retire _ _
    have slots := h.tracks
    simp only [View.front, oldest, List.map_cons, List.cons_append] at slots
    have ahead := (slots h.live).2 ⟨continues, .inl trivial⟩
    simp only [View.front, View.back, taken] at ahead ⊢
    exact ahead

/-! ## The ends of a run -/

theorem halt (h : Flowing s v) {y : Issued} {newest : Option Issued} {alu : Alu}
    (held : Nat) (live : v.core.stop = none) (alone : v.accessed = [] ∧ v.executed = [])
    (oldest : v.issued = y :: newest.toList) (result : v.alu.execute y = .ok (.halt, alu)) :
    (((v.core.discard newest held).retire .hlt).requestStop (.halted y.pc)).statistics.retired =
        v.core.statistics.retired + 1 ∧
      Halted s { v with
        core := ((v.core.discard newest held).retire .hlt).requestStop (.halted y.pc)
        issued := []
        fetched := [] } := by
  obtain ⟨noneAccessed, noneExecuted⟩ := alone
  have slots := h.tracks
  simp only [View.front, noneAccessed, noneExecuted] at slots
  have at_ := slots h.live
  have behind := at_.tracks
  simp only [View.back, oldest, List.map_cons, List.cons_append] at behind
  obtain ⟨issues, _⟩ := behind h.live
  have executes : s.alu.execute { y with reserved := false } = .ok (.halt, alu) := by
    rw [at_.alu, Alu.execute_reserved]
    exact result
  obtain ⟨stops, core, unit⟩ := Sequential.step_of_halt h.live issues executes
  have pc : y.pc = s.core.pc := by
    rw [← s.pc_entry]
    exact congrArg InFlight.pc issues.toInFlight
  have memory := h.memory
  rw [noneAccessed] at memory
  refine ⟨Statistics.retired_retire _ _, h.live, h.idle, stops, ?_, ?_, ?_, ?_, ?_, ?_, ?_⟩
  · simp only [Core.requestStop, Core.retire, Core.discard, live, StopReason.request, pc]
  · rw [core]
    exact h.registers
  · rw [core]
    exact Statistics.tally_retire_congr (s := v.core.statistics) h.tally .hlt
  · rw [core]
    exact memory
  · rw [unit]
    exact at_.alu.symm
  · rw [core]
    exact at_.taken.symm
  · exact ⟨noneAccessed, noneExecuted, rfl⟩

theorem fault (h : Flowing s v) {e : Fetched} {rest : List Fetched} {addr : UInt64}
    (live : v.core.stop = none) (alone : v.accessed = [] ∧ v.executed = [] ∧ v.issued = [])
    (oldest : v.fetched = e :: rest) (outside : e.fault = some addr) :
    FetchFaulted s { v with core := v.core.reportFault addr, fetched := rest } addr := by
  obtain ⟨noneAccessed, noneExecuted, noneIssued⟩ := alone
  have slots := h.tracks
  simp only [View.front, noneAccessed, noneExecuted] at slots
  have at_ := slots h.live
  have behind := at_.tracks
  simp only [View.back, noneIssued, oldest, List.map_cons, List.map_nil, List.nil_append] at behind
  obtain ⟨entry, _⟩ := behind h.live
  have memory := h.memory
  rw [noneAccessed] at memory
  refine ⟨h.live, h.idle, ?_, ?_, h.registers, h.tally, memory, at_.alu.symm, at_.taken.symm,
    noneAccessed, noneExecuted, noneIssued⟩
  · rw [show s.entry = e from entry]
    exact outside
  · simp only [Core.reportFault, Core.requestStop, live, StopReason.request]

end Flowing

/-! ## Runs -/

/-- How a pipeline that has retired `n` instructions stands to the run of a sequential machine. A halt is
counted as retired. -/
inductive Refines (s : Sequential) (v : View) : Prop where
  | flowing (n : Nat) (retired : v.core.statistics.retired = n) (reaches : s.Reaches n)
      (flows : Flowing (s.after n) v)
  | halted (n : Nat) (retired : v.core.statistics.retired = n + 1) (reaches : s.Reaches n)
      (halts : Halted (s.after n) v)
  | faulted (n : Nat) (retired : v.core.statistics.retired = n) (reaches : s.Reaches n) (addr : UInt64)
      (faults : FetchFaulted (s.after n) v addr)

theorem View.not_open {v : View} {reason : StopReason} (stop : v.core.stop = some reason)
    (empty : v.accessed = []) : ¬ v.Open := by
  rintro (live | held)
  · rw [live] at stop
    cases stop
  · exact held empty

/-- Only time passes after the end of a run. -/
theorem View.Move.pace_of_stopped {v v' : View} (m : View.Move v v') {reason : StopReason}
    (stop : v.core.stop = some reason) (empty : v.accessed = []) :
    ∃ core, v.core.Paces core ∧ v' = { v with core } := by
  have blocked : v.core.stop ≠ none := by simp [stop]
  have closed := View.not_open stop empty
  cases m with
  | pace paces => exact ⟨_, paces, rfl⟩
  | retire live _ _ => exact absurd live blocked
  | access live _ _ => exact absurd live blocked
  | execute isOpen _ _ => exact absurd isOpen closed
  | redirect _ isOpen _ _ => exact absurd isOpen closed
  | halt _ live _ _ _ => exact absurd live blocked
  | issue isOpen _ _ _ _ => exact absurd isOpen closed
  | fault live _ _ _ => exact absurd live blocked
  | fetch live _ => exact absurd live blocked

/-- An open pipeline has not halted and not left memory with a fetch. -/
theorem Refines.flowing_of_open {s : Sequential} {v : View} (h : Refines s v) (isOpen : v.Open) :
    s.Reaches v.core.statistics.retired ∧ Flowing (s.after v.core.statistics.retired) v := by
  cases h with
  | flowing n retired reaches flows =>
    rw [retired]
    exact ⟨reaches, flows⟩
  | halted n retired reaches halts => exact absurd isOpen (View.not_open halts.stop halts.empty.1)
  | faulted n retired reaches addr faults => exact absurd isOpen (View.not_open faults.stop faults.empty.1)

/-- Every move keeps the pipeline matched with the sequential machine. -/
theorem Refines.move {s : Sequential} {v v' : View} (h : Refines s v) (reserved : v.Reserved)
    (m : View.Move v v') : Refines s v' := by
  cases h with
  | flowing n retired reaches flows =>
    cases m with
    | pace paces =>
      obtain ⟨_, _, _, rfl⟩ := id paces
      exact .flowing n retired reaches (flows.pace paces)
    | retire live oldest commit =>
      obtain ⟨continues, counted, flows⟩ := flows.retire reserved live oldest commit
      exact .flowing (n + 1) (counted.trans (congrArg Nat.succ retired)) (reaches.succ continues) flows
    | access live oldest result =>
      refine .flowing n ?_ reaches (flows.access live oldest result)
      rw [Core.settle_eq _ live]
      exact retired
    | execute _ oldest result => exact .flowing n retired reaches (flows.execute oldest result)
    | redirect held _ oldest result => exact .flowing n retired reaches (flows.redirect held oldest result)
    | halt held live alone oldest result =>
      obtain ⟨counted, halts⟩ := flows.halt held live alone oldest result
      exact .halted n (counted.trans (congrArg Nat.succ retired)) reaches halts
    | issue _ oldest inside accept ready =>
      refine .flowing n ?_ reaches (flows.issue reserved oldest inside accept ready)
      rw [Core.reserve_eq]
      exact retired
    | fault live alone oldest outside =>
      exact .faulted n retired reaches _ (flows.fault live alone oldest outside)
    | fetch _ result => exact .flowing n retired reaches (flows.fetch result)
  | halted n retired reaches halts =>
    obtain ⟨core, ⟨_, _, _, rfl⟩, rfl⟩ := m.pace_of_stopped halts.stop halts.empty.1
    exact .halted n retired reaches ⟨halts.live, halts.idle, halts.result, halts.stop, halts.registers,
      halts.tally, halts.memory, halts.alu, halts.taken, halts.empty⟩
  | faulted n retired reaches addr faults =>
    obtain ⟨core, ⟨_, _, _, rfl⟩, rfl⟩ := m.pace_of_stopped faults.stop faults.empty.1
    exact .faulted n retired reaches addr ⟨faults.live, faults.idle, faults.outside, faults.stop,
      faults.registers, faults.tally, faults.memory, faults.alu, faults.taken, faults.empty⟩

theorem Refines.moves {s : Sequential} {v v' : View} (h : Refines s v) (reserved : v.Reserved)
    (m : View.Moves v v') : Refines s v' := by
  induction m with
  | refl => exact h
  | tail before step ih => exact ih.move (reserved.moves before) step

end Legv8
