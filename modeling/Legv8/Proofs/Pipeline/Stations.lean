import Legv8.Proofs.Pipeline.Histories
import Legv8.Proofs.Pipeline.Phases

/-! # What a pulse does to the stations

Past decode the stations are a shift register: a pulse takes every instruction one station on, and the one
in writeback out. Two instructions in execution are exceptions. A taken branch moves on but empties
everything behind it, and a halt stays where it is until nothing is left before it. -/
namespace Legv8.Pipeline

variable {p q : Pipeline}

/-! ## Stations -/

/-- The places that can hold an instruction, from writeback to fetch. -/
def stations (p : Pipeline) : List Bool :=
  [p.writeback.isSome, p.latches.memWb.isSome, p.access.pending.isSome, p.latches.exMem.isSome,
    p.execute.pending.isSome, p.latches.idEx.isSome, p.decode.isSome, p.latches.ifId.isSome,
    p.fetch.pending]

/-- How many instructions have got to the last `k` stations or have left them. -/
def within (p : Pipeline) (k : Nat) : Nat :=
  p.core.statistics.retired + (p.stations.take k).count true

theorem within_zero (p : Pipeline) : p.within 0 = p.core.statistics.retired := rfl

theorem within_succ (p : Pipeline) {k : Nat} (h : k < p.stations.length) :
    p.within (k + 1) = p.within k + p.stations[k].toNat := by
  have one : ∀ b : Bool, [b].count true = b.toNat := by decide
  rw [within, within, List.take_succ_eq_append_getElem h, List.count_append, one, Nat.add_assoc]

theorem within_execute (p : Pipeline) : p.within 5 = p.within 4 + p.execute.pending.isSome.toNat :=
  p.within_succ (by decide : 4 < 9)

theorem within_idEx (p : Pipeline) : p.within 6 = p.within 5 + p.latches.idEx.isSome.toNat :=
  p.within_succ (by decide : 5 < 9)

theorem within_mono (p : Pipeline) {j k : Nat} (h : j ≤ k) : p.within j ≤ p.within k :=
  Nat.add_le_add_left ((List.take_sublist_take_left h).count_le _) _

/-- If the last stations hold what has been one station before, so many more instructions have got there. -/
theorem within_shift {k : Nat} (shifted : q.stations.take k = (p.stations.drop 1).take k)
    (retired : q.core.statistics.retired =
      p.core.statistics.retired + p.writeback.isSome.toNat) {j : Nat} (hj : j ≤ k) :
    q.within j = p.within (j + 1) := by
  have one : ∀ b : Bool, [b].count true = b.toNat := by decide
  have split : p.stations.take (j + 1) = [p.writeback.isSome] ++ (p.stations.drop 1).take j := rfl
  have front : q.stations.take j = (p.stations.drop 1).take j := by
    rw [← Nat.min_eq_left hj, ← List.take_take, shifted, List.take_take]
  rw [within, within, retired, split, front, List.count_append, one, Nat.add_assoc]

theorem drained_iff_within (p : Pipeline) : p.drained = true ↔ p.within 4 = p.within 0 := by
  unfold drained within stations
  cases p.writeback <;> cases p.latches.memWb <;> cases p.access.pending <;> cases p.latches.exMem <;> simp

/-! ## How far a pulse comes -/

/-- A pulse gets as far as execution, and finds the machine in the state `q`. -/
def ComesToExecute (p q : Pipeline) : Prop :=
  p.core.stop = none ∧
    ∃ r, p.countCycle.writebackPhase = .next r ∧ r.accessPhase = .next q

/-- A pulse gets as far as decode, and finds the machine in the state `q`. -/
def ComesToDecode (p q : Pipeline) : Prop := ∃ r, p.ComesToExecute r ∧ r.executePhase = .next q

theorem ComesToExecute.pulse (h : p.ComesToExecute q) : p.pulse = runPhases (phases.drop 2) q := by
  obtain ⟨live, r, writeback, access⟩ := h
  rw [pulse_of_live live]
  exact (runPhases_next writeback).trans (runPhases_next access)

theorem ComesToDecode.pulse (h : p.ComesToDecode q) : p.pulse = runPhases (phases.drop 3) q := by
  obtain ⟨r, comes, execute⟩ := h
  rw [comes.pulse]
  exact runPhases_next execute

theorem ComesToExecute.moves (comes : p.ComesToExecute q) (h : p.view.Reserved) :
    View.Moves p.view q.view ∧ q.latches.exMem = none ∧ q.Open := by
  obtain ⟨live, r, writeback, access⟩ := comes
  have counts : View.Moves p.view p.countCycle.view := .single (.pace (paces_countCycle p.core))
  obtain ⟨r', writeback', moves, live', empty⟩ :=
    writebackPhase_moves (p := p.countCycle) live (h.moves counts)
  obtain rfl := Flow.next.inj (writeback.symm.trans writeback')
  obtain ⟨q', access', moves', empty', isOpen⟩ := accessPhase_moves live' empty
  obtain rfl := Flow.next.inj (access.symm.trans access')
  exact ⟨(counts.trans moves).trans moves', empty', isOpen⟩

theorem ComesToDecode.moves (comes : p.ComesToDecode q) (h : p.view.Reserved) :
    View.Moves p.view q.view ∧ q.Open := by
  obtain ⟨r, comes, execute⟩ := comes
  obtain ⟨moves, empty, isOpen⟩ := comes.moves h
  rcases executePhase_moves isOpen empty (h.moves moves) with ⟨q', next, moves', isOpen'⟩ | ⟨q', done, _⟩
  · obtain rfl := Flow.next.inj (execute.symm.trans next)
    exact ⟨moves.trans moves', isOpen'⟩
  · cases execute.symm.trans done

/-- Every live pulse comes to execution: writeback and the memory unit have taken on what was before
them. -/
theorem comesToExecute (live : p.core.stop = none) (h : p.view.Reserved) :
    ∃ core bus memWb, p.ComesToExecute { p with
        core
        latches := { p.latches with exMem := none, memWb }
        access := { bus, pending := p.latches.exMem }
        writeback := p.latches.memWb } ∧
      memWb.isSome = p.access.pending.isSome ∧
      core.statistics.retired = p.core.statistics.retired + p.writeback.isSome.toNat := by
  have reserved := h.move (.pace (paces_countCycle p.core))
  obtain ⟨core₁, writeback, _, retired⟩ := writebackPhase_eq (p := p.countCycle) reserved
  obtain ⟨core₂, bus, memWb, access, made, counted⟩ := accessPhase_eq (p := { p.countCycle with
    core := core₁
    writeback := p.latches.memWb
    latches := { p.latches with memWb := none } }) rfl
  exact ⟨core₂, bus, memWb, ⟨live, _, writeback, access⟩, made,
    (congrArg Statistics.retired counted).trans retired⟩

/-- Writeback and the memory unit move on what they hold, whatever is in execution. -/
theorem comesToExecute_within (live : p.core.stop = none) (h : p.view.Reserved) :
    ∃ q, p.ComesToExecute q ∧ (∀ j ≤ 3, q.within j = p.within (j + 1)) ∧ q.within 4 = p.within 4 ∧
      q.execute = p.execute ∧ q.decode = p.decode := by
  obtain ⟨core, bus, memWb, comes, made, retired⟩ := comesToExecute live h
  refine ⟨_, comes, fun j hj => within_shift ?_ retired hj, ?_, rfl, rfl⟩
  · simp only [stations, made, List.take_succ_cons, List.take_zero, List.drop_succ_cons, List.drop_zero]
  · -- the latch behind execution has been emptied
    rw [within_succ _ (by decide : 3 < 9), within_shift (k := 3) ?_ retired (Nat.le_refl 3)]
    · rfl
    · simp only [stations, made, List.take_succ_cons, List.take_zero, List.drop_succ_cons, List.drop_zero]

theorem ComesToExecute.unique {q' : Pipeline} (h : p.ComesToExecute q) (h' : p.ComesToExecute q') :
    q = q' := by
  obtain ⟨_, r, writeback, access⟩ := h
  obtain ⟨_, r', writeback', access'⟩ := h'
  obtain rfl := Flow.next.inj (writeback.symm.trans writeback')
  exact Flow.next.inj (access.symm.trans access')

/-- What decode holds when a pulse comes to it, it has held before. -/
theorem ComesToDecode.held (comes : p.ComesToDecode q) (h : p.view.Reserved) {e : Fetched}
    (he : q.decode = some e) : p.decode = some e := by
  obtain ⟨r, before, execute⟩ := comes
  obtain ⟨r', before', _, _, _, decode⟩ := comesToExecute_within before.1 h
  obtain rfl := before.unique before'
  have state := r.decode_executePhase
  rw [execute] at state
  rcases state with kept | gone
  · exact (decode.symm.trans kept.symm).trans he
  · rw [show q.decode = none from gone] at he
    cases he

/-! ## A pulse by what is in execution -/

/-- A pulse comes to decode in the state `q`, and up to the latch behind decode everything has moved one
station on. -/
structure Passes (p q : Pipeline) : Prop where
  comes : p.ComesToDecode q
  shifted : ∀ j ≤ 5, q.within j = p.within (j + 1)
  execute : q.execute.pending = p.latches.idEx
  idEx : q.latches.idEx = none
  decode : q.decode = p.decode
  ifId : q.latches.ifId = p.latches.ifId
  fetch : q.fetch.pending = p.fetch.pending

/-- Everything moves on if nothing in execution halts or takes a branch. -/
theorem exists_passes (live : p.core.stop = none) (h : p.view.Reserved)
    (steady : p.execute.flushing = false)
    (through : ∀ y, p.execute.pending = some y →
      ∃ out alu, p.execute.alu.execute y = .ok (.forward out none, alu)) : ∃ q, p.Passes q := by
  obtain ⟨core, bus, memWb, comes, made, retired⟩ := comesToExecute live h
  obtain ⟨alu, exMem, execute, moved⟩ := executePhase_through (p := { p with
    core
    latches := { p.latches with exMem := none, memWb }
    access := { bus, pending := p.latches.exMem }
    writeback := p.latches.memWb }) rfl steady through
  refine ⟨_, ⟨_, comes, execute⟩, fun j hj => within_shift ?_ retired hj, rfl, rfl, rfl, rfl, rfl⟩
  simp only [stations, made, moved, List.take_succ_cons, List.take_zero, List.drop_succ_cons,
    List.drop_zero]

/-- A taken branch moves on like everything before it, and nothing is left behind it. -/
theorem comesToDecode_redirect (live : p.core.stop = none) (h : p.view.Reserved) {y : Issued}
    {out : Executed} {target : UInt64} {alu : Alu} (hy : p.execute.pending = some y)
    (result : p.execute.alu.execute y = .ok (.forward out (some target), alu)) :
    ∃ q, p.ComesToDecode q ∧ (∀ j ≤ 4, q.within j = p.within (j + 1)) ∧
      q.execute.pending = none ∧ q.latches.idEx = none ∧ q.decode = none ∧ q.latches.ifId = none ∧
      q.fetch.pending = false := by
  obtain ⟨core, bus, memWb, comes, made, retired⟩ := comesToExecute live h
  obtain ⟨core', execute, kept⟩ := executePhase_redirect (p := { p with
    core
    latches := { p.latches with exMem := none, memWb }
    access := { bus, pending := p.latches.exMem }
    writeback := p.latches.memWb }) rfl hy result
  refine ⟨_, ⟨_, comes, execute⟩, fun j hj => within_shift ?_ (kept.trans retired) hj, rfl, rfl, rfl, rfl,
    rfl⟩
  simp only [stations, made, hy, Option.isSome_some, List.take_succ_cons, List.take_zero,
    List.drop_succ_cons, List.drop_zero]

section Halt

variable {y : Issued} {alu : Alu} (live : p.core.stop = none) (h : p.view.Reserved)
  (hy : p.execute.pending = some y) (result : p.execute.alu.execute y = .ok (.halt, alu))
include live h hy result

/-- A halt that is not the oldest instruction stays in execution, and everything before it moves on. -/
theorem comesToDecode_draining (waits : p.within 1 ≠ p.within 4) :
    ∃ q, p.ComesToDecode q ∧ (∀ j ≤ 3, q.within j = p.within (j + 1)) ∧ q.within 4 = p.within 4 ∧
      q.execute.pending = some y := by
  obtain ⟨q, comes, shifted, kept, execute, _⟩ := comesToExecute_within live h
  rw [← execute] at hy result
  have left : q.drained = false := by
    rw [← Bool.not_eq_true, drained_iff_within, kept, shifted 0 (Nat.zero_le 3)]
    exact waits.symm
  exact ⟨q, ⟨q, comes, executePhase_draining hy result left⟩, shifted, kept, hy⟩

/-- A halt that is the oldest instruction stops the machine. -/
theorem pulse_of_oldest_halt (oldest : p.within 1 = p.within 4) : p.pulse.1.core.stop ≠ none := by
  obtain ⟨q, comes, shifted, kept, execute, _⟩ := comesToExecute_within live h
  rw [← execute] at hy result
  have alone : q.drained = true := by
    rw [drained_iff_within, kept, shifted 0 (Nat.zero_le 3)]
    exact oldest.symm
  obtain ⟨r, halts, stop⟩ := executePhase_halts hy result alone
  rw [comes.pulse, show phases.drop 2 = ⟨executePhase, _⟩ :: phases.drop 3 from rfl]
  simp only [runPhases, halts]
  exact stop

end Halt

/-! ## What decode and fetch add -/

/-- Decode and fetch change nothing past the latch behind decode. -/
theorem within_fromDecode (p : Pipeline) {j : Nat} (hj : j ≤ 5) :
    (runPhases (phases.drop 3) p).1.within j = p.within j := by
  have kept := congrArg (fun q : (Option Accessed × Option Accessed × Option Executed) ×
    Latch Executed × ExecuteUnit => [q.1.1.isSome, q.1.2.1.isSome, q.1.2.2.isSome, q.2.1.isSome,
      q.2.2.pending.isSome].take j) p.pastIssue_fromDecode
  have retired : (runPhases (phases.drop 3) p).1.core.statistics.retired = p.core.statistics.retired := by
    refine runPhases_keeps (·.core.statistics.retired = p.core.statistics.retired) _
      (fun phase hm q kept => ?_) rfl
    simp only [phases, List.drop, List.mem_cons, List.not_mem_nil, or_false] at hm
    rw [← kept]
    rcases hm with rfl | rfl
    · exact (counted_decodePhase q).2
    · exact (counted_fetchPhase q).2
  have five : ∀ q : Pipeline, q.stations.take j = (q.stations.take 5).take j := fun q => by
    rw [List.take_take, Nat.min_eq_left hj]
  rw [within, within, retired, five, five]
  exact congrArg (fun l => _ + l.count true) kept

theorem ComesToDecode.within_pulse (comes : p.ComesToDecode q) {j : Nat} (hj : j ≤ 5) :
    p.pulse.1.within j = q.within j := by
  rw [comes.pulse, within_fromDecode q hj]

theorem ComesToDecode.execute_pulse (comes : p.ComesToDecode q) : p.pulse.1.execute = q.execute := by
  rw [comes.pulse]
  exact congrArg (·.2.2) q.pastIssue_fromDecode

/-- Behind a decode phase that goes on, a pulse only fetches. -/
theorem ComesToDecode.pulse_of_next (comes : p.ComesToDecode q) {r : Pipeline}
    (next : q.decodePhase = .next r) : ∃ core ifId fetch,
      p.pulse.1 = { r with core, fetch, latches := { r.latches with ifId } } ∧
      ifId.isSome = (r.latches.ifId.isSome || r.fetch.pending) ∧
      fetch.pending = (r.fetch.pending == r.latches.ifId.isSome) := by
  obtain ⟨core, ifId, fetch, result, held, pending, _⟩ := fetchPhase_eq r
  refine ⟨core, ifId, fetch, ?_, held, pending⟩
  rw [comes.pulse, show phases.drop 3 = [⟨decodePhase, _⟩, ⟨fetchPhase, _⟩] from rfl]
  simp only [runPhases, next, result]

theorem Passes.within_pulse (passes : p.Passes q) {j : Nat} (hj : j ≤ 5) :
    p.pulse.1.within j = p.within (j + 1) := by
  rw [passes.comes.within_pulse hj, passes.shifted j hj]

/-- Past execution everything moves on, whatever is in execution. A halt may retire on top of it. -/
theorem within_le_pulse (live : p.core.stop = none) (h : p.view.Reserved) {j : Nat} (hj : j ≤ 3) :
    p.within (j + 1) ≤ p.pulse.1.within j := by
  obtain ⟨q, comes, shifted, _⟩ := comesToExecute_within live h
  have kept := congrArg (fun past : Option Accessed × Option Accessed × Option Executed =>
    [past.1.isSome, past.2.1.isSome, past.2.2.isSome].take j) q.pastExecute_fromExecute
  have retired : q.core.statistics.retired ≤ p.pulse.1.core.statistics.retired := by
    rw [comes.pulse]
    refine runPhases_keeps (q.core.statistics.retired ≤ ·.core.statistics.retired) _
      (fun phase hm r kept => Nat.le_trans kept ?_) (Nat.le_refl _)
    simp only [phases, List.drop, List.mem_cons, List.not_mem_nil, or_false] at hm
    rcases hm with rfl | rfl | rfl
    · exact (counted_executePhase r).2
    · exact Nat.le_of_eq (counted_decodePhase r).2.symm
    · exact Nat.le_of_eq (counted_fetchPhase r).2.symm
  have three : ∀ r : Pipeline, r.stations.take j = (r.stations.take 3).take j := fun r => by
    rw [List.take_take, Nat.min_eq_left hj]
  rw [← shifted j hj, within, within, three q, three p.pulse.1, comes.pulse]
  rw [comes.pulse] at retired
  exact Nat.add_le_add retired (Nat.le_of_eq (congrArg (·.count true) kept.symm))

/-- A fetch that ran outside memory is reported when nothing older is in flight, and ends the pulse. -/
theorem ComesToDecode.pulse_of_fault (comes : p.ComesToDecode q) (live : q.core.stop = none)
    (older : q.nothingOlder = true) {e : Fetched} {addr : UInt64} (he : q.decode = some e)
    (outside : e.fault = some addr) :
    p.pulse = ({ q with core := q.core.reportFault addr, decode := none }, none) := by
  have reported : q.decodePhase = .done { q with core := q.core.reportFault addr, decode := none } := by
    unfold decodePhase completeDecode decodeStep
    simp only [he, outside, older, if_true, Core.reportFault, Core.requestStop, live,
      StopReason.request, Option.isSome_some]
  rw [comes.pulse, show phases.drop 3 = ⟨decodePhase, _⟩ :: phases.drop 4 from rfl]
  simp only [runPhases, reported]

/-- A word that decode does not accept fails the pulse. -/
theorem ComesToDecode.pulse_of_rejected (comes : p.ComesToDecode q) {e : Fetched} {err : ExecutionError}
    (he : q.decode = some e) (inside : e.fault = none) (rejected : e.accept = .error err) :
    p.pulse = (q, some err) := by
  have failed : q.decodePhase = .failed q err := by
    unfold decodePhase completeDecode decodeStep
    simp only [he, inside, rejected]
  rw [comes.pulse, show phases.drop 3 = ⟨decodePhase, _⟩ :: phases.drop 4 from rfl]
  simp only [runPhases, failed]

/-! ## The flushing gate -/

/-- The flushing gate is down between pulses. -/
theorem flushing_pulse (steady : p.execute.flushing = false) : p.pulse.1.execute.flushing = false := by
  cases live : p.core.stop with
  | some reason =>
    rw [pulse_of_stopped live]
    exact steady
  | none =>
    rw [pulse_of_live live]
    refine runPhases_keeps (·.execute.flushing = false) _ (fun phase hm q kept => ?_) steady
    simp only [phases, List.mem_cons, List.not_mem_nil, or_false] at hm
    rcases hm with rfl | rfl | rfl | rfl | rfl
    · exact (congrArg (·.flushing) (execute_writebackPhase q)).trans kept
    · exact (congrArg (·.flushing) (execute_accessPhase q)).trans kept
    · exact flushing_executePhase kept
    · exact (congrArg (·.2.2.flushing) (pastIssue_decodePhase q)).trans kept
    · exact (congrArg (·.2.2.flushing) (pastIssue_fetchPhase q)).trans kept

/-! ## The cycle counter -/

/-- Every pulse before the machine stops counts as one cycle, whatever becomes of it. -/
theorem cycles_pulse (live : p.core.stop = none) :
    p.pulse.1.core.statistics.cycles = p.core.statistics.cycles + 1 := by
  rw [pulse_of_live live]
  refine runPhases_keeps (·.core.statistics.cycles = p.core.statistics.cycles + 1) _
    (fun phase hm q kept => ?_) rfl
  simp only [phases, List.mem_cons, List.not_mem_nil, or_false] at hm
  rw [← kept]
  rcases hm with rfl | rfl | rfl | rfl | rfl
  · exact cycles_writebackPhase q
  · exact cycles_accessPhase q
  · exact (counted_executePhase q).1
  · exact (counted_decodePhase q).1
  · exact (counted_fetchPhase q).1

/-- As long as the machine runs, its counter says how many pulses there have been. -/
theorem cycles_pulses {n : Nat} (live : ∀ i < n, (p.pulses i).core.stop = none) :
    (p.pulses n).core.statistics.cycles = p.core.statistics.cycles + n := by
  induction n with
  | zero => rfl
  | succ n ih =>
    rw [pulses, cycles_pulse (live n (Nat.lt_succ_self n)),
      ih fun i hi => live i (Nat.lt_succ_of_lt hi), Nat.add_assoc]

end Legv8.Pipeline
