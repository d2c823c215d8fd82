import Legv8.Proofs.Refinement.Endings

/-! # Data faults

A load or store that leaves memory asks for a stop as soon as it makes its access. The instruction before it
may have made its own access only one pulse earlier; then it is still in writeback, and the stop keeps it
from committing. So the pipeline stops at the instruction at which the sequential machine stops, with the
same memory, but with the registers of one instruction less unless writeback is empty. -/
namespace Legv8

namespace Sequential

variable {s : Sequential}

/-- Behind `n` instructions, a load or store leaves memory at `addr`. -/
structure DataFaults (s : Sequential) (n : Nat) (addr : UInt64) : Prop where
  reaches : s.Reaches n
  inside : (s.after n).entry.fault = none
  stops : (s.after n).step.2 = .ok (some (.memoryFault addr))

namespace DataFaults

variable {n : Nat} {addr : UInt64}

/-- A faulting instruction does not commit. -/
theorem core_after (h : s.DataFaults n addr) (live : s.core.stop = none) (idle : s.core.reservations = []) :
    (s.after (n + 1)).core.registers = (s.after n).core.registers ∧
      (s.after (n + 1)).core.statistics.retired = (s.after n).core.statistics.retired ∧
      (s.after (n + 1)).core.stop = some (.memoryFault addr) := by
  have running := h.reaches.stop idle live
  have idle := reservations_after idle n
  have stops := h.stops
  rcases (s.after n).step_cases with ⟨_, outside⟩ | ⟨inside, err, rejected⟩ | ⟨y, alu, hy, halts⟩ |
    ⟨out, target, alu, op, hx, hop⟩
  · rw [h.inside] at outside
    cases outside
  · rw [step_of_rejected running inside rejected] at stops
    cases stops
  · rw [(step_of_halt running hy halts).1] at stops
    cases stops
  · cases missing : ((s.after n).accessOf out).missing with
    | nil =>
      rw [(step_of_access running hx hop idle missing).1] at stops
      cases stops
    | cons first rest =>
      obtain ⟨result, core⟩ := step_of_accessFault running hx missing
      rw [stops, Except.ok.injEq, Option.some.injEq] at result
      rw [after, core, result]
      exact ⟨registers_began (s.after n).core target, retired_began (s.after n).core target, rfl⟩

theorem stopsAt (h : s.DataFaults n addr) : s.StopsAt n (.memoryFault addr) := ⟨h.reaches, h.stops⟩

end DataFaults

end Sequential

section Stopped

variable {s : Sequential} {v : View} {n : Nat} {addr : UInt64}

/-- A stopped pipeline has made the access that faults, and no later one. -/
theorem Refines.stopped_at (h : Refines s v) (faults : s.DataFaults n addr) (live : s.core.stop = none)
    (idle : s.core.reservations = []) {reason : StopReason} (stop : v.core.stop = some reason) :
    reason = .memoryFault addr ∧ v.accessed ≠ [] ∧
      v.core.statistics.retired + v.accessed.length = n + 1 := by
  cases h with
  | flowing k retired reaches flows =>
    obtain ⟨same, last⟩ := flows.stopped reaches faults.stopsAt live idle stop
    exact ⟨same, (flows.pending _ stop).1, retired.symm ▸ last⟩
  | halted k retired reaches halts =>
    obtain ⟨_, other⟩ := faults.stopsAt.unique ⟨reaches, halts.result⟩
    cases other
  | faulted k retired reaches first fetch =>
    obtain ⟨rfl, _⟩ := faults.stopsAt.unique
      ⟨reaches, (Sequential.step_of_fault fetch.live fetch.outside).1⟩
    have outside := fetch.outside
    rw [faults.inside] at outside
    cases outside

/-- If one of two accesses has not committed, its commit is all that the registers lack. -/
theorem Refines.commits (h : Refines s v) (faults : s.DataFaults n addr) (isOpen : v.Open)
    (reserved : v.Reserved) {w : Accessed} {rest : List Accessed} (oldest : v.accessed = w :: rest)
    (last : v.core.statistics.retired + 1 = n) :
    (s.after n).core.registers = v.core.registers.put w.word.dest? w.value := by
  obtain ⟨reaches, flows⟩ := h.flowing_of_open isOpen
  obtain ⟨op, hop, _⟩ := reserved.commit oldest
  have continues := faults.reaches v.core.statistics.retired (by omega)
  rw [← last, Sequential.after]
  exact (flows.commits oldest hop continues).1

end Stopped

open Pipeline (Starts)

variable {image : Memory} {pc : UInt64} {tracing : Bool} {p : Pipeline}

/-- When a run stops with accesses in flight, the last of them has just been made. -/
theorem memWb_of_stopped (start : Starts image pc p)
    (code : (Sequential.new (.new image pc tracing)).CodeUntouched) {n : Nat}
    (running : ∀ i < n, (p.pulses i).core.stop = none) (stopped : (p.pulses n).core.stop ≠ none)
    (accessed : (p.pulses n).view.accessed ≠ []) : (p.pulses n).latches.memWb.isSome = true := by
  cases n with
  | zero =>
    obtain ⟨_, rfl⟩ := start.eq_new
    exact absurd rfl stopped
  | succ n =>
    have rests := (Pipeline.pulse_moves (refines_pulses start code n).1).2.2
    exact (rests (running n (Nat.lt_succ_self n)) stopped).resolve_left accessed

/-- Where a run stops at a data fault: with the memory of the stopped sequential machine, and with all older
instructions committed if and only if writeback is empty. -/
theorem stopped_of_dataFault (start : Starts image pc p)
    (code : (Sequential.new (.new image pc tracing)).CodeUntouched) {k : Nat} {addr : UInt64}
    (faults : (Sequential.new (.new image pc tracing)).DataFaults k addr) {n : Nat}
    (running : ∀ i < n, (p.pulses i).core.stop = none) (stopped : (p.pulses n).core.stop ≠ none) :
    let s := Sequential.new (.new image pc tracing)
    let t := s.after (k + 1)
    let q := p.pulses n
    q.core.stop = some (.memoryFault addr) ∧ q.core.memory = t.core.memory ∧
      q.core.statistics.retired + q.writeback.isSome.toNat = t.core.statistics.retired ∧
      (q.core.registers = t.core.registers ∧
          q.core.statistics.retired = t.core.statistics.retired ↔ q.writeback = none) ∧
      ∀ w, q.writeback = some w → t.core.registers = q.core.registers.put w.word.dest? w.value := by
  intro s t q
  obtain ⟨reserved, refines⟩ := refines_pulses start code n
  obtain ⟨reason, stop⟩ := Option.ne_none_iff_exists'.mp stopped
  obtain ⟨rfl, accessed, length⟩ := refines.stopped_at faults rfl rfl stop
  obtain ⟨registersAfter, retiredAfter, _⟩ := faults.core_after rfl rfl
  have total : t.core.statistics.retired = k := by
    rw [retiredAfter, faults.reaches.retired rfl]
    exact Nat.zero_add k
  obtain ⟨_, registers, _, memory⟩ := refines.agrees rfl rfl
  rw [length] at memory
  -- the access that faults is the last one, behind what writeback holds
  have count : q.core.statistics.retired + q.writeback.isSome.toNat = k := by
    have uncommitted := q.length_accessed
    rw [Pipeline.uncommitted, memWb_of_stopped start code running stopped accessed] at uncommitted
    rw [uncommitted, Bool.toNat_true, ← Nat.add_assoc] at length
    exact Nat.succ.inj length
  refine ⟨stop, memory, by rw [count, total], ⟨fun same => ?_, fun empty => ?_⟩, fun w hw => ?_⟩
  · rw [same.2, total, Nat.add_eq_left] at count
    cases hw : q.writeback with
    | none => rfl
    | some w =>
      rw [hw] at count
      cases count
  · rw [empty] at count
    have retired : q.core.statistics.retired = k := count
    exact ⟨by rw [registersAfter, ← retired]; exact registers, by rw [total, retired]⟩
  · rw [hw] at count
    have oldest : q.view.accessed = w :: q.latches.memWb.toList := by
      simp only [Pipeline.view, hw, Option.toList_some, List.cons_append, List.nil_append]
    rw [registersAfter]
    exact refines.commits faults (.inr accessed) reserved oldest count

/-- If the sequential machine stops at a data fault, the pipeline stops at the same one with the same memory,
unless decode meets a word that a store has made one to reject. Its registers and its count of retired
instructions are those of the sequential machine if and only if writeback is empty; otherwise the commit of
the instruction in writeback is all that they lack. -/
theorem pulses_stop_at_dataFault (start : Starts image pc p)
    (code : (Sequential.new (.new image pc tracing)).CodeUntouched) (supported : image.SupportedFrom pc)
    {k : Nat} {addr : UInt64} (faults : (Sequential.new (.new image pc tracing)).DataFaults k addr) :
    let s := Sequential.new (.new image pc tracing)
    let t := s.after (k + 1)
    let q := p.pulses (10 * (k + 1))
    (∃ n ≤ 10 * (k + 1), ∃ err e, (p.pulses n).pulse.2 = some err ∧ (p.pulses (n + 1)).decode = some e ∧
        e.accept = .error err ∧ image.entryAt e.pc ≠ e) ∨
      (∀ n, (p.pulses n).pulse.2 = none) ∧ q.core.stop = some (.memoryFault addr) ∧
        q.core.memory = t.core.memory ∧
        q.core.statistics.retired + q.writeback.isSome.toNat = t.core.statistics.retired ∧
        (q.core.registers = t.core.registers ∧
            q.core.statistics.retired = t.core.statistics.retired ↔ q.writeback = none) ∧
        ∀ w, q.writeback = some w → t.core.registers = q.core.registers.put w.word.dest? w.value := by
  intro s t q
  obtain ⟨n, bound, ends, before⟩ := ends_of_stopsAt start code faults.stopsAt
  by_cases live : (p.pulses n).core.stop = none
  · obtain ⟨err, failed⟩ := Option.ne_none_iff_exists'.mp (ends.resolve_left (not_not.mpr live))
    obtain ⟨e, rejects⟩ := (Pipeline.pulse_moves (refines_pulses start code n).1).2.1 err failed
    have held : e ∈ (p.pulses (n + 1)).view.fetched :=
      List.mem_append_left _ (Option.mem_toList.mpr rejects.held)
    have aligned := (start.aligned_pulses (n + 1)).fetched e held
    exact .inl ⟨n, bound, err, e, failed, rejects.held, rejects.rejected,
      supported.changed aligned rejects.inside rejects.rejected⟩
  · right
    have running : ∀ i < n, (p.pulses i).core.stop = none := fun i early =>
      not_not.mp (not_or.mp (before i early)).1
    have rest : ∀ i, p.pulses (n + i) = p.pulses n := Pipeline.pulses_of_stopped live
    refine ⟨fun i => ?_, ?_⟩
    · rcases Nat.lt_or_ge i n with early | late
      · exact not_not.mp (not_or.mp (before i early)).2
      · obtain ⟨reason, stop⟩ := Option.ne_none_iff_exists'.mp live
        rw [← Nat.add_sub_of_le late, rest, Pipeline.pulse_of_stopped stop]
    · have last : q = p.pulses n := by rw [← rest (10 * (k + 1) - n), Nat.add_sub_of_le bound]
      rw [last]
      exact stopped_of_dataFault start code faults running live

/-- A sum, and a load outside memory right behind it. -/
def Pipeline.sumBeforeFault : Memory := .ofWords [0xD2800021, 0x8B010022, 0xF85FF083, 0]

/-- The load stops the pipeline while the sum is in writeback, whose commit the stop prevents. -/
theorem sumBeforeFault_stops :
    (Sequential.new (.new Pipeline.sumBeforeFault 0 false)).DataFaults 2 0xFFFFFFFFFFFFFFFF ∧
      ((Pipeline.new (.new Pipeline.sumBeforeFault 0 false)).pulses 30).core.stop =
        some (.memoryFault 0xFFFFFFFFFFFFFFFF) ∧
      ¬ (((Pipeline.new (.new Pipeline.sumBeforeFault 0 false)).pulses 30).core.registers =
          ((Sequential.new (.new Pipeline.sumBeforeFault 0 false)).after 3).core.registers ∧
        ((Pipeline.new (.new Pipeline.sumBeforeFault 0 false)).pulses 30).core.statistics.retired =
          ((Sequential.new (.new Pipeline.sumBeforeFault 0 false)).after 3).core.statistics.retired) := by
  have code : (Sequential.new (.new Pipeline.sumBeforeFault 0 false)).CodeUntouched :=
    Sequential.codeUntouched_of_noStore (n := 2) rfl (by decide +kernel) (by decide +kernel)
  have supported : Pipeline.sumBeforeFault.SupportedFrom 0 :=
    Memory.supportedFrom_of_forall (by decide +kernel)
  have steps : (∀ i < 2, ((Sequential.new (.new Pipeline.sumBeforeFault 0 false)).after i).step.2 =
        .ok none) ∧
      ((Sequential.new (.new Pipeline.sumBeforeFault 0 false)).after 2).entry.fault = none ∧
      ((Sequential.new (.new Pipeline.sumBeforeFault 0 false)).after 2).step.2 =
        .ok (some (.memoryFault 0xFFFFFFFFFFFFFFFF)) := by decide +kernel
  have faults : (Sequential.new (.new Pipeline.sumBeforeFault 0 false)).DataFaults 2
      0xFFFFFFFFFFFFFFFF := ⟨steps.1, steps.2.1, steps.2.2⟩
  have pulses : (∀ n ≤ 30, ((Pipeline.new (.new Pipeline.sumBeforeFault 0 false)).pulses n).pulse.2 =
        none) ∧
      ((Pipeline.new (.new Pipeline.sumBeforeFault 0 false)).pulses 30).writeback ≠ none := by
    decide +kernel
  have start : Starts Pipeline.sumBeforeFault 0 (.new (.new Pipeline.sumBeforeFault 0 false)) :=
    .fresh false
  have result := pulses_stop_at_dataFault start code supported faults
  simp only [Nat.reduceAdd, Nat.reduceMul] at result
  refine ⟨faults, ?_⟩
  rcases result with ⟨n, bound, err, e, failed, _⟩ | ⟨_, stop, _, _, iff, _⟩
  · cases (pulses.1 n bound).symm.trans failed
  · exact ⟨stop, fun same => pulses.2 (iff.mp same)⟩

end Legv8
