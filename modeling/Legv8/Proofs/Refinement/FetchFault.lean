import Legv8.Proofs.Pipeline.Stations
import Legv8.Proofs.Refinement.Boundaries
import Legv8.Proofs.Refinement.Occupants

/-! # Fetch faults

The pipeline fetches ahead, and so beyond the end of memory and along paths that a branch leaves. A fetch
that runs outside memory is only marked at first, and decode reports it when nothing older is in flight. By
then every branch before it has been settled: what is reported is the fetch that the sequential machine
makes next, in the state in which that machine makes it. -/
namespace Legv8

namespace Pipeline

def Flow.next? : Flow → Option Pipeline
  | .next p => some p
  | _ => none

/-- The state in which a pulse comes to decode, if it gets as far. -/
def atDecode? (p : Pipeline) : Option Pipeline :=
  if p.core.stop.isSome then none
  else p.countCycle.writebackPhase.next?.bind fun q =>
    q.accessPhase.next?.bind fun q => q.executePhase.next?

/-- The first missing byte of the fetch that decode reports in a pulse, if it reports one. -/
def reportedFetch? (p : Pipeline) : Option UInt64 :=
  p.atDecode?.bind fun q =>
    match q.decodeStep q.nothingOlder with
    | .fault addr => some addr
    | _ => none

variable {p q : Pipeline} {addr : UInt64}

theorem Flow.eq_of_next? {flow : Flow} (h : flow.next? = some q) : flow = .next q := by
  cases flow with
  | next r => rw [show r = q from Option.some.inj h]
  | done r => cases h
  | failed r err => cases h

theorem comesToDecode_of_atDecode? (h : p.atDecode? = some q) : p.ComesToDecode q := by
  unfold atDecode? at h
  cases live : p.core.stop with
  | some reason => simp [live] at h
  | none =>
    simp only [live, Option.isSome_none, Bool.false_eq_true, if_false] at h
    obtain ⟨r₁, writeback, h⟩ := Option.bind_eq_some_iff.mp h
    obtain ⟨r₂, access, execute⟩ := Option.bind_eq_some_iff.mp h
    exact ⟨r₂, ⟨live, r₁, Flow.eq_of_next? writeback, Flow.eq_of_next? access⟩,
      Flow.eq_of_next? execute⟩

theorem decodeStep_eq_fault {older : Bool} (h : p.decodeStep older = .fault addr) :
    older = true ∧ ∃ e, p.decode = some e ∧ e.fault = some addr := by
  unfold decodeStep at h
  cases he : p.decode with
  | none => simp [he] at h
  | some e =>
    cases hf : e.fault with
    | none => grind
    | some first =>
      simp only [he, hf] at h
      cases older with
      | false => cases h
      | true => exact ⟨rfl, e, rfl, by cases h; exact hf⟩

/-- A fetch is reported by decode, which holds it, and with nothing older in flight. -/
theorem eq_of_reportedFetch? (h : p.reportedFetch? = some addr) :
    ∃ q e, p.ComesToDecode q ∧ q.nothingOlder = true ∧ q.decode = some e ∧ e.fault = some addr := by
  obtain ⟨q, comes, reports⟩ := Option.bind_eq_some_iff.mp h
  split at reports
  · next first step =>
    obtain ⟨older, e, he, outside⟩ := decodeStep_eq_fault step
    cases reports
    exact ⟨q, e, comesToDecode_of_atDecode? comes, older, he, outside⟩
  · cases reports

end Pipeline

open Pipeline (Starts)

variable {image : Memory} {pc addr : UInt64} {tracing : Bool} {p : Pipeline}

/-- A stop at a fault with nothing in flight is that of a fetch which the sequential machine makes as well. -/
theorem Refines.fetchFaulted {s : Sequential} {v : View} (h : Refines s v)
    (stop : v.core.stop = some (.memoryFault addr)) (empty : v.accessed = []) :
    s.Reaches v.core.statistics.retired ∧
      FetchFaulted (s.after v.core.statistics.retired) v addr := by
  cases h with
  | flowing n retired reaches flows => exact absurd empty (flows.pending _ stop).1
  | halted n retired reaches halts =>
    rw [halts.stop] at stop
    cases stop
  | faulted n retired reaches first faults =>
    rw [faults.stop, Option.some.injEq, StopReason.memoryFault.injEq] at stop
    rw [retired, ← stop]
    exact ⟨reaches, faults⟩

/-- A fetch that decode reports to have run outside memory is the one that the sequential machine makes
behind exactly the retired instructions, and that stops it at the same address. So one behind a taken
branch or a halt is never reported. Nothing older is in flight at the report, and the two machines agree. -/
theorem reportedFetch_precise (start : Starts image pc p)
    (code : (Sequential.new (.new image pc tracing)).CodeUntouched) (n : Nat)
    (reported : (p.pulses n).reportedFetch? = some addr) :
    let s := Sequential.new (.new image pc tracing)
    let q := p.pulses (n + 1)
    let k := q.core.statistics.retired
    let t := s.after (k + 1)
    (s.Reaches k ∧ (s.after k).step.2 = .ok (some (.memoryFault addr)) ∧
        (s.after k).entry.fault = some addr ∧ (p.pulses n).decode = some (s.after k).entry) ∧
      q.core.stop = some (.memoryFault addr) ∧
      (q.core.registers = t.core.registers ∧ q.core.memory = t.core.memory ∧ q.flags = t.flags ∧
        q.core.statistics.tally = t.core.statistics.tally) ∧
      q.core.reservations = [] ∧
      (q.execute.pending = none ∧ q.access.pending = none ∧ q.writeback = none) ∧
      q.latches.idEx = none ∧ q.latches.exMem = none ∧ q.latches.memWb = none := by
  intro s q k t
  obtain ⟨reserved, refines⟩ := refines_pulses start code n
  obtain ⟨r, e, comes, older, he, outside⟩ := Pipeline.eq_of_reportedFetch? reported
  obtain ⟨moves, isOpen⟩ := comes.moves reserved
  obtain ⟨noneAccessed, noneExecuted, noneIssued⟩ := r.nothingOlder_iff.mp older
  have live : r.core.stop = none := isOpen.view.resolve_right (absurd noneAccessed)
  have ends : q = { r with core := r.core.reportFault addr, decode := none } :=
    congrArg Prod.fst (comes.pulse_of_fault live older he outside)
  -- the pulse before the report: with nothing older, decode holds the next fetch of the machine
  obtain ⟨reaches, flows⟩ := (refines.moves reserved moves).flowing_of_open isOpen.view
  have retired : k = r.core.statistics.retired := congrArg (·.core.statistics.retired) ends
  have words : r.view.words.length = 0 := by
    rw [View.words, noneAccessed, noneExecuted, noneIssued]
    rfl
  have oldest := Pipeline.fetched_of_decode he
  have entry : (s.after k).entry = e := by
    have next := flows.entry_eq oldest (by rw [words]; exact Sequential.reaches_zero _)
      fun j early => by rw [words] at early; exact absurd early (Nat.not_lt_zero j)
    rw [words] at next
    rw [retired]
    exact next
  -- the report itself
  obtain ⟨reserved', refines'⟩ := refines_pulses start code (n + 1)
  have stop : q.core.stop = some (.memoryFault addr) := by
    rw [ends]
    simp only [Core.reportFault, Core.requestStop, live, StopReason.request]
  have alone : q.view.accessed = [] ∧ q.view.words = [] := by
    rw [ends]
    exact ⟨noneAccessed, List.length_eq_zero_iff.mp words⟩
  obtain ⟨reaches', faults⟩ := refines'.fetchFaulted stop alone.1
  obtain ⟨result, core, unit⟩ := Sequential.step_of_fault faults.live faults.outside
  replace core : t.core = _ := core
  have empty : q.nothingOlder = true := by rw [ends]; exact older
  simp only [Pipeline.nothingOlder, Pipeline.drained, Bool.and_eq_true, Option.isNone_iff_eq_none]
    at empty
  obtain ⟨⟨noneExecute, noneIdEx⟩, ⟨⟨noneAccess, noneWriteback⟩, noneExMem⟩, noneMemWb⟩ := empty
  refine ⟨⟨reaches', result, faults.outside, ?_⟩, stop, ⟨?_, ?_, ?_, ?_⟩, ?_,
    ⟨noneExecute, noneAccess, noneWriteback⟩, noneIdEx, noneExMem, noneMemWb⟩
  · rw [entry]
    exact comes.held reserved he
  · rw [core]
    exact faults.registers
  · rw [core]
    exact faults.memory
  · exact congrArg Alu.flags (faults.alu.trans unit.symm)
  · rw [core]
    exact faults.tally
  · exact reserved'.queue.trans (congrArg Word.destinations alone.2)

/-- A move and a branch at the end of memory, to an address far behind it. -/
def Pipeline.branchOut : Memory := .ofWords [0xD2800021, 0x14000005]

/-- The fetch behind the branch runs outside memory and is discarded; the one at the target is reported. -/
theorem branchOut_reports :
    ((Pipeline.new (.new Pipeline.branchOut 0 false)).pulses 11).reportedFetch? = some 24 ∧
      ((Sequential.new (.new Pipeline.branchOut 0 false)).after 2).step.2 =
        .ok (some (.memoryFault 24)) ∧
      ((Pipeline.new (.new Pipeline.branchOut 0 false)).pulses 12).core.registers =
        ((Sequential.new (.new Pipeline.branchOut 0 false)).after 3).core.registers := by
  have code : (Sequential.new (.new Pipeline.branchOut 0 false)).CodeUntouched :=
    Sequential.codeUntouched_of_noStore (n := 2) rfl (by decide +kernel) (by decide +kernel)
  have reported : ((Pipeline.new (.new Pipeline.branchOut 0 false)).pulses 11).reportedFetch? =
      some 24 := by decide +kernel
  have retired : ((Pipeline.new (.new Pipeline.branchOut 0 false)).pulses 12).core.statistics.retired =
      2 := by decide +kernel
  obtain ⟨⟨_, result, _⟩, _, ⟨registers, _⟩, _⟩ := reportedFetch_precise (.fresh false) code 11 reported
  simp only [Nat.reduceAdd, retired] at result registers
  exact ⟨reported, result, registers⟩

end Legv8
