import Legv8.Proofs.Pipeline.Histories
import Legv8.Proofs.Refinement.Simulation

/-! # The pipeline at every pulse boundary

A pipeline that starts empty is matched with the sequential machine on the same memory from the first pulse
on, whatever the pulses return. So its retired instructions are the first steps of that machine, and its
memory is that machine's a few steps later: as many as have made their access and still wait to commit. -/
namespace Legv8

namespace Pipeline

/-- An empty pipeline around a memory that starts at `pc`: a fresh one, or any one after a reset. -/
inductive Starts (image : Memory) (pc : UInt64) : Pipeline → Prop where
  | fresh (tracing : Bool) : Starts image pc (.new (.new image pc tracing))
  | reset {p : Pipeline} (memory : p.core.memory = image) (resetPc : p.core.resetPc = pc) :
    Starts image pc p.reset

/-- How many instructions have made their memory access and not yet committed. -/
def uncommitted (p : Pipeline) : Nat := p.writeback.isSome.toNat + p.latches.memWb.isSome.toNat

theorem length_accessed (p : Pipeline) : p.view.accessed.length = p.uncommitted := by
  unfold view uncommitted
  cases p.writeback <;> cases p.latches.memWb <;> rfl

/-- A reset leaves nothing of a history. -/
theorem Starts.eq_new {image : Memory} {pc : UInt64} {p : Pipeline} (h : Starts image pc p) :
    ∃ tracing, p = .new (.new image pc tracing) := by
  cases h with
  | fresh tracing => exact ⟨tracing, rfl⟩
  | @reset q memory resetPc => exact ⟨q.core.tracing, by rw [reset_eq, memory, resetPc]⟩

end Pipeline

open Pipeline (Starts)

variable {image : Memory} {pc : UInt64} {tracing : Bool} {p : Pipeline}

/-- An empty pipeline is matched with the machine that has not started. -/
theorem flowing_start (tracing₀ : Bool) (code : (Sequential.new (.new image pc tracing)).CodeUntouched) :
    Flowing (.new (.new image pc tracing)) (Pipeline.new (.new image pc tracing₀)).view where
  live := rfl
  idle := rfl
  code := code
  performs := Sequential.performs_zero _
  registers := rfl
  tally := rfl
  memory := rfl
  stop := rfl
  pending _ h := by cases h
  tracks _ := ⟨rfl, rfl, fun _ => rfl⟩

/-- Every pulse keeps an empty start matched. -/
theorem refines_pulses (start : Starts image pc p)
    (code : (Sequential.new (.new image pc tracing)).CodeUntouched) (n : Nat) :
    (p.pulses n).view.Reserved ∧ Refines (.new (.new image pc tracing)) (p.pulses n).view := by
  obtain ⟨tracing₀, rfl⟩ := start.eq_new
  induction n with
  | zero =>
    exact ⟨Pipeline.reserved_new rfl, .flowing 0 rfl (Sequential.reaches_zero _) (flowing_start _ code)⟩
  | succ n ih =>
    obtain ⟨reserved, refines⟩ := ih
    have moves := (Pipeline.pulse_moves reserved).1
    exact ⟨reserved.moves moves, refines.moves reserved moves⟩

/-- What every move keeps while the pipeline is matched holds after every pulse. -/
theorem pulses_keep {kept : View → Prop} (start : Starts image pc p)
    (code : (Sequential.new (.new image pc tracing)).CodeUntouched) (init : kept p.view)
    (move : ∀ v v', v.Reserved → Refines (.new (.new image pc tracing)) v → kept v → View.Move v v' →
      kept v') (n : Nat) : kept (p.pulses n).view := by
  induction n with
  | zero => exact init
  | succ n ih =>
    obtain ⟨reserved, refines⟩ := refines_pulses start code n
    have moves : View.Moves (p.pulses n).view (p.pulses (n + 1)).view := (Pipeline.pulse_moves reserved).1
    generalize (p.pulses (n + 1)).view = v at moves ⊢
    induction moves with
    | refl => exact ih
    | tail before step ih => exact move _ _ (reserved.moves before) (refines.moves reserved before) ih step

/-- The run behind a match: what has retired has been performed, and what waits to commit as well. -/
theorem Refines.agrees {s : Sequential} {v : View} (h : Refines s v) (live : s.core.stop = none)
    (idle : s.core.reservations = []) :
    s.Performs (v.core.statistics.retired + v.accessed.length) ∧
      v.core.registers = (s.after v.core.statistics.retired).core.registers ∧
      v.core.statistics.tally = (s.after v.core.statistics.retired).core.statistics.tally ∧
      v.core.memory = (s.after (v.core.statistics.retired + v.accessed.length)).core.memory := by
  cases h with
  | flowing n retired reaches flows =>
    rw [retired, Sequential.after_add]
    exact ⟨(reaches.performs idle live).add flows.performs, flows.registers, flows.tally, flows.memory⟩
  | halted n retired reaches halts =>
    rw [retired, halts.empty.1]
    exact ⟨(reaches.performs idle live).succ halts.live halts.result, halts.registers, halts.tally,
      halts.memory⟩
  | faulted n retired reaches addr faults =>
    rw [retired, faults.empty.1]
    exact ⟨reaches.performs idle live, faults.registers, faults.tally, faults.memory⟩

/-- A halt of the pipeline is the halt of the machine, and nothing is left in flight. -/
theorem Refines.halts {s : Sequential} {v : View} (h : Refines s v) {addr : UInt64}
    (stop : v.core.stop = some (.halted addr)) :
    ∃ n, v.core.statistics.retired = n + 1 ∧ (s.after n).step.2 = .ok (some (.halted addr)) ∧
      v.alu = (s.after (n + 1)).alu ∧ v.core.memory = (s.after (n + 1)).core.memory ∧
      v.core.statistics.taken = (s.after (n + 1)).core.statistics.taken ∧ v.words = [] := by
  cases h with
  | flowing n retired reaches flows =>
    obtain ⟨_, _, fault⟩ := flows.pending _ stop
    cases fault
  | halted n retired reaches halts =>
    obtain ⟨noneAccessed, noneExecuted, noneIssued⟩ := halts.empty
    rw [halts.stop, Option.some.injEq, StopReason.halted.injEq] at stop
    refine ⟨n, retired, by rw [← stop]; exact halts.result, halts.alu, halts.memory, halts.taken, ?_⟩
    rw [View.words, noneAccessed, noneExecuted, noneIssued]
    rfl
  | faulted n retired reaches addr' faults =>
    rw [faults.stop] at stop
    cases stop

/-- After any number of pulses from an empty start, the pipeline has executed the first steps of the
sequential machine. If it has halted, that machine has halted with its last step and in the same state. -/
theorem pulses_refine_sequential (start : Starts image pc p)
    (code : (Sequential.new (.new image pc tracing)).CodeUntouched) (n : Nat) :
    let s := Sequential.new (.new image pc tracing)
    let q := p.pulses n
    let k := q.core.statistics.retired
    s.Performs (k + q.uncommitted) ∧
      q.core.registers = (s.after k).core.registers ∧
      q.core.statistics.tally = (s.after k).core.statistics.tally ∧
      q.core.memory = (s.after (k + q.uncommitted)).core.memory ∧
      ∀ addr, q.core.stop = some (.halted addr) →
        (∃ i, k = i + 1 ∧ (s.after i).step.2 = .ok (some (.halted addr))) ∧
          q.flags = (s.after k).flags ∧ q.core.memory = (s.after k).core.memory ∧
          q.core.statistics.taken = (s.after k).core.statistics.taken ∧ q.core.reservations = [] := by
  intro s q k
  obtain ⟨reserved, refines⟩ := refines_pulses start code n
  obtain ⟨performs, registers, tally, memory⟩ := refines.agrees rfl rfl
  rw [Pipeline.length_accessed] at performs memory
  refine ⟨performs, registers, tally, memory, fun addr stop => ?_⟩
  obtain ⟨i, retired, result, alu, memory, taken, words⟩ := refines.halts stop
  have count : k = i + 1 := retired
  rw [count]
  refine ⟨⟨i, rfl, result⟩, congrArg Alu.flags alu, memory, taken, ?_⟩
  exact reserved.queue.trans (congrArg Word.destinations words)

/-- Two moves and a halt retire in twelve pulses, with the registers of the machine's three steps. -/
theorem twoMoves_refines_sequential :
    ((Pipeline.new (.new Pipeline.twoMoves 0 false)).pulses 12).core.stop = some (.halted 8) ∧
      ((Pipeline.new (.new Pipeline.twoMoves 0 false)).pulses 12).core.registers =
        ((Sequential.new (.new Pipeline.twoMoves 0 true)).after 3).core.registers ∧
      ((Sequential.new (.new Pipeline.twoMoves 0 true)).after 2).step.2 =
        .ok (some (.halted 8)) := by
  have start : Starts Pipeline.twoMoves 0 (.new (.new Pipeline.twoMoves 0 false)) := .fresh false
  have code : (Sequential.new (.new Pipeline.twoMoves 0 true)).CodeUntouched :=
    Sequential.codeUntouched_of_noStore (n := 2) rfl (by decide +kernel) (by decide +kernel)
  have stop : ((Pipeline.new (.new Pipeline.twoMoves 0 false)).pulses 12).core.stop =
      some (.halted 8) := by decide +kernel
  have retired : ((Pipeline.new (.new Pipeline.twoMoves 0 false)).pulses 12).core.statistics.retired =
      3 := by decide +kernel
  obtain ⟨_, registers, _, _, halts⟩ := pulses_refine_sequential start code 12
  obtain ⟨⟨i, count, result⟩, _⟩ := halts 8 stop
  rw [retired] at registers count
  rw [← Nat.succ.inj count] at result
  exact ⟨stop, registers, result⟩

end Legv8
