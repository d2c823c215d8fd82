import Legv8.Proofs.Refinement.Endings

/-! # Halting

On an image without a word that decode would reject, now or after a store, a run that halts the sequential
machine halts the pipeline: at the same instruction, without a failed pulse or another stop before, and
after at most ten pulses for every instruction. -/
namespace Legv8

open Pipeline (Starts)

variable {image : Memory} {pc addr : UInt64} {tracing : Bool} {p : Pipeline}

/-- If the sequential machine halts behind `n` instructions, the pipeline runs on without a failure until it
halts as well, at the same instruction and within ten pulses for each of the `n + 1` instructions. -/
theorem pulses_halt (start : Starts image pc p)
    (code : (Sequential.new (.new image pc tracing)).CodeUntouched) {n : Nat}
    (halts : (Sequential.new (.new image pc tracing)).StopsAt n (.halted addr))
    (supported : ∀ i ≤ n + 1,
      ((Sequential.new (.new image pc tracing)).after i).core.memory.SupportedFrom pc) :
    (∀ i, (p.pulses i).pulse.2 = none) ∧
      ∃ m ≤ 10 * (n + 1), (∀ i < m, (p.pulses i).core.stop = none) ∧
        ∀ i, m ≤ i → (p.pulses i).core.stop = some (.halted addr) := by
  have succeed := pulses_succeed start code halts supported
  obtain ⟨m, bound, ends, before⟩ := ends_of_stopsAt start code halts
  have stopped : (p.pulses m).core.stop ≠ none := ends.resolve_right (not_not.mpr (succeed m))
  obtain ⟨reason, stop⟩ := Option.ne_none_iff_exists'.mp stopped
  have same : reason = .halted addr := (refines_pulses start code m).2.stop_eq halts rfl rfl stop
  refine ⟨succeed, m, bound, fun i early => not_not.mp (not_or.mp (before i early)).1, fun i late => ?_⟩
  rw [← Nat.add_sub_of_le late, Pipeline.pulses_of_stopped stopped, stop, same]

/-- A move, a branch on its register over a halt, and another halt at the end of memory. -/
def Pipeline.haltSkipped : Memory := .ofWords [0xD2800021, 0xB5000041, 0, 0]

theorem run_haltSkipped :
    (∀ i < 2, ((Sequential.new (.new Pipeline.haltSkipped 0 false)).after i).step.2 = .ok none ∧
        (Operation.ofWord? ((Sequential.new (.new Pipeline.haltSkipped 0 false)).after i).entry.word).all
          (!·.isStore) = true) ∧
      ((Sequential.new (.new Pipeline.haltSkipped 0 false)).after 2).step.2 = .ok (some (.halted 12)) ∧
      ∀ i ≤ 3, ((Sequential.new (.new Pipeline.haltSkipped 0 false)).after i).core.memory =
        Pipeline.haltSkipped := by decide +kernel

theorem stopsAt_haltSkipped :
    (Sequential.new (.new Pipeline.haltSkipped 0 false)).StopsAt 2 (.halted 12) :=
  ⟨fun i early => (run_haltSkipped.1 i early).1, run_haltSkipped.2.1⟩

theorem codeUntouched_haltSkipped :
    (Sequential.new (.new Pipeline.haltSkipped 0 false)).CodeUntouched :=
  Sequential.codeUntouched_of_noStore (n := 2) rfl (by rw [stopsAt_haltSkipped.stop_after rfl]; rfl)
    fun i early => (run_haltSkipped.1 i early).2

/-- Neither the halt behind the branch nor the fetches beyond the last halt stop the pipeline. -/
theorem haltSkipped_halts :
    (Sequential.new (.new Pipeline.haltSkipped 0 false)).StopsAt 2 (.halted 12) ∧
      (∀ i, ((Pipeline.new (.new Pipeline.haltSkipped 0 false)).pulses i).pulse.2 = none) ∧
      ∃ m ≤ 30,
        (∀ i < m, ((Pipeline.new (.new Pipeline.haltSkipped 0 false)).pulses i).core.stop = none) ∧
        ∀ i, m ≤ i →
          ((Pipeline.new (.new Pipeline.haltSkipped 0 false)).pulses i).core.stop =
            some (.halted 12) := by
  have supported : Pipeline.haltSkipped.SupportedFrom 0 :=
    Memory.supportedFrom_of_forall (by decide +kernel)
  exact ⟨stopsAt_haltSkipped, pulses_halt (.fresh false) codeUntouched_haltSkipped stopsAt_haltSkipped
    fun i bound => by rw [run_haltSkipped.2.2 i bound]; exact supported⟩

end Legv8
