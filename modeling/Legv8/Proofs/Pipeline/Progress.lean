import Legv8.Proofs.Pipeline.Stations
import Mathlib.Data.Nat.Find

/-! # Progress

The oldest instruction is never held up. Nothing that it could wait for is older: no reservation, no full
latch, no draining. So a pulse that neither stops nor fails retires it or moves it one station on, and an
empty pipeline launches a fetch. There are nine stations, and so ten pulses are enough for one to retire. -/
namespace Legv8.Pipeline

variable {p : Pipeline}

/-! ## The oldest instruction -/

/-- How many stations the oldest instruction is away from writeback; nine if there is none. -/
def rank (p : Pipeline) : Nat := p.stations.findIdx id

theorem rank_le_nine (p : Pipeline) : p.rank ≤ 9 := List.findIdx_le_length

theorem rank_le {i : Nat} (bound : i < p.stations.length) (held : p.stations[i] = true) : p.rank ≤ i := by
  refine Nat.le_of_not_lt fun early => ?_
  have empty : p.stations[i] = false := List.not_of_lt_findIdx early
  rw [held] at empty
  cases empty

theorem stations_rank (bound : p.rank < p.stations.length) : p.stations[p.rank] = true :=
  List.findIdx_getElem (p := id)

/-- Nothing is in the stations before the oldest instruction. -/
theorem lt_rank {i : Nat} (bound : i < p.stations.length) (before : i ≤ p.rank)
    (empty : p.stations[i] = false) : i < p.rank := by
  refine Nat.lt_of_le_of_ne before fun here => ?_
  subst here
  rw [stations_rank bound] at empty
  cases empty

theorem within_of_le_rank {k : Nat} (h : k ≤ p.rank) : p.within k = p.core.statistics.retired := by
  induction k with
  | zero => rfl
  | succ k ih =>
    have bound : k < p.stations.length := Nat.lt_of_lt_of_le h p.rank_le_nine
    have empty : p.stations[k] = false := List.not_of_lt_findIdx h
    rw [within_succ p bound, empty, ih (Nat.le_of_succ_le h)]
    rfl

/-! ## A pulse -/

/-- What a pulse does at least. -/
def Advances (p : Pipeline) (r : Pipeline × Option ExecutionError) : Prop :=
  r.2 ≠ none ∨ r.1.core.stop ≠ none ∨ p.core.statistics.retired < r.1.core.statistics.retired ∨
    r.1.rank < p.rank

theorem advances_of_held {r : Pipeline × Option ExecutionError} {i : Nat} (bound : i < r.1.stations.length)
    (held : r.1.stations[i] = true) (far : i < p.rank) : p.Advances r :=
  .inr (.inr (.inr (Nat.lt_of_le_of_lt (rank_le bound held) far)))

/-- The oldest instruction has come one station on if there are more instructions to the same station than
before. -/
theorem advances_of_within {r : Pipeline × Option ExecutionError} {k : Nat} (far : k ≤ p.rank)
    (bound : k < p.stations.length) (held : p.stations[k] = true)
    (moved : p.within (k + 1) ≤ r.1.within k) : p.Advances r := by
  rw [within_succ p bound, held, within_of_le_rank far] at moved
  by_cases retires : p.core.statistics.retired < r.1.core.statistics.retired
  · exact .inr (.inr (.inl retires))
  · refine .inr (.inr (.inr (Nat.lt_of_not_le fun behind => ?_)))
    rw [within_of_le_rank (Nat.le_trans far behind)] at moved
    exact retires moved

/-- With nothing past decode, the oldest instruction is in the front end. -/
theorem advances_fromDecode (h : p.view.Reserved) {q : Pipeline} (passes : p.Passes q)
    (older : q.nothingOlder = true) (far : 6 ≤ p.rank) : p.Advances p.pulse := by
  obtain ⟨noneAccessed, noneExecuted, noneIssued⟩ := q.nothingOlder_iff.mp older
  obtain ⟨moves, isOpen⟩ := passes.comes.moves h
  have live : q.core.stop = none := isOpen.view.resolve_right (absurd noneAccessed)
  cases he : q.decode with
  | some e =>
    cases hf : e.fault with
    | some addr =>
      refine .inr (.inl ?_)
      rw [passes.comes.pulse_of_fault live older he hf]
      simp only [Core.reportFault, Core.requestStop, live, StopReason.request]
      exact Option.some_ne_none _
    | none =>
      cases ha : e.accept with
      | error err =>
        refine .inl ?_
        rw [passes.comes.pulse_of_rejected he hf ha]
        exact Option.some_ne_none _
      | ok i =>
        have queue : q.core.reservations = [] := by
          have queue := (h.moves moves).queue
          rw [View.words, noneAccessed, noneExecuted, noneIssued] at queue
          exact queue
        have ready : i.pendingSource? q.core.reservations = none :=
          Instruction.pendingSource?_eq_none_iff.mpr fun r _ => queue ▸ List.not_mem_nil
        obtain ⟨y, issued⟩ := decodePhase_issues live he hf ha ready passes.idEx
        obtain ⟨core, ifId, fetch, ends, _⟩ := passes.comes.pulse_of_next issued
        refine advances_of_held (by decide : 5 < 9) ?_ far
        rw [ends]
        rfl
  | none =>
    have far : 7 ≤ p.rank := lt_rank (by decide : 6 < 9) far
      (congrArg Option.isSome (passes.decode.symm.trans he))
    obtain ⟨core, ifId, fetch, ends, completed, launched⟩ :=
      passes.comes.pulse_of_next (decodePhase_empty live he)
    cases hf : q.latches.ifId with
    | some e =>
      refine advances_of_held (by decide : 6 < 9) ?_ far
      rw [ends]
      exact congrArg Option.isSome hf
    | none =>
      have far : 8 ≤ p.rank := lt_rank (by decide : 7 < 9) far
        (congrArg Option.isSome (passes.ifId.symm.trans hf))
      cases pending : q.fetch.pending with
      | true =>
        refine advances_of_held (by decide : 7 < 9) ?_ far
        rw [ends]
        exact completed.trans pending
      | false =>
        have far : 9 ≤ p.rank := lt_rank (by decide : 8 < 9) far (passes.fetch.symm.trans pending)
        refine advances_of_held (by decide : 8 < 9) ?_ far
        rw [ends]
        exact launched.trans (by rw [pending]; rfl)

/-- With nothing past execution, the oldest instruction executes. -/
theorem advances_fromExecute (h : p.view.Reserved) (steady : p.execute.flushing = false)
    (live : p.core.stop = none) (far : 4 ≤ p.rank) {y : Issued} (hy : p.execute.pending = some y) :
    p.Advances p.pulse := by
  have issued : y ∈ p.view.issued := by
    simp only [view, hy, Option.toList_some, List.cons_append, List.mem_cons, true_or]
  obtain ⟨op, _, result⟩ := h.execute issued p.execute.alu
  rcases p.execute.alu.perform_cases op y with ⟨_, halts⟩ | ⟨_, out, target, alu, forwards, _⟩
  · rw [halts] at result
    refine .inr (.inl (pulse_of_oldest_halt live h hy result ?_))
    rw [within_of_le_rank far, within_of_le_rank (Nat.le_trans (by decide) far)]
  · rw [forwards] at result
    have moved : p.within 5 = p.pulse.1.within 4 := by
      cases target with
      | none =>
        obtain ⟨q, passes⟩ := exists_passes live h steady fun z hz => by
          rw [hy, Option.some.injEq] at hz
          exact hz ▸ ⟨out, alu, result⟩
        exact (passes.within_pulse (by decide)).symm
      | some target =>
        obtain ⟨q, comes, shifted, _⟩ := comesToDecode_redirect live h hy result
        rw [comes.within_pulse (by decide), shifted 4 (Nat.le_refl 4)]
    exact advances_of_within far (by decide : 4 < 9) (congrArg Option.isSome hy) (Nat.le_of_eq moved)

/-- A pulse retires the oldest instruction, moves it on, stops or fails. -/
theorem pulse_advances (h : p.view.Reserved) (steady : p.execute.flushing = false)
    (live : p.core.stop = none) : p.Advances p.pulse := by
  rcases Nat.lt_or_ge p.rank 4 with past | far
  · have bound : p.rank < p.stations.length := Nat.lt_trans past (by decide : 4 < 9)
    exact advances_of_within (Nat.le_refl _) bound (stations_rank bound)
      (within_le_pulse live h (Nat.le_of_lt_succ past))
  · cases hy : p.execute.pending with
    | some y => exact advances_fromExecute h steady live far hy
    | none =>
      obtain ⟨q, passes⟩ := exists_passes live h steady fun y hz => by
        rw [hy] at hz
        cases hz
      have far : 5 ≤ p.rank := lt_rank (by decide : 4 < 9) far (congrArg Option.isSome hy)
      cases hi : p.latches.idEx with
      | some y =>
        exact advances_of_within far (by decide : 5 < 9) (congrArg Option.isSome hi)
          (Nat.le_of_eq (passes.within_pulse (Nat.le_refl 5)).symm)
      | none =>
        have older : q.nothingOlder = true := by
          have drained : q.drained = true := by
            rw [drained_iff_within, passes.shifted 4 (by decide), passes.shifted 0 (by decide),
              within_of_le_rank far, within_of_le_rank (Nat.le_trans (by decide) far)]
          rw [nothingOlder, passes.execute, passes.idEx, hi, drained]
          rfl
        exact advances_fromDecode h passes older
          (lt_rank (by decide : 5 < 9) far (congrArg Option.isSome hi))

/-! ## Ten pulses -/

/-- As many pulses as the oldest instruction has stations before it let it retire, unless the pipeline stops
or fails. -/
theorem progress_within_rank (h : p.view.Reserved) (steady : p.execute.flushing = false)
    (live : p.core.stop = none) : ∃ i ≤ p.rank, (p.pulses i).core.stop = none ∧
      ((p.pulses i).pulse.2 ≠ none ∨ (p.pulses (i + 1)).core.stop ≠ none ∨
        (p.pulses i).core.statistics.retired < (p.pulses (i + 1)).core.statistics.retired) := by
  generalize hr : p.rank = r
  induction r using Nat.strongRecOn generalizing p with
  | ind r ih =>
    rcases pulse_advances h steady live with fails | stops | retires | nearer
    · exact ⟨0, Nat.zero_le _, live, .inl fails⟩
    · exact ⟨0, Nat.zero_le _, live, .inr (.inl stops)⟩
    · exact ⟨0, Nat.zero_le _, live, .inr (.inr retires)⟩
    · by_cases stops : p.pulse.1.core.stop = none
      · rw [hr] at nearer
        obtain ⟨i, bound, running, ends⟩ :=
          ih _ nearer (h.moves (pulse_moves h).1) (flushing_pulse steady) stops rfl
        rw [pulses_pulse, pulses_pulse] at ends
        rw [pulses_pulse] at running
        exact ⟨i + 1, Nat.lt_of_le_of_lt bound nearer, running, ends⟩
      · exact ⟨0, Nat.zero_le _, live, .inr (.inl stops)⟩

/-- The flushing gate is down in every reachable state. -/
theorem Reachable.steady (h : p.Reachable) : p.execute.flushing = false := by
  induction h with
  | fresh memory pc tracing => rfl
  | pulse _ ih => exact flushing_pulse ih
  | flush _ target _ => rfl
  | reset _ _ => rfl
  | clearStop _ ih => exact ih

/-- Whatever a pipeline has been through, one of the next ten pulses fails, stops it or retires an
instruction. -/
theorem progress_within_ten (h : p.Reachable) (live : p.core.stop = none) :
    ∃ i < 10, (p.pulses i).core.stop = none ∧
      ((p.pulses i).pulse.2 ≠ none ∨ (p.pulses (i + 1)).core.stop ≠ none ∨
        (p.pulses i).core.statistics.retired < (p.pulses (i + 1)).core.statistics.retired) := by
  obtain ⟨i, bound, running, ends⟩ := progress_within_rank h.reserved h.steady live
  exact ⟨i, Nat.lt_succ_of_le (Nat.le_trans bound p.rank_le_nine), running, ends⟩

/-- A fresh pipeline takes all ten pulses to retire the first of two moves. -/
theorem progress_twoMoves :
    let p := Pipeline.new (.new twoMoves 0 false)
    p.core.stop = none ∧ ∃ i < 10, (p.pulses i).core.stop = none ∧
      ((p.pulses i).pulse.2 ≠ none ∨ (p.pulses (i + 1)).core.stop ≠ none ∨
        (p.pulses i).core.statistics.retired < (p.pulses (i + 1)).core.statistics.retired) := by
  intro p
  have live : p.core.stop = none := rfl
  exact ⟨live, progress_within_ten (.fresh twoMoves 0 false) live⟩

/-! ## Runs -/

/-- The run ends after `n` pulses: the pipeline has stopped, or the next pulse fails. -/
def Ends (p : Pipeline) (n : Nat) : Prop :=
  (p.pulses n).core.stop ≠ none ∨ (p.pulses n).pulse.2 ≠ none

theorem moves_pulses (h : p.view.Reserved) (n : Nat) : View.Moves p.view (p.pulses n).view := by
  induction n with
  | zero => exact .refl
  | succ n ih => exact ih.trans (pulse_moves (h.moves ih)).1

theorem reserved_pulses (h : p.view.Reserved) (n : Nat) : (p.pulses n).view.Reserved :=
  h.moves (moves_pulses h n)

theorem flushing_pulses (steady : p.execute.flushing = false) (n : Nat) :
    (p.pulses n).execute.flushing = false := by
  induction n with
  | zero => exact steady
  | succ n ih => exact flushing_pulse ih

/-- Ten pulses for each of `k` instructions let them retire, unless the run ends before. -/
theorem ends_or_retires (h : p.view.Reserved) (steady : p.execute.flushing = false) (k : Nat) :
    ∃ n ≤ 10 * k, p.Ends n ∨
      p.core.statistics.retired + k ≤ (p.pulses n).core.statistics.retired := by
  induction k with
  | zero => exact ⟨0, Nat.le_refl _, .inr (Nat.le_refl _)⟩
  | succ k ih =>
    obtain ⟨n, bound, ends | retired⟩ := ih
    · exact ⟨n, by omega, .inl ends⟩
    · by_cases live : (p.pulses n).core.stop = none
      · obtain ⟨i, within, _, ends⟩ :=
          progress_within_rank (reserved_pulses h n) (flushing_pulses steady n) live
        have nine := (p.pulses n).rank_le_nine
        have kept := View.retired_le_of_moves (moves_pulses (reserved_pulses h n) i)
        simp only [← pulses_add] at ends kept
        rcases ends with fails | stops | more
        · exact ⟨n + i, by omega, .inl (.inr fails)⟩
        · exact ⟨n + (i + 1), by omega, .inl (.inl stops)⟩
        · exact ⟨n + (i + 1), by omega, .inr (Nat.lt_of_le_of_lt (Nat.le_trans retired kept) more)⟩
      · exact ⟨n, by omega, .inl (.inl live)⟩

/-- A run that retires fewer than `k` instructions before it ends does end; until then every pulse is a live
one that succeeds. -/
theorem exists_end (h : p.view.Reserved) (steady : p.execute.flushing = false) {k : Nat}
    (never : ∀ n, ¬ p.Ends n →
      (p.pulses n).core.statistics.retired < p.core.statistics.retired + k) :
    ∃ n ≤ 10 * k, p.Ends n ∧ ∀ i < n, ¬ p.Ends i := by
  classical
  obtain ⟨n, bound, retired⟩ := ends_or_retires h steady k
  have ends : p.Ends n :=
    by_contra fun goes => absurd (never n goes) (Nat.not_lt.mpr (retired.resolve_left goes))
  have some : ∃ n, p.Ends n := ⟨n, ends⟩
  exact ⟨Nat.find some, Nat.le_trans (Nat.find_min' some ends) bound, Nat.find_spec some,
    fun i early => Nat.find_min some early⟩

/-- Nothing happens once the pipeline has stopped. -/
theorem pulses_of_stopped {n : Nat} (stop : (p.pulses n).core.stop ≠ none) (i : Nat) :
    p.pulses (n + i) = p.pulses n := by
  obtain ⟨reason, stop⟩ := Option.ne_none_iff_exists'.mp stop
  induction i with
  | zero => rfl
  | succ i ih => rw [← Nat.add_assoc, pulses, ih, pulse_of_stopped stop]

end Legv8.Pipeline
