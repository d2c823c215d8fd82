import Legv8.Proofs.Pipeline.Alignment
import Legv8.Proofs.Pipeline.Progress
import Legv8.Proofs.Refinement.Rejection

/-! # How runs end

If the run of the sequential machine stops, the pipelined run ends too, after a number of pulses that is
bounded by the number of steps. It may end early in one way only, at a word that decode does not accept. If
no word that the run could fetch is such a word, now or after a store, the pipeline stops for the reason for
which the sequential machine stops. -/
namespace Legv8

section Stopped

variable {s : Sequential} {v : View} {n k : Nat} {reason : StopReason}

/-- A pipeline that has stopped with accesses in flight has made the one at which the machine stops. -/
theorem Flowing.stopped (flows : Flowing (s.after k) v) (reaches : s.Reaches k)
    (ends : s.StopsAt n reason) (live : s.core.stop = none) (idle : s.core.reservations = [])
    {found : StopReason} (stop : v.core.stop = some found) :
    found = reason ∧ k + v.accessed.length = n + 1 := by
  have performs := (reaches.performs idle live).add flows.performs
  have pending := flows.stop
  rw [stop, ← Sequential.after_add] at pending
  -- up to its last step the machine is not stopped
  have last : k + v.accessed.length = n + 1 := by
    refine Nat.le_antisymm (ends.le_of_performs idle performs) (Nat.lt_of_not_le fun early => ?_)
    rw [(ends.reaches.mono early).stop idle live] at pending
    cases pending
  rw [last, ends.stop_after idle, Option.some.injEq] at pending
  exact ⟨pending, last⟩

/-- A pipeline stops for the reason for which the machine stops. -/
theorem Refines.stop_eq (h : Refines s v) (ends : s.StopsAt n reason) (live : s.core.stop = none)
    (idle : s.core.reservations = []) {found : StopReason} (stop : v.core.stop = some found) :
    found = reason := by
  cases h with
  | flowing k retired reaches flows => exact (flows.stopped reaches ends live idle stop).1
  | halted k retired reaches halts =>
    rw [halts.stop, Option.some.injEq] at stop
    exact stop ▸ (ends.unique ⟨reaches, halts.result⟩).2
  | faulted k retired reaches addr faults =>
    rw [faults.stop, Option.some.injEq] at stop
    exact stop ▸ (ends.unique ⟨reaches, (Sequential.step_of_fault faults.live faults.outside).1⟩).2

/-- A halt of the pipeline ends the run of the machine. -/
theorem Refines.stopsAt_of_halted (h : Refines s v) {addr : UInt64}
    (stop : v.core.stop = some (.halted addr)) : ∃ n, s.StopsAt n (.halted addr) := by
  cases h with
  | flowing k retired reaches flows =>
    obtain ⟨_, _, fault⟩ := flows.pending _ stop
    cases fault
  | halted k retired reaches halts =>
    rw [halts.stop, Option.some.injEq] at stop
    exact ⟨k, reaches, stop ▸ halts.result⟩
  | faulted k retired reaches first faults =>
    rw [faults.stop] at stop
    cases stop

end Stopped

/-! ## Images that decode accepts -/

/-- The words that a run from `pc` may fetch are all accepted by decode. -/
def Memory.SupportedFrom (image : Memory) (pc : UInt64) : Prop :=
  ∀ a, WordsApart a pc → (image.entryAt a).fault = none → (image.entryAt a).word.Supported

/-- Only the words inside the image have to be looked at. -/
theorem Memory.supportedFrom_of_forall {image : Memory} {pc : UInt64}
    (h : ∀ i < image.size, WordsApart i.toUInt64 pc → (image.entryAt i.toUInt64).fault = none →
      (image.entryAt i.toUInt64).word.Supported) : image.SupportedFrom pc := by
  intro a aligned inside
  have bound : a.toNat < image.size := of_decide_eq_true (contains_of_entryAt inside)
  have whole : a.toNat.toUInt64 = a := UInt64.ofNat_toNat
  have supported := h a.toNat bound
  rw [whole] at supported
  exact supported aligned inside

/-- Decode rejects a word of such an image only after a store has changed it. -/
theorem Memory.SupportedFrom.changed {image : Memory} {pc : UInt64} (h : image.SupportedFrom pc)
    {e : Fetched} {err : ExecutionError} (aligned : WordsApart e.nextPc pc) (inside : e.fault = none)
    (rejected : e.accept = .error err) : image.entryAt e.pc ≠ e := by
  intro same
  have supported := h e.pc aligned.pc (by rw [same, inside])
  rw [same] at supported
  obtain ⟨i, accepts⟩ := Fetched.accept_of_supported supported
  rw [rejected] at accepts
  cases accepts

open Pipeline (Starts)

variable {image : Memory} {pc : UInt64} {tracing : Bool} {p : Pipeline}

theorem Pipeline.Starts.aligned_pulses (start : Starts image pc p) (n : Nat) :
    (p.pulses n).view.Aligned pc := by
  obtain ⟨tracing₀, rfl⟩ := start.eq_new
  exact (Reachable.fresh image pc tracing₀).aligned_pulses (aligned_new _) n

section Ends

variable {n : Nat} {reason : StopReason}

/-- Ten pulses for every step that the sequential machine takes end the run. -/
theorem ends_of_stopsAt (start : Starts image pc p)
    (code : (Sequential.new (.new image pc tracing)).CodeUntouched)
    (ends : (Sequential.new (.new image pc tracing)).StopsAt n reason) :
    ∃ m ≤ 10 * (n + 1), p.Ends m ∧ ∀ i < m, ¬ p.Ends i := by
  have fresh : p.execute.flushing = false ∧ p.core.statistics.retired = 0 := by
    obtain ⟨_, rfl⟩ := start.eq_new
    exact ⟨rfl, rfl⟩
  have reserved : p.view.Reserved := (refines_pulses start code 0).1
  refine Pipeline.exists_end reserved fresh.1 fun m goes => ?_
  have live : (p.pulses m).core.stop = none := not_not.mp (not_or.mp goes).1
  obtain ⟨reaches, _⟩ := (refines_pulses start code m).2.flowing_of_open (.inl live)
  rw [fresh.2, Nat.zero_add]
  exact Nat.lt_succ_of_le (ends.le_of_reaches reaches)

/-- No pulse fails if no memory of the run holds a word that decode would reject. -/
theorem pulses_succeed (start : Starts image pc p)
    (code : (Sequential.new (.new image pc tracing)).CodeUntouched)
    (ends : (Sequential.new (.new image pc tracing)).StopsAt n reason)
    (supported : ∀ i ≤ n + 1,
      ((Sequential.new (.new image pc tracing)).after i).core.memory.SupportedFrom pc) (m : Nat) :
    (p.pulses m).pulse.2 = none := by
  cases failed : (p.pulses m).pulse.2 with
  | none => rfl
  | some err =>
    obtain ⟨e, rejects⟩ := (Pipeline.pulse_moves (refines_pulses start code m).1).2.1 err failed
    have held : e ∈ (p.pulses (m + 1)).view.fetched :=
      List.mem_append_left _ (Option.mem_toList.mpr rejects.held)
    obtain ⟨i, made, source⟩ := sourced_pulses start code (m + 1) e held
    have performs := ((refines_pulses start code (m + 1)).2.agrees rfl rfl).1
    have bound : i ≤ n + 1 := Nat.le_trans made (ends.le_of_performs rfl performs)
    have aligned := (start.aligned_pulses (m + 1)).fetched e held
    exact absurd source ((supported i bound).changed aligned rejects.inside rejects.rejected)

end Ends

end Legv8
