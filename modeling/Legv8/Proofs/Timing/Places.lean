import Legv8.Proofs.Pipeline.Stations
import Legv8.Proofs.Refinement.Endings
import Legv8.Proofs.Refinement.Occupants
import Legv8.Proofs.Timing.ExecutedPath

/-! # Instructions of a halting run in their places

On the way to a halt the place of an instruction in the pipeline tells its position in the path, and its
position tells what becomes of it: whether execution forwards it, takes its branch or halts, and which
earlier instructions decode lets it wait for. -/
namespace Legv8

theorem Pipeline.within_four (p : Pipeline) :
    p.core.statistics.retired + p.view.front.length = p.within 4 := by
  rw [View.length_front]
  unfold within stations view
  cases p.writeback <;> cases p.latches.memWb <;> cases p.access.pending <;> cases p.latches.exMem <;> rfl

theorem Pipeline.within_six (p : Pipeline) :
    p.core.statistics.retired + p.view.words.length = p.within 6 := by
  rw [View.length_words, ← Nat.add_assoc, within_four, within_idEx, within_execute, Nat.add_assoc]
  congr 1
  unfold view
  cases p.execute.pending <;> cases p.latches.idEx <;> rfl

/-- A view on the way of the machine to a halt behind `n` instructions. -/
structure HeadsFor (s : Sequential) (n : Nat) (addr : UInt64) (v : View) : Prop where
  live : s.core.stop = none
  idle : s.core.reservations = []
  halts : s.StopsAt n (.halted addr)
  reserved : v.Reserved
  refines : Refines s v

namespace HeadsFor

variable {s : Sequential} {n : Nat} {addr : UInt64} {v v' : View}

theorem moves (h : HeadsFor s n addr v) (m : View.Moves v v') : HeadsFor s n addr v' :=
  ⟨h.live, h.idle, h.halts, h.reserved.moves m, h.refines.moves h.reserved m⟩

/-- The pipeline runs as long as the halt has not retired. -/
theorem stop (h : HeadsFor s n addr v) (bound : v.core.statistics.retired ≤ n) : v.core.stop = none := by
  cases stop : v.core.stop with
  | none => rfl
  | some found =>
    obtain rfl := h.refines.stop_eq h.halts h.live h.idle stop
    cases h.refines with
    | flowing k retired reaches flows =>
      obtain ⟨_, _, fault⟩ := flows.pending _ stop
      cases fault
    | halted k retired reaches halts =>
      obtain ⟨rfl, _⟩ := h.halts.unique ⟨reaches, halts.result⟩
      rw [retired] at bound
      exact absurd bound (Nat.not_succ_le_self _)
    | faulted k retired reaches first faults =>
      rw [faults.stop] at stop
      cases stop

theorem running {p : Pipeline} (h : HeadsFor s n addr p.view) {k : Nat} (bound : p.within k ≤ n) :
    p.core.stop = none :=
  h.stop (Nat.le_trans (p.within_mono (Nat.zero_le k)) bound)

theorem running_atDecode {p q : Pipeline} (h : HeadsFor s n addr p.view) (comes : p.ComesToDecode q) {k : Nat}
    (bound : q.within k ≤ n) : q.core.stop = none :=
  (h.moves (comes.moves h.reserved).1).running bound

theorem flowing (h : HeadsFor s n addr v) (bound : v.core.statistics.retired ≤ n) :
    Flowing (s.after v.core.statistics.retired) v :=
  (h.refines.flowing_of_open (.inl (h.stop bound))).2

/-- The oldest issued instruction is that of the step behind all that have been executed. -/
theorem issued (h : HeadsFor s n addr v) {m : Nat} (place : v.core.statistics.retired + v.front.length = m)
    (bound : m ≤ n) {y : Issued} {rest : List Issued} (oldest : v.issued = y :: rest) :
    (s.after m).Issues { y with reserved := false } ∧
      (s.after m).alu.execute { y with reserved := false } = v.alu.execute y := by
  have flows := h.flowing (by omega)
  have reaches := h.halts.reaches.mono bound
  rw [← place] at reaches
  have here := flows.executes_issued oldest reaches.of_add
  rwa [← Sequential.after_add, place] at here

/-- An instruction before the halt is forwarded, with a target if it takes a branch. -/
theorem forwards (h : HeadsFor s n addr v) {m : Nat} (place : v.core.statistics.retired + v.front.length = m)
    (early : m < n) {y : Issued} {rest : List Issued} (oldest : v.issued = y :: rest) :
    ∃ out target alu, v.alu.execute y = .ok (.forward out target, alu) ∧
      s.path.branches m = target.isSome := by
  obtain ⟨issues, result⟩ := h.issued place (Nat.le_of_lt early) oldest
  obtain ⟨out, target, alu, ⟨z, issues', forwarded⟩, branches⟩ := h.halts.executes early
  rw [← issues.unique issues', result] at forwarded
  exact ⟨out, target, alu, forwarded, branches⟩

/-- The halt halts. -/
theorem halted (h : HeadsFor s n addr v) (place : v.core.statistics.retired + v.front.length = n)
    {y : Issued} {rest : List Issued} (oldest : v.issued = y :: rest) :
    ∃ alu, v.alu.execute y = .ok (.halt, alu) := by
  obtain ⟨issues, result⟩ := h.issued place (Nat.le_refl n) oldest
  have live := h.halts.reaches.stop h.idle h.live
  obtain ⟨z, alu, issues', halt⟩ :=
    Sequential.halts_of_step live (Sequential.reservations_after h.idle n) h.halts.stops
  rw [← issues.unique issues', result] at halt
  exact ⟨alu, halt⟩

section Decode

variable (h : HeadsFor s n addr v) {c : Nat} (place : v.core.statistics.retired + v.words.length = c)
  (bound : c ≤ n)
  (straight : ∀ j < c, v.core.statistics.retired + v.front.length ≤ j → s.path.branches j = false)
include h place bound straight

theorem straight_after {j : Nat} (hj : j < v.words.length) (waiting : v.front.length ≤ j) :
    ((s.after v.core.statistics.retired).after (j + 1)).core.pc =
      ((s.after v.core.statistics.retired).after j).core.pc + 4 := by
  have early : v.core.statistics.retired + j < c := by omega
  rw [← Sequential.after_add, ← Sequential.after_add]
  exact h.halts.falls_through h.idle (Nat.lt_of_lt_of_le early bound)
    (straight _ early (Nat.add_le_add_left waiting _))

/-- What is reserved are the destinations of the instructions that have not retired. -/
theorem mem_reservations_iff {r : Nat} : r ∈ v.core.reservations ↔
    ∃ j < c, v.core.statistics.retired ≤ j ∧ (s.after j).entry.word.dest? = some r := by
  have flows := h.flowing (by omega)
  have word : ∀ i (hi : i < v.words.length),
      v.words[i] = (s.after (v.core.statistics.retired + i)).entry.word := by
    intro i hi
    have reaches : s.Reaches (v.core.statistics.retired + i) := h.halts.reaches.mono (by omega)
    rw [Sequential.after_add]
    exact flows.word_eq hi reaches.of_add fun j hj =>
      straight_after h place bound straight (Nat.lt_trans hj hi)
  rw [h.reserved.queue, Word.destinations, List.mem_flatMap]
  constructor
  · rintro ⟨w, hw, writes⟩
    obtain ⟨i, hi, rfl⟩ := List.mem_iff_getElem.mp hw
    rw [word i hi, Option.mem_toList] at writes
    exact ⟨_, by omega, Nat.le_add_right _ i, writes⟩
  · rintro ⟨j, hj, late, writes⟩
    have hi : j - v.core.statistics.retired < v.words.length := by omega
    refine ⟨_, List.getElem_mem hi, ?_⟩
    rw [word _ hi, Nat.add_sub_of_le late, Option.mem_toList]
    exact writes

/-- The oldest instruction that has only been fetched is that of the step behind all words past decode.
Decode accepts it, and issues it if the instructions it waits for have retired. -/
theorem decoded {e : Fetched} {rest : List Fetched} (oldest : v.fetched = e :: rest) :
    ∃ i, e.fault = none ∧ e.accept = .ok i ∧
      (i.pendingSource? v.core.reservations = none ↔
        ∀ j < c, s.path.waits c j = true → j < v.core.statistics.retired) := by
  have flows := h.flowing (by omega)
  have reaches := h.halts.reaches.mono bound
  rw [← place] at reaches
  have entry := flows.entry_eq oldest reaches.of_add fun j =>
    straight_after h place bound straight
  rw [← Sequential.after_add, place] at entry
  obtain ⟨y, issues⟩ := h.halts.issues h.live h.idle bound
  have inside := issues.inside
  obtain ⟨i, accept, _⟩ := Fetched.issue_eq_ok_iff.mp issues.issue
  have waits : ∀ j, s.path.waits c j = true ↔ ∃ r, (s.after j).entry.word.dest? = some r ∧
      (i.sources.1 = some r ∨ i.sources.2 = some r) := by
    intro j
    rw [Sequential.waits_path, Option.any_eq_true]
    exact exists_congr fun r => and_congr_right fun _ =>
      Word.reads_iff (Fetched.accept_eq_ok_iff.mp accept).1
  rw [entry] at inside accept
  refine ⟨i, inside, accept, ?_⟩
  simp only [Instruction.pendingSource?_eq_none_iff, mem_reservations_iff h place bound straight, waits]
  constructor
  · rintro free j hj ⟨r, writes, reads⟩
    exact Nat.lt_of_not_le fun late => free r reads ⟨j, hj, late, writes⟩
  · rintro free r reads ⟨j, hj, late, writes⟩
    exact absurd (free j hj ⟨r, writes, reads⟩) (Nat.not_lt.mpr late)

end Decode

end HeadsFor

end Legv8
