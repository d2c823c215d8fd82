import Legv8.Proofs.Sequential.Step

/-! # Runs of the sequential machine

A run is told by its states: `s.after n` is the machine after `n` steps. A step is either performed, and
then returns a result, or finds the machine stopped; only steps that let the machine go on lead to further
instructions. Code is untouched if no store of a run hits a word that a later step fetches; then a word
reads the same in the memory of every earlier state. -/
namespace Legv8.Sequential

variable {s : Sequential}

instance : DecidableEq StepResult
  | .ok a, .ok b => decidable_of_iff (a = b) (Except.ok.injEq a b ▸ Iff.rfl)
  | .error a, .error b => decidable_of_iff (a = b) (Except.error.injEq a b ▸ Iff.rfl)
  | .ok _, .error _ => isFalse nofun
  | .error _, .ok _ => isFalse nofun

/-- The machine after `n` steps. -/
def after (s : Sequential) : (n : Nat) → Sequential
  | 0 => s
  | n + 1 => (s.after n).step.1

/-- The first `n` steps let the machine go on. -/
def Reaches (s : Sequential) (n : Nat) : Prop := ∀ i < n, (s.after i).step.2 = .ok none

/-- The first `n` steps are made, none on a stopped machine, and none of them fails. -/
def Performs (s : Sequential) (n : Nat) : Prop :=
  ∀ i < n, (s.after i).core.stop = none ∧ ∃ r, (s.after i).step.2 = .ok r

/-- The run ends with a failed step. -/
def Fails (s : Sequential) (err : ExecutionError) : Prop :=
  ∃ n, s.Reaches n ∧ (s.after n).step.2 = .error err

/-- No store of the run hits a byte of an instruction word that a later step fetches. -/
def CodeUntouched (s : Sequential) : Prop :=
  ∀ i j, i < j → s.Reaches j → ∀ out target alu, (s.after i).Executes out target alu →
    ∀ a ∈ out.storedBytes, a ∉ Memory.span (s.after j).core.pc Word.size

theorem after_add (s : Sequential) (m n : Nat) : s.after (m + n) = (s.after m).after n := by
  induction n with
  | zero => rfl
  | succ n ih => rw [← Nat.add_assoc, after, after, ih]

theorem after_step (s : Sequential) (n : Nat) : s.step.1.after n = s.after (n + 1) := by
  rw [Nat.add_comm, after_add]
  rfl

theorem Reaches.mono {m n : Nat} (h : s.Reaches n) (hm : m ≤ n) : s.Reaches m := fun i hi =>
  h i (Nat.lt_of_lt_of_le hi hm)

theorem reaches_zero (s : Sequential) : s.Reaches 0 := fun _ hi => absurd hi (Nat.not_lt_zero _)

theorem Reaches.succ {n : Nat} (h : s.Reaches n) (hn : (s.after n).step.2 = .ok none) :
    s.Reaches (n + 1) := by
  intro i hi
  rcases Nat.lt_succ_iff_lt_or_eq.mp hi with hlt | rfl
  · exact h i hlt
  · exact hn

theorem Reaches.add {m n : Nat} (hm : s.Reaches m) (hn : (s.after m).Reaches n) :
    s.Reaches (m + n) := by
  induction n with
  | zero => exact hm
  | succ n ih =>
    refine (ih (hn.mono (Nat.le_succ n))).succ ?_
    rw [after_add]
    exact hn n (Nat.lt_succ_self n)

theorem Reaches.of_add {m n : Nat} (h : s.Reaches (m + n)) : (s.after m).Reaches n := by
  intro i hi
  rw [← after_add]
  exact h (m + i) (Nat.add_lt_add_left hi m)

theorem Reaches.cons {n : Nat} (hs : s.step.2 = .ok none) (h : s.step.1.Reaches n) :
    s.Reaches (n + 1) := by
  intro i hi
  cases i with
  | zero => exact hs
  | succ i =>
    rw [← after_step]
    exact h i (Nat.lt_of_succ_lt_succ hi)

theorem Performs.mono {m n : Nat} (h : s.Performs n) (hm : m ≤ n) : s.Performs m := fun i hi =>
  h i (Nat.lt_of_lt_of_le hi hm)

theorem performs_zero (s : Sequential) : s.Performs 0 := fun _ hi => absurd hi (Nat.not_lt_zero _)

theorem Performs.succ {n : Nat} (h : s.Performs n) (live : (s.after n).core.stop = none)
    {r : Option StopReason} (hn : (s.after n).step.2 = .ok r) : s.Performs (n + 1) := by
  intro i hi
  rcases Nat.lt_succ_iff_lt_or_eq.mp hi with hlt | rfl
  · exact h i hlt
  · exact ⟨live, r, hn⟩

theorem Performs.tail {n : Nat} (h : s.Performs (n + 1)) : s.step.1.Performs n := by
  intro i hi
  rw [after_step]
  exact h (i + 1) (Nat.succ_lt_succ hi)

theorem reservations_after (hr : s.core.reservations = []) (n : Nat) :
    (s.after n).core.reservations = [] := by
  induction n with
  | zero => exact hr
  | succ n ih => exact reservations_step ih

/-- If the machine is not stopped after its steps, each of them let it go on. -/
theorem Performs.reaches (hr : s.core.reservations = []) {n : Nat} (h : s.Performs n)
    (live : (s.after n).core.stop = none) : s.Reaches n := by
  intro i hi
  obtain ⟨_, r, result⟩ := h i hi
  have pending : (s.after (i + 1)).core.stop = r := stop_step_of_ok (reservations_after hr i) result
  have next : (s.after (i + 1)).core.stop = none := by
    rcases Nat.lt_or_eq_of_le (Nat.succ_le_of_lt hi) with hlt | heq
    · exact (h (i + 1) hlt).1
    · rw [show i + 1 = n from heq]
      exact live
  rw [result, ← pending, next]

/-- A machine that goes on is not stopped. -/
theorem Reaches.stop (hr : s.core.reservations = []) (live : s.core.stop = none) {n : Nat}
    (h : s.Reaches n) : (s.after n).core.stop = none := by
  cases n with
  | zero => exact live
  | succ n => exact stop_step_of_ok (reservations_after hr n) (h n (Nat.lt_succ_self n))

theorem Reaches.performs (hr : s.core.reservations = []) (live : s.core.stop = none) {n : Nat}
    (h : s.Reaches n) : s.Performs n := fun i hi =>
  ⟨(h.mono (Nat.le_of_lt hi)).stop hr live, none, h i hi⟩

/-- Every step that lets the machine go on retires one instruction. -/
theorem Reaches.retired (hr : s.core.reservations = []) {n : Nat} (h : s.Reaches n) :
    (s.after n).core.statistics.retired = s.core.statistics.retired + n := by
  induction n with
  | zero => rfl
  | succ n ih =>
    have continues := h n (Nat.lt_succ_self n)
    obtain ⟨_, out, target, alu, _, hx, _, _⟩ := executes_of_continues continues
    obtain ⟨op, _, _, _, core⟩ := step_of_continues (reservations_after hr n) continues hx
    rw [after, core, Statistics.retired_retire, retired_began, ih (h.mono (Nat.le_succ n)), Nat.add_assoc]

/-- The run ends with a step that stops the machine, behind `n` steps that let it go on. -/
structure StopsAt (s : Sequential) (n : Nat) (reason : StopReason) : Prop where
  reaches : s.Reaches n
  stops : (s.after n).step.2 = .ok (some reason)

namespace StopsAt

variable {n m : Nat} {reason other : StopReason}

/-- No step behind the last one lets the machine go on. -/
theorem le_of_reaches (h : s.StopsAt n reason) (reaches : s.Reaches m) : m ≤ n := by
  refine Nat.le_of_not_lt fun beyond => ?_
  have stops := h.stops
  rw [reaches n beyond] at stops
  cases stops

theorem stop_after (h : s.StopsAt n reason) (idle : s.core.reservations = []) :
    (s.after (n + 1)).core.stop = some reason :=
  stop_step_of_ok (reservations_after idle n) h.stops

/-- No step is performed behind the last one. -/
theorem le_of_performs (h : s.StopsAt n reason) (idle : s.core.reservations = [])
    (performs : s.Performs m) : m ≤ n + 1 := by
  refine Nat.le_of_not_lt fun beyond => ?_
  have running := (performs (n + 1) beyond).1
  rw [h.stop_after idle] at running
  cases running

theorem unique (h : s.StopsAt n reason) (h' : s.StopsAt m other) : m = n ∧ other = reason := by
  obtain rfl : m = n := Nat.le_antisymm (h.le_of_reaches h'.reaches) (h'.le_of_reaches h.reaches)
  have same := h'.stops
  rw [h.stops] at same
  cases same
  exact ⟨rfl, rfl⟩

end StopsAt

theorem Performs.add {m n : Nat} (hm : s.Performs m) (hn : (s.after m).Performs n) :
    s.Performs (m + n) := by
  induction n with
  | zero => exact hm
  | succ n ih =>
    obtain ⟨live, r, result⟩ := hn n (Nat.lt_succ_self n)
    rw [← after_add] at live result
    exact (ih (hn.mono (Nat.le_succ n))).succ live result

/-! ## Untouched code -/

/-- A run that ends without having stored anything leaves its code untouched. -/
theorem codeUntouched_of_noStore (hr : s.core.reservations = []) {n : Nat}
    (ends : (s.after (n + 1)).core.stop.isSome = true)
    (noStore : ∀ i < n, (Operation.ofWord? (s.after i).entry.word).all (!·.isStore) = true) :
    s.CodeUntouched := by
  intro i j hij reaches out target alu hx a ha
  have inside : i < n := by
    rcases Nat.lt_or_ge i n with hi | hi
    · exact hi
    · have continues := reaches n (Nat.lt_of_le_of_lt hi hij)
      rw [after, stop_step_of_ok (reservations_after hr n) continues] at ends
      cases ends
  have quiet := noStore i inside
  rw [← congrArg InFlight.word hx.toInFlight] at quiet
  unfold Executed.storedBytes at ha
  cases hop : Operation.ofWord? out.word with
  | none => rw [hop] at ha; cases ha
  | some op =>
    rw [hop, Option.all_some, Bool.not_eq_true'] at quiet
    rw [hop] at ha
    simp only [quiet, Bool.false_eq_true, if_false] at ha
    cases ha

/-- The bytes of a word that is still to be fetched do not change. -/
theorem CodeUntouched.byte? (h : s.CodeUntouched) (hr : s.core.reservations = []) {i j : Nat}
    (hij : i ≤ j) (reaches : s.Reaches j) {a : UInt64}
    (ha : a ∈ Memory.span (s.after j).core.pc Word.size) :
    (s.after i).core.memory.byte? a = (s.after j).core.memory.byte? a := by
  have kept : ∀ m ≤ j, (s.after m).core.memory.byte? a = s.core.memory.byte? a := by
    intro m
    induction m with
    | zero => intro _; rfl
    | succ m ih =>
      intro hm
      rw [← ih (Nat.le_of_lt hm)]
      exact byte?_step (reservations_after hr m) fun out target alu hx hs =>
        h m j hm reaches out target alu hx a hs ha
  rw [kept i hij, kept j (Nat.le_refl j)]

theorem CodeUntouched.tail (h : s.CodeUntouched) (hs : s.step.2 = .ok none) :
    s.step.1.CodeUntouched := by
  intro i j hij reaches
  rw [after_step, after_step]
  exact h (i + 1) (j + 1) (Nat.succ_lt_succ hij) (reaches.cons hs)

/-- An instruction can be fetched from the memory of any earlier state. -/
theorem CodeUntouched.entryAt (h : s.CodeUntouched) (hr : s.core.reservations = []) {i j : Nat}
    (hij : i ≤ j) (reaches : s.Reaches j) :
    (s.after i).core.memory.entryAt (s.after j).core.pc = (s.after j).entry :=
  Memory.entryAt_congr fun _ ha => h.byte? hr hij reaches ha

end Legv8.Sequential
