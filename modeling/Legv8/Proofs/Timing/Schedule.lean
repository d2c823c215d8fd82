import Mathlib.Data.Fintype.Basic
import Mathlib.Data.Finset.Lattice.Fold
import Mathlib.Order.Lattice.Nat
import Mathlib.Order.Monotone.Basic

/-! # The schedule of a path

When an instruction comes to a station depends on two things only: on which earlier instructions it waits
for, and where branches are taken. The schedule is computed from these by recursion on the position in the
path. It knows of no machine; that the pipeline keeps to it is shown elsewhere. -/
namespace Legv8

/-- What the timing of a path of executed instructions depends on. -/
structure ExecutedPath where
  /-- Instruction `i` reads the register that instruction `j` writes. -/
  waits : Nat → Nat → Bool
  /-- Instruction `i` takes a branch. -/
  branches : Nat → Bool

namespace ExecutedPath

variable (π : ExecutedPath)

mutual

/-- The pulse in which decode takes instruction `i`: behind a taken branch the front end starts afresh, and
otherwise a fetch takes two pulses and waits for decode to be free. -/
def enters : Nat → Nat
  | 0 => 3
  | i + 1 => if π.branches i then issues i + 4 else max (enters i + 2) (issues i)
termination_by i => 2 * i

/-- The pulse in which instruction `i` is issued: the one behind its entry into decode, or the first in which
all the earlier instructions it waits for have committed. -/
def issues (i : Nat) : Nat :=
  max (enters i + 1) (Finset.univ.sup fun j : Fin i => if π.waits i j then issues j + 6 else 0)
termination_by 2 * i + 1

end

/-- The pulse in which the machine stops if instruction `n` halts it: the one behind the halt's entry into
execution, or the one in which the instruction before it commits. -/
def finish : Nat → Nat
  | 0 => π.issues 0 + 2
  | n + 1 => max (π.issues (n + 1) + 2) (π.issues n + 6)

variable {π} {i j t : Nat}

theorem enters_zero : π.enters 0 = 3 := by
  rw [enters]

theorem enters_succ_of_branches (h : π.branches i = true) : π.enters (i + 1) = π.issues i + 4 := by
  rw [enters, h, if_pos rfl]

theorem enters_succ_of_not_branches (h : π.branches i = false) :
    π.enters (i + 1) = max (π.enters i + 2) (π.issues i) := by
  rw [enters, h, if_neg Bool.false_ne_true]

theorem issues_le_iff :
    π.issues i ≤ t ↔ π.enters i + 1 ≤ t ∧ ∀ j < i, π.waits i j = true → π.issues j + 6 ≤ t := by
  rw [issues, Nat.max_le, Finset.sup_le_iff]
  refine and_congr_right fun _ => ⟨fun h j hj waits => ?_, fun h j _ => ?_⟩
  · have bound := h ⟨j, hj⟩ (Finset.mem_univ _)
    rwa [if_pos waits] at bound
  · split
    · next waits => exact h j j.isLt waits
    · exact Nat.zero_le t

theorem enters_lt_issues (π : ExecutedPath) (i : Nat) : π.enters i < π.issues i :=
  (issues_le_iff.mp (Nat.le_refl _)).1

theorem issues_le_enters_succ (π : ExecutedPath) (i : Nat) : π.issues i ≤ π.enters (i + 1) := by
  cases h : π.branches i with
  | true => rw [enters_succ_of_branches h]; exact Nat.le_add_right _ _
  | false => rw [enters_succ_of_not_branches h]; exact Nat.le_max_right _ _

theorem enters_mono (π : ExecutedPath) : Monotone π.enters :=
  monotone_nat_of_le_succ fun i =>
    Nat.le_trans (Nat.le_of_lt (π.enters_lt_issues i)) (π.issues_le_enters_succ i)

theorem issues_strictMono (π : ExecutedPath) : StrictMono π.issues :=
  strictMono_nat_of_lt_succ fun i =>
    Nat.lt_of_le_of_lt (π.issues_le_enters_succ i) (π.enters_lt_issues (i + 1))

/-- Behind a taken branch nothing enters decode for four pulses. -/
theorem issues_add_four_le (h : π.branches i = true) (later : i < j) :
    π.issues i + 4 ≤ π.enters j :=
  enters_succ_of_branches h ▸ π.enters_mono later

/-- The machine stops once the halt is in execution and all instructions before it have committed. -/
theorem finish_le_iff {n : Nat} :
    π.finish n ≤ t ↔ π.issues n + 2 ≤ t ∧ ∀ i < n, π.issues i + 6 ≤ t := by
  cases n with
  | zero => exact ⟨fun h => ⟨h, fun i hi => absurd hi (Nat.not_lt_zero i)⟩, And.left⟩
  | succ n =>
    rw [finish, Nat.max_le]
    refine and_congr_right fun _ => ⟨fun h i hi => ?_, fun h => h n (Nat.lt_succ_self n)⟩
    exact Nat.le_trans
      (Nat.add_le_add_right (π.issues_strictMono.monotone (Nat.le_of_lt_succ hi)) 6) h

/-! ## What a schedule depends on -/

/-- Two paths agree on their first instructions, up to and with `n`. Whether `n` itself takes a branch does
not matter. -/
structure AgreesTo (π π' : ExecutedPath) (n : Nat) : Prop where
  waits : ∀ i ≤ n, ∀ j < i, π.waits i j = π'.waits i j
  branches : ∀ i < n, π.branches i = π'.branches i

variable {π' : ExecutedPath} {n : Nat}

theorem AgreesTo.schedule (h : π.AgreesTo π' n) (hi : i ≤ n) :
    π.enters i = π'.enters i ∧ π.issues i = π'.issues i := by
  induction i using Nat.strongRecOn with
  | ind i ih =>
    have enters : π.enters i = π'.enters i := by
      cases i with
      | zero => rw [enters_zero, enters_zero]
      | succ i =>
        obtain ⟨enters, issues⟩ := ih i (Nat.lt_succ_self i) (Nat.le_of_succ_le hi)
        have branches := h.branches i hi
        cases taken : π.branches i with
        | true =>
          rw [enters_succ_of_branches taken, enters_succ_of_branches (branches ▸ taken), issues]
        | false =>
          rw [enters_succ_of_not_branches taken, enters_succ_of_not_branches (branches ▸ taken), enters,
            issues]
    refine ⟨enters, eq_of_forall_ge_iff fun t => ?_⟩
    rw [issues_le_iff, issues_le_iff, enters]
    refine and_congr_right fun _ => forall₂_congr fun j hj => ?_
    rw [h.waits i hi j hj, (ih j hj (Nat.le_trans (Nat.le_of_lt hj) hi)).2]

/-- When the machine stops depends on the executed instructions only. -/
theorem AgreesTo.finish (h : π.AgreesTo π' n) : π.finish n = π'.finish n := by
  refine eq_of_forall_ge_iff fun t => ?_
  rw [finish_le_iff, finish_le_iff, (h.schedule (Nat.le_refl n)).2]
  refine and_congr_right fun _ => forall₂_congr fun i hi => ?_
  rw [(h.schedule (Nat.le_of_lt hi)).2]

end ExecutedPath

end Legv8
