import Legv8.Proofs.Sequential.Run
import Legv8.Proofs.Timing.Schedule

/-! # The path of a sequential machine

The path that a machine executes is read off its run: the word at every step, and whether execution takes a
branch there. Which registers an instruction waits for is a matter of the words alone, so that operand values
have a say in the path through the outcomes of branches only. -/
namespace Legv8

/-- The instruction that a word encodes reads the register `r`. -/
def Word.reads (w : Word) (r : Nat) : Bool :=
  (Instruction.decode? w).any fun i => i.sources.1 == some r || i.sources.2 == some r

theorem Word.reads_iff {w : Word} {i : Instruction} (h : Instruction.decode? w = some i) {r : Nat} :
    w.reads r = true ↔ i.sources.1 = some r ∨ i.sources.2 = some r := by
  simp only [reads, h, Option.any_some, Bool.or_eq_true, beq_iff_eq]

namespace Sequential

/-- The next step takes a branch. -/
def takesBranch (s : Sequential) : Bool :=
  match s.entry.issue s.core.registers with
  | .error _ => false
  | .ok y =>
    match s.alu.execute y with
    | .ok (.forward _ target, _) => target.isSome
    | _ => false

/-- The path that the machine executes from here. -/
def path (s : Sequential) : ExecutedPath where
  waits i j := (s.after j).entry.word.dest?.any (s.after i).entry.word.reads
  branches i := (s.after i).takesBranch

theorem waits_path (s : Sequential) (i j : Nat) :
    s.path.waits i j = (s.after j).entry.word.dest?.any (s.after i).entry.word.reads := by
  rw [path]

theorem branches_path (s : Sequential) (i : Nat) : s.path.branches i = (s.after i).takesBranch := by
  rw [path]

variable {s t : Sequential} {n : Nat}

/-- The path depends on the words that are executed and on the outcomes of branches. -/
theorem path_agreesTo (words : ∀ i ≤ n, (t.after i).entry.word = (s.after i).entry.word)
    (branches : ∀ i < n, (t.after i).takesBranch = (s.after i).takesBranch) :
    t.path.AgreesTo s.path n where
  waits i hi j hj := by
    rw [waits_path, waits_path, words i hi, words j (Nat.le_trans (Nat.le_of_lt hj) hi)]
  branches i hi := by rw [branches_path, branches_path, branches i hi]

theorem Executes.takesBranch {out : Executed} {target : Option UInt64} {alu : Alu}
    (h : s.Executes out target alu) : s.takesBranch = target.isSome := by
  obtain ⟨y, issues, result⟩ := h
  unfold Sequential.takesBranch
  simp only [issues.issue, result]

/-- A step that goes on without a branch falls through. -/
theorem pc_of_not_takesBranch (idle : s.core.reservations = []) (continues : s.step.2 = .ok none)
    (straight : s.takesBranch = false) : s.step.1.core.pc = s.core.pc + 4 := by
  obtain ⟨_, out, target, alu, _, executes, _, _⟩ := executes_of_continues continues
  obtain ⟨_, _, _, _, core⟩ := step_of_continues idle continues executes
  rw [executes.takesBranch, Option.isSome_eq_false_iff, Option.isNone_iff_eq_none] at straight
  rw [core, straight, Option.getD_none, congrArg InFlight.nextPc executes.toInFlight, nextPc_entry]

/-! ## Runs that halt -/

section Halt

variable {addr : UInt64} {i : Nat} (halts : s.StopsAt n (.halted addr)) (live : s.core.stop = none)
  (idle : s.core.reservations = [])
include halts

theorem StopsAt.executes (hi : i < n) :
    ∃ out target alu, (s.after i).Executes out target alu ∧ s.path.branches i = target.isSome := by
  obtain ⟨_, out, target, alu, _, executes, _, _⟩ := executes_of_continues (halts.reaches i hi)
  exact ⟨out, target, alu, executes, (s.branches_path i).trans executes.takesBranch⟩

include live idle

/-- Every instruction of the run is issued, the halt included. -/
theorem StopsAt.issues (hi : i ≤ n) : ∃ y, (s.after i).Issues y := by
  rcases Nat.lt_or_eq_of_le hi with early | rfl
  · obtain ⟨out, target, alu, ⟨y, issues, _⟩, _⟩ := halts.executes early
    exact ⟨y, issues⟩
  · obtain ⟨y, alu, issues, _⟩ :=
      halts_of_step (halts.reaches.stop idle live) (reservations_after idle i) halts.stops
    exact ⟨y, issues⟩

omit live in
theorem StopsAt.falls_through (hi : i < n) (straight : s.path.branches i = false) :
    (s.after (i + 1)).core.pc = (s.after i).core.pc + 4 :=
  pc_of_not_takesBranch (reservations_after idle i) (halts.reaches i hi)
    ((s.branches_path i).symm.trans straight)

end Halt

end Sequential

end Legv8
