import Legv8.Proofs.Alu.Adder
import Legv8.Proofs.Pipeline.Histories

/-! # Where words are fetched

A taken branch goes to its own address plus its offset, which counts words. So all fetches of a run, wrong
paths included, are whole words away from the address at which it starts. -/
namespace Legv8

/-- Two addresses are whole words apart. -/
def WordsApart (a b : UInt64) : Prop := a % 4 = b % 4

instance (a b : UInt64) : Decidable (WordsApart a b) := inferInstanceAs (Decidable (a % 4 = b % 4))

namespace WordsApart

variable {a b : UInt64}

theorem toNat_mod : WordsApart a b ↔ a.toNat % 4 = b.toNat % 4 := by
  unfold WordsApart
  rw [← UInt64.toNat_inj, UInt64.toNat_mod, UInt64.toNat_mod]
  rfl

/-- Adding words keeps the distance to other addresses whole. -/
theorem add (h : WordsApart a b) {offset : UInt64} (words : offset.toNat % 4 = 0) :
    WordsApart (a + offset) b := by
  rw [toNat_mod] at h ⊢
  rw [UInt64.toNat_add]
  omega

theorem next (h : WordsApart a b) : WordsApart (a + 4) b := h.add (by decide)

theorem pc {e : InFlight} (h : WordsApart e.nextPc b) : WordsApart e.pc b := by
  unfold InFlight.pc
  rw [toNat_mod] at h ⊢
  rw [UInt64.toNat_sub]
  have four : (4 : UInt64).toNat = 4 := rfl
  omega

theorem toNat_offset (imm : UInt64) : (imm <<< 2).toNat % 4 = 0 := by
  rw [UInt64.toNat_shiftLeft, show (2 : UInt64).toNat % 64 = 2 from rfl, Nat.shiftLeft_eq]
  omega

end WordsApart

/-- A taken branch goes to its own address plus its offset in words. -/
theorem Alu.execute_target {alu alu' : Alu} {e : Issued} {out : Executed} {target : UInt64}
    (h : alu.execute e = .ok (.forward out (some target), alu')) : target = e.pc + e.imm <<< 2 := by
  have jumps : ∀ unit : Alu, unit.jumpTarget e = e.pc + e.imm <<< 2 := fun unit => unit.add_eq _ _
  cases hop : Operation.ofWord? e.word with
  | none =>
    unfold Alu.execute at h
    rw [hop] at h
    cases h
  | some op =>
    rw [execute_of_ofWord? alu hop, Except.ok.injEq] at h
    have branch : ∀ (unit : Alu) (taken : Bool),
        jump e unit taken = (.forward out (some target), alu') → target = e.pc + e.imm <<< 2 := by
      intro unit taken h
      cases taken with
      | false => cases h
      | true =>
        simp only [jump, if_true, Prod.mk.injEq, Execution.forward.injEq, Option.some.injEq] at h
        rw [← h.1.2, jumps]
    cases op with
    | b => exact branch _ _ h
    | cbz => exact branch _ _ h
    | cbnz => exact branch _ _ h
    | _ => cases h

/-- Whatever may still fetch is whole words away from `pc`. -/
structure View.Aligned (pc : UInt64) (v : View) : Prop where
  next : WordsApart v.core.pc pc
  fetched : ∀ e ∈ v.fetched, WordsApart e.nextPc pc
  issued : ∀ y ∈ v.issued, WordsApart y.nextPc pc

namespace View

variable {pc : UInt64} {v v' : View}

theorem Aligned.move (h : v.Aligned pc) (m : Move v v') : v'.Aligned pc := by
  cases m with
  | pace paces =>
    obtain ⟨_, _, _, rfl⟩ := paces
    exact ⟨h.next, h.fetched, h.issued⟩
  | retire _ _ commit =>
    obtain ⟨_, _, _, rfl⟩ := Core.commit_eq commit
    exact ⟨h.next, h.fetched, h.issued⟩
  | access live _ _ =>
    refine ⟨?_, h.fetched, h.issued⟩
    simp only [Core.settle_eq _ live]
    exact h.next
  | execute _ oldest _ =>
    refine ⟨h.next, h.fetched, fun y hy => h.issued y ?_⟩
    rw [oldest]
    exact List.mem_cons_of_mem _ hy
  | @redirect y _ _ _ _ _ _ oldest result =>
    refine ⟨?_, fun _ he => (by cases he), fun _ hy => (by cases hy)⟩
    have source : WordsApart y.nextPc pc := h.issued y (by rw [oldest]; exact List.mem_cons_self)
    have target := source.pc.add (WordsApart.toNat_offset y.imm)
    rw [← Alu.execute_target result] at target
    exact target
  | halt _ _ _ _ _ => exact ⟨h.next, fun _ he => (by cases he), fun _ hy => (by cases hy)⟩
  | @issue e rest i _ oldest _ _ _ =>
    have held := h.fetched
    rw [oldest] at held
    refine ⟨?_, fun f hf => held f (List.mem_cons_of_mem _ hf), fun y hy => ?_⟩
    · simp only [Core.reserve_eq]
      exact h.next
    · rcases List.mem_append.mp hy with hy | hy
      · exact h.issued y hy
      · rw [List.mem_singleton.mp hy]
        exact held e List.mem_cons_self
  | fault _ _ oldest _ =>
    refine ⟨h.next, fun e he => h.fetched e ?_, h.issued⟩
    rw [oldest]
    exact List.mem_cons_of_mem _ he
  | fetch _ result =>
    subst result
    refine ⟨h.next.next, fun e he => ?_, h.issued⟩
    rcases List.mem_append.mp he with he | he
    · exact h.fetched e he
    · rw [List.mem_singleton.mp he]
      exact h.next.next

theorem Aligned.moves (h : v.Aligned pc) (m : Moves v v') : v'.Aligned pc := by
  induction m with
  | refl => exact h
  | tail _ step ih => exact ih.move step

end View

namespace Pipeline

variable {pc : UInt64} {p : Pipeline}

/-- An empty pipeline is aligned with its program counter. -/
theorem aligned_new (core : Core) : (Pipeline.new core).view.Aligned core.pc where
  next := rfl
  fetched _ he := by cases he
  issued _ hy := by cases hy

theorem Reachable.aligned_pulses (h : p.Reachable) (aligned : p.view.Aligned pc) (n : Nat) :
    (p.pulses n).view.Aligned pc := by
  induction n with
  | zero => exact aligned
  | succ n ih => exact ih.moves (pulse_moves (h.pulses n).reserved).1

end Pipeline

end Legv8
