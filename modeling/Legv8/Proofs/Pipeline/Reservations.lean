import Legv8.Proofs.Pipeline.View
import Legv8.Proofs.Sequential.Step

/-! # Reservations follow the instructions in flight

The reserved registers are the destinations of the instructions past decode, in their order. Every move
keeps this: issue adds at the young end what it reserves, a commit releases at the old end what its own
instruction had reserved, and a discarded instruction is the youngest one and takes its own reservation
back. -/
namespace Legv8

/-- The registers that instructions with these words commit to. -/
def Word.destinations (words : List Word) : List Nat := words.flatMap fun w => w.dest?.toList

theorem Word.destinations_append (words more : List Word) :
    destinations (words ++ more) = destinations words ++ destinations more := List.flatMap_append

theorem Word.destinations_cons (w : Word) (rest : List Word) :
    destinations (w :: rest) = w.dest?.toList ++ destinations rest := List.flatMap_cons

theorem Word.destinations_singleton (w : Word) : destinations [w] = w.dest?.toList := by
  rw [destinations, List.flatMap_singleton]

namespace View

/-- Instructions past decode are supported, and what is reserved is what they will write. -/
structure Reserved (v : View) : Prop where
  queue : v.core.reservations = Word.destinations v.words
  supported : ∀ w ∈ v.words, w.Supported
  marked : ∀ y ∈ v.issued, y.reserved = y.word.dest?.isSome

variable {v v' : View}

/-- The zero register is never reserved. -/
theorem Reserved.zero_notMem (h : v.Reserved) : Register.zero ∉ v.core.reservations := by
  rw [h.queue]
  intro hm
  obtain ⟨w, hw, hd⟩ := List.mem_flatMap.mp hm
  exact (h.supported w hw).dest?_ne_zero (Option.mem_toList.mp hd)

/-- Reservations depend on the words past decode only. -/
theorem Reserved.transfer (h : v.Reserved) (hq : v'.core.reservations = v.core.reservations)
    (hw : v'.words = v.words) (hi : ∀ y ∈ v'.issued, y ∈ v.issued) : v'.Reserved where
  queue := by rw [hq, hw, h.queue]
  supported := by rw [hw]; exact h.supported
  marked y hy := h.marked y (hi y hy)

end View

/-- Discarding the youngest instruction past decode takes its reservation back. -/
theorem Core.reservations_discard {core : Core} {newest : Option Issued} {older : List Nat} (held : Nat)
    (hq : core.reservations = older ++ Word.destinations (newest.toList.map (·.word)))
    (hm : ∀ z ∈ newest, z.reserved = z.word.dest?.isSome) :
    (core.discard newest held).reservations = older := by
  unfold discard
  cases newest with
  | none =>
    rw [Option.toList_none, List.map_nil] at hq
    exact hq.trans (List.append_nil older)
  | some z =>
    rw [Option.toList_some, List.map_singleton, Word.destinations_singleton] at hq
    simp only [Option.any_some, hm z rfl, hq]
    cases z.word.dest? with
    | none => exact List.append_nil older
    | some r => exact List.dropLast_concat

namespace View

variable {v v' : View}

theorem words_of_accessed {w : Accessed} {rest : List Accessed} (oldest : v.accessed = w :: rest) :
    v.words = w.word :: { v with accessed := rest }.words := by
  simp only [View.words, oldest, List.map_cons, List.cons_append]

/-- The oldest instruction releases what it had reserved itself. -/
theorem Reserved.commit (h : v.Reserved) {w : Accessed} {rest : List Accessed}
    (oldest : v.accessed = w :: rest) : ∃ op, Operation.ofWord? w.word = some op ∧
      v.core.commit w =
        ({ v.core with
            statistics := v.core.statistics.retire op
            reservations := Word.destinations { v with accessed := rest }.words
            registers := v.core.registers.put w.word.dest? w.value }, .ok w.word.dest?) := by
  have words := words_of_accessed oldest
  have queue := h.queue
  rw [words, Word.destinations_cons] at queue
  obtain ⟨i, hi, _⟩ := h.supported w.word (by rw [words]; exact List.mem_cons_self)
  have hop := (Instruction.decode?_eq_some hi).1
  exact ⟨i.op, hop, Core.commit_of_reserved hop queue⟩

/-- Every instruction past decode can be executed. -/
theorem Reserved.execute (h : v.Reserved) {y : Issued} (hy : y ∈ v.issued) (alu : Alu) :
    ∃ op, Operation.ofWord? y.word = some op ∧ alu.execute y = .ok (alu.perform op y) := by
  have mem : y.word ∈ v.words :=
    List.mem_append_right _ (List.mem_map.mpr ⟨y, hy, rfl⟩)
  obtain ⟨i, hi, _⟩ := h.supported y.word mem
  have hop := (Instruction.decode?_eq_some hi).1
  exact ⟨i.op, hop, Alu.execute_of_ofWord? alu hop⟩

/-- With the instructions before the oldest issued one, and it, gone, only the newest is left. -/
theorem Reserved.discard (h : v.Reserved) {y : Issued} {newest : Option Issued}
    (oldest : v.issued = y :: newest.toList) {core : Core} (held : Nat)
    (hq : core.reservations = v.core.reservations) :
    (core.discard newest held).reservations =
      Word.destinations { v with issued := [y] }.words := by
  apply Core.reservations_discard
  · rw [hq, h.queue, ← Word.destinations_append]
    simp only [words, oldest, List.map_cons, List.map_nil, List.append_assoc, List.cons_append,
      List.nil_append]
  · intro z hz
    apply h.marked
    rw [oldest]
    exact List.mem_cons_of_mem _ (Option.mem_toList.mpr hz)

/-- Every move keeps the reservations in step with the instructions past decode. -/
theorem Reserved.move (h : v.Reserved) (m : Move v v') : v'.Reserved := by
  cases m with
  | pace paces =>
    obtain ⟨_, _, _, rfl⟩ := paces
    exact h.transfer rfl rfl fun _ hy => hy
  | @retire w rest core written live oldest commit =>
    obtain ⟨op, _, done⟩ := h.commit oldest
    rw [done, Prod.mk.injEq] at commit
    obtain ⟨rfl, _⟩ := commit
    refine ⟨by simp only [words], fun u hu => h.supported u ?_, h.marked⟩
    simp only [words, oldest, List.map_cons, List.cons_append]
    exact List.mem_cons_of_mem _ hu
  | @access x rest bus access live oldest result =>
    have word : access.out.word = x.word := by
      rw [← result]
      exact congrArg InFlight.word (x.access_out bus v.core.memory)
    refine h.transfer (by rw [Core.settle_eq _ live]) ?_ fun _ hy => hy
    simp only [words, oldest, List.map_append, List.map_cons, List.map_nil, word, List.append_assoc,
      List.cons_append, List.nil_append]
  | @execute y rest out alu _ oldest result =>
    have word : out.word = y.word := congrArg InFlight.word (Alu.execute_forward result).1
    refine h.transfer rfl ?_ fun z hz => ?_
    · simp only [words, oldest, List.map_append, List.map_cons, List.map_nil, word, List.append_assoc,
        List.cons_append, List.nil_append]
    · rw [oldest]
      exact List.mem_cons_of_mem _ hz
  | @redirect y newest out target alu held _ oldest result =>
    have word : out.word = y.word := congrArg InFlight.word (Alu.execute_forward result).1
    have kept : { v with executed := v.executed ++ [out], issued := [] }.words =
        { v with issued := [y] }.words := by
      simp only [words, List.map_append, List.map_cons, List.map_nil, word, List.append_assoc,
        List.append_nil]
    refine ⟨?_, fun u hu => h.supported u ?_, fun z hz => by cases hz⟩
    · exact (h.discard oldest held rfl).trans (congrArg Word.destinations kept.symm)
    · replace hu : u ∈ { v with issued := [y] }.words := by rw [← kept]; exact hu
      simp only [words, oldest, List.map_cons, List.map_nil, List.mem_append] at hu ⊢
      exact hu.imp_right fun hu => by rw [List.mem_singleton.mp hu]; exact List.mem_cons_self
  | @halt y newest alu held _ alone oldest result =>
    have hop : Operation.ofWord? y.word = some .hlt := (Alu.execute_halt result).1
    have idle : y.word.dest? = none := Word.dest?_of_ofWord? hop
    obtain ⟨noneAccessed, noneExecuted⟩ := alone
    refine ⟨(h.discard oldest held rfl).trans ?_, fun u hu => ?_, fun z hz => by cases hz⟩
    · simp only [words, noneAccessed, noneExecuted, List.map_nil, List.map_cons, List.nil_append,
        Word.destinations_singleton, idle, Option.toList_none]
      rfl
    · simp only [words, noneAccessed, noneExecuted] at hu
      cases hu
  | @issue e rest i _ oldest _ accept ready =>
    have dest : i.dest? = e.word.dest? :=
      Instruction.dest?_of_decode? (Fetched.accept_eq_ok_iff.mp accept).1
    refine ⟨?_, fun u hu => ?_, fun z hz => ?_⟩
    · simp only [Core.reserve_eq, h.queue, words, List.map_append, List.map_cons, List.map_nil,
        ← List.append_assoc, Word.destinations_append, Word.destinations_singleton, dest]
      rfl
    · simp only [words, List.map_append, List.map_cons, List.map_nil, ← List.append_assoc] at hu
      rcases List.mem_append.mp hu with hu | hu
      · exact h.supported u hu
      · rw [List.mem_singleton.mp hu]
        exact Fetched.supported_of_accept accept
    · rcases List.mem_append.mp hz with hz | hz
      · exact h.marked z hz
      · simp only [List.mem_singleton.mp hz, dest, Fetched.toInFlight_operands]
  | fault _ _ _ _ => exact h.transfer rfl rfl fun _ hy => hy
  | fetch _ _ => exact h.transfer rfl rfl fun _ hy => hy

theorem Reserved.moves (h : v.Reserved) (m : Moves v v') : v'.Reserved := by
  induction m with
  | refl => exact h
  | tail _ step ih => exact ih.move step

/-- No move takes back a retirement. -/
theorem Move.retired_le (m : Move v v') : v.core.statistics.retired ≤ v'.core.statistics.retired := by
  cases m with
  | pace paces =>
    obtain ⟨_, _, _, rfl⟩ := paces
    exact Nat.le_refl _
  | retire _ _ commit =>
    rw [Core.retired_commit commit]
    exact Nat.le_succ _
  | access live _ _ =>
    exact Nat.le_of_eq (congrArg (·.statistics.retired) (Core.settle_eq _ live).symm)
  | execute _ _ _ => exact Nat.le_refl _
  | redirect _ _ _ _ => exact Nat.le_refl _
  | @halt y newest alu held _ _ _ _ =>
    have counted := Statistics.retired_retire (v.core.discard newest held).statistics .hlt
    exact Nat.le_trans (Nat.le_succ _) (Nat.le_of_eq counted.symm)
  | issue _ _ _ _ _ =>
    exact Nat.le_of_eq (congrArg (·.statistics.retired) (Core.reserve_eq _ _).symm)
  | fault _ _ _ _ => exact Nat.le_refl _
  | fetch _ _ => exact Nat.le_refl _

theorem retired_le_of_moves (m : Moves v v') :
    v.core.statistics.retired ≤ v'.core.statistics.retired := by
  induction m with
  | refl => exact Nat.le_refl _
  | tail _ step ih => exact Nat.le_trans ih step.retired_le

end View

end Legv8
