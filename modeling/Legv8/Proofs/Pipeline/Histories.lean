import Legv8.Proofs.Pipeline.Pulse

/-! # Reservations in every reachable state

A pipeline is driven by pulses, which may fail, by flushes from outside, and by resets of the machine and
of its stop request. Whatever their order, the reserved registers are the destinations of the instructions
past decode. So a commit never finds the queue empty and never writes a foreign register, and execute and
writeback never meet a word that they do not know. -/
namespace Legv8.Pipeline

variable {p : Pipeline}

/-- The pipeline after `n` pulses. -/
def pulses (p : Pipeline) : (n : Nat) → Pipeline
  | 0 => p
  | n + 1 => (p.pulses n).pulse.1

theorem pulses_pulse (p : Pipeline) (n : Nat) : p.pulse.1.pulses n = p.pulses (n + 1) := by
  induction n with
  | zero => rfl
  | succ n ih => rw [pulses, ih]; rfl

theorem pulses_add (p : Pipeline) (m n : Nat) : p.pulses (m + n) = (p.pulses m).pulses n := by
  induction n with
  | zero => rfl
  | succ n ih => rw [← Nat.add_assoc, pulses, pulses, ih]

/-- The states that a history of operations leads to. -/
inductive Reachable : Pipeline → Prop where
  | fresh (memory : Memory) (pc : UInt64) (tracing : Bool) : Reachable (.new (.new memory pc tracing))
  | pulse {p : Pipeline} (h : Reachable p) : Reachable p.pulse.1
  | flush {p : Pipeline} (h : Reachable p) (target : UInt64) : Reachable (p.flush target)
  | reset {p : Pipeline} (h : Reachable p) : Reachable p.reset
  | clearStop {p : Pipeline} (h : Reachable p) : Reachable p.clearStop

theorem Reachable.pulses (h : p.Reachable) (n : Nat) : (p.pulses n).Reachable := by
  induction n with
  | zero => exact h
  | succ n ih => exact ih.pulse

/-- The words of the instructions past decode, oldest first. -/
def pastDecode (p : Pipeline) : List Word :=
  p.writeback.toList.map (·.word) ++ p.latches.memWb.toList.map (·.word) ++
    p.access.pending.toList.map (·.word) ++ p.latches.exMem.toList.map (·.word) ++
    p.execute.pending.toList.map (·.word) ++ p.latches.idEx.toList.map (·.word)

theorem words_view (p : Pipeline) : p.view.words = p.pastDecode := by
  simp only [View.words, view, pastDecode, List.map_append, List.append_assoc]

theorem reserved_new {core : Core} (h : core.reservations = []) : (Pipeline.new core).view.Reserved where
  queue := h
  supported _ hw := by cases hw
  marked _ hy := by cases hy

theorem reserved_flush (h : p.view.Reserved) (target : UInt64) : (p.flush target).view.Reserved := by
  obtain ⟨held, flushed⟩ := p.view_flush target
  have split : p.view.words = { p.view with issued := p.execute.pending.toList }.words ++
      p.latches.idEx.toList.map (·.word) := by
    simp only [View.words, view, List.map_append, List.append_assoc]
  have newest : ∀ z ∈ p.latches.idEx, z ∈ p.view.issued := fun z hz =>
    List.mem_append_right _ (Option.mem_toList.mpr hz)
  have queue := h.queue
  rw [split, Word.destinations_append] at queue
  rw [flushed]
  refine ⟨Core.reservations_discard held queue fun z hz => h.marked z (newest z hz),
    fun w hw => h.supported w ?_, fun y hy => h.marked y ?_⟩
  · rw [split]
    exact List.mem_append_left _ hw
  · exact List.mem_append_left _ hy

theorem Reachable.reserved (h : p.Reachable) : p.view.Reserved := by
  induction h with
  | fresh memory pc tracing => exact reserved_new rfl
  | pulse _ ih => exact ih.moves (pulse_moves ih).1
  | flush _ target ih => exact reserved_flush ih target
  | reset _ _ => exact reserved_new rfl
  | clearStop _ ih => exact ih.transfer rfl rfl fun _ hy => hy

/-- The queue holds the destinations of the instructions past decode. -/
theorem Reachable.queue (h : p.Reachable) : p.core.reservations = Word.destinations p.pastDecode := by
  rw [← words_view]
  exact h.reserved.queue

/-- The instruction in writeback releases its own reservation and writes its own register. -/
theorem Reachable.retires (h : p.Reachable) {w : Accessed}
    (hw : p.writeback = some w) :
    ∃ op q, Operation.ofWord? w.word = some op ∧ p.countCycle.writebackPhase = .next q ∧
      p.core.reservations = (if op.writesRegister then [w.word.rd] else []) ++ q.core.reservations ∧
      q.core.registers =
        if op.writesRegister then p.core.registers.write w.word.rd w.value else p.core.registers := by
  have oldest := accessed_of_writeback hw
  obtain ⟨op, hop, _⟩ := h.reserved.commit oldest
  have dest := Word.dest?_of_ofWord? hop
  have queue : p.countCycle.core.reservations = _ := h.reserved.queue
  rw [View.words_of_accessed oldest, Word.destinations_cons] at queue
  generalize Word.destinations _ = rest at queue
  have commit := Core.commit_of_reserved hop queue
  have held : p.countCycle.writeback = some w := hw
  refine ⟨op, _, hop, by unfold writebackPhase completeWriteback; simp only [held, commit]; rfl, ?_, ?_⟩
  · rw [core_takeWriteback]
    refine queue.trans ?_
    rw [dest]
    cases op.writesRegister <;> rfl
  · rw [core_takeWriteback, dest]
    cases op.writesRegister <;> rfl

/-- What a reachable pipeline's reservations are, and what that excludes: the zero register is never
reserved, a pulse fails at decode only, and an instruction that retires writes the register that its own
word names, which is the one that its commit releases. -/
theorem reservations_of_reachable (h : p.Reachable) :
    p.core.reservations = Word.destinations p.pastDecode ∧
      Register.zero ∉ p.core.reservations ∧
      (∀ pc word, p.pulse.2 ≠ some (.nothingReserved pc word)) ∧
      (∀ stage opcode word pc, p.pulse.2 = some (.unknownOpcode stage opcode word pc) →
        stage = .decode) ∧
      ∀ w, p.writeback = some w →
        ∃ op q, Operation.ofWord? w.word = some op ∧ p.countCycle.writebackPhase = .next q ∧
          p.core.reservations = (if op.writesRegister then [w.word.rd] else []) ++ q.core.reservations ∧
          q.core.registers =
            if op.writesRegister then p.core.registers.write w.word.rd w.value else p.core.registers := by
  refine ⟨h.queue, h.reserved.zero_notMem, ?_, ?_, fun w hw => h.retires hw⟩
  · intro pc word hp
    obtain ⟨e, _, _, rejected, _⟩ := (pulse_moves h.reserved).2.1 _ hp
    rcases Fetched.eq_of_accept_error rejected with heq | heq <;> cases heq
  · intro stage opcode word pc hp
    obtain ⟨e, _, _, rejected, _⟩ := (pulse_moves h.reserved).2.1 _ hp
    rcases Fetched.eq_of_accept_error rejected with heq | heq <;> cases heq
    rfl

/-- Two moves to `X1` and `X2` before a halt. -/
def twoMoves : Memory := .ofWords [0xD2800021, 0xD2800042, 0]

/-- After nine pulses the first move is in writeback and the second one behind it. -/
theorem reservations_twoMoves :
    let p := (Pipeline.new (.new twoMoves 0 false)).pulses 9
    p.Reachable ∧ p.core.reservations = [1, 2] ∧
      (∀ pc word, p.pulse.2 ≠ some (.nothingReserved pc word)) := by
  intro p
  have reachable : p.Reachable := (Reachable.fresh twoMoves 0 false).pulses 9
  obtain ⟨queue, _, reserved, _⟩ := reservations_of_reachable reachable
  have held : Word.destinations p.pastDecode = [1, 2] := by decide +kernel
  exact ⟨reachable, queue.trans held, reserved⟩

end Legv8.Pipeline
