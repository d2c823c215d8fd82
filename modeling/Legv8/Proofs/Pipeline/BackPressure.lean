import Legv8.Proofs.Pipeline.Accounting

/-! # Back pressure

The phases of a pulse run from back to front, so that each unit finds its output latch just emptied. A fetch
is launched only into a free latch, which nothing else fills. What remains is decode, whose latch is full
only while a halt holds execution until everything older has retired. So decode is the one unit that ever
stalls, and it counts one stall in a pulse at most. -/
namespace Legv8

/-! ## Counters -/

/-- The stalls that have been counted: for a register, and for a latch. -/
def Statistics.stalls (s : Statistics) : Nat × Nat := (s.dataStalls, s.structuralStalls)

theorem Statistics.stalls_retire (s : Statistics) (op : Operation) : (s.retire op).stalls = s.stalls := by
  cases op <;> rfl

theorem Core.stalls_commit (core : Core) (e : Accessed) :
    (core.commit e).1.statistics.stalls = core.statistics.stalls := by
  unfold commit
  cases Operation.ofWord? e.word with
  | none => rfl
  | some op =>
    have counted := core.statistics.stalls_retire op
    dsimp only
    split
    · split <;> exact counted
    · exact counted

namespace Pipeline

variable {p q : Pipeline}

/-! ## The state in which a pulse comes to a phase -/

/-- The state in which a pulse comes to the memory access, if it gets as far. -/
def atAccess? (p : Pipeline) : Option Pipeline :=
  if p.core.stop.isSome then none else p.countCycle.writebackPhase.next?

/-- The state in which a pulse comes to execution, if it gets as far. -/
def atExecute? (p : Pipeline) : Option Pipeline := p.atAccess?.bind fun q => q.accessPhase.next?

theorem comesToExecute_of_atExecute? (h : p.atExecute? = some q) : p.ComesToExecute q := by
  obtain ⟨r, access, next⟩ := Option.bind_eq_some_iff.mp h
  unfold atAccess? at access
  split at access
  · cases access
  · next live =>
    rw [Bool.not_eq_true, Option.isSome_eq_false_iff, Option.isNone_iff_eq_none] at live
    exact ⟨live, r, Flow.eq_of_next? access, Flow.eq_of_next? next⟩

/-! ## Fetch -/

/-- A fetch is under way only if the latch to decode is free. -/
def FetchFree (p : Pipeline) : Prop := p.fetch.pending = true → p.latches.ifId = none

theorem FetchFree.executePhase (free : p.FetchFree) : p.executePhase.state.FetchFree := by
  refine executePhase_keeps FetchFree (fun q _ kept => kept) free (fun _ _ => free)
    (fun _ _ _ _ => free) (fun _ _ _ _ _ => ?_) (fun _ _ => ?_)
  · intro pending
    cases pending
  · intro pending
    cases pending

theorem FetchFree.decodePhase (free : p.FetchFree) : p.decodePhase.state.FetchFree := by
  have rest : ∀ q : Pipeline, q.FetchFree → q.decodeRest.state.FetchFree := by
    intro q free
    unfold decodeRest
    split
    · exact free
    · dsimp only [Flow.state]
      split
      · next empty =>
        rw [takeDecode_eq (Option.isNone_iff_eq_none.mp empty)]
        exact fun _ => rfl
      · exact free
  have completed : (p.completeDecode p.nothingOlder).1.FetchFree := by
    unfold completeDecode
    cases p.decodeStep p.nothingOlder <;> exact free
  rcases result : p.completeDecode p.nothingOlder with ⟨q, err | status⟩ <;> rw [result] at completed
  · rw [decodePhase_of_error result]
    exact completed
  · rw [decodePhase_of_ok result]
    exact rest q completed

theorem FetchFree.fetchPhase (free : p.FetchFree) : p.fetchPhase.state.FetchFree := by
  obtain ⟨core, ifId, fetch, result, held, pending, _⟩ := fetchPhase_eq p
  rw [result]
  intro launched
  have idle : p.fetch.pending = false ∧ p.latches.ifId = none := by
    rw [show fetch.pending = true from launched, eq_comm, beq_iff_eq] at pending
    cases full : p.latches.ifId with
    | none => exact ⟨by rw [pending, full]; rfl, rfl⟩
    | some e =>
      rw [full] at pending
      rw [free pending] at full
      cases full
  rw [idle.1, idle.2] at held
  exact Option.isNone_iff_eq_none.mp (Option.isSome_eq_false_iff.mp held)

theorem FetchFree.atExecute (free : p.FetchFree) (h : p.view.Reserved) (comes : p.ComesToExecute q) :
    q.FetchFree := by
  obtain ⟨core, bus, memWb, comes', _⟩ := comesToExecute comes.1 h
  obtain rfl := comes.unique comes'
  exact free

theorem FetchFree.atDecode (free : p.FetchFree) (h : p.view.Reserved) (comes : p.ComesToDecode q) :
    q.FetchFree := by
  obtain ⟨r, before, execute⟩ := comes
  have kept := (free.atExecute h before).executePhase
  rw [execute] at kept
  exact kept

theorem FetchFree.pulse (free : p.FetchFree) (h : p.view.Reserved) : p.pulse.1.FetchFree := by
  cases live : p.core.stop with
  | some reason =>
    rw [pulse_of_stopped live]
    exact free
  | none =>
    obtain ⟨core, bus, memWb, comes, _⟩ := comesToExecute live h
    rw [comes.pulse]
    refine runPhases_keeps FetchFree _ (fun phase hm q kept => ?_) (free.atExecute h comes)
    simp only [phases, List.drop, List.mem_cons, List.not_mem_nil, or_false] at hm
    rcases hm with rfl | rfl | rfl
    · exact kept.executePhase
    · exact kept.decodePhase
    · exact kept.fetchPhase

theorem Reachable.fetchFree (h : p.Reachable) : p.FetchFree := by
  induction h with
  | fresh memory pc tracing => exact fun _ => rfl
  | pulse h ih => exact ih.pulse h.reserved
  | flush h target ih => exact fun _ => rfl
  | reset h ih => exact fun _ => rfl
  | clearStop h ih => exact ih

/-! ## Decode -/

/-- Execution holds a halt, which waits for what is older. -/
def Draining (p : Pipeline) : Prop :=
  ∃ y, p.execute.pending = some y ∧ Operation.ofWord? y.word = some .hlt ∧ p.drained = false

/-- Execution takes the next instruction, or it is held by a halt that drains. -/
theorem draining_of_idEx (h : p.view.Reserved) (steady : p.execute.flushing = false)
    (comes : p.ComesToDecode q) (full : q.latches.idEx ≠ none) : q.Draining := by
  obtain ⟨r, before, execute⟩ := comes
  obtain ⟨moves, empty, _⟩ := before.moves h
  have gate : r.execute.flushing = false := by
    obtain ⟨core, bus, memWb, before', _⟩ := comesToExecute before.1 h
    obtain rfl := before.unique before'
    exact steady
  have through : (∀ y, r.execute.pending = some y →
      ∃ out alu, r.execute.alu.execute y = .ok (.forward out none, alu)) → q.Draining := by
    intro forwards
    obtain ⟨alu, exMem, next, _⟩ := executePhase_through empty gate forwards
    obtain rfl := Flow.next.inj (execute.symm.trans next)
    exact absurd rfl full
  cases hy : r.execute.pending with
  | none => exact through fun y held => by rw [hy] at held; cases held
  | some y =>
    have issued : y ∈ r.view.issued := by
      simp only [view, hy, Option.toList_some, List.cons_append, List.mem_cons, true_or]
    obtain ⟨op, hop, result⟩ := (h.moves moves).execute issued r.execute.alu
    rcases r.execute.alu.perform_cases op y with ⟨rfl, halts⟩ | ⟨_, out, target, alu, forwards, _⟩
    · rw [halts] at result
      cases older : r.drained with
      | false =>
        obtain rfl := Flow.next.inj (execute.symm.trans (executePhase_draining hy result older))
        exact ⟨y, hy, hop, older⟩
      | true =>
        obtain ⟨r', done, _⟩ := executePhase_halts hy result older
        cases execute.symm.trans done
    · rw [forwards] at result
      cases target with
      | none =>
        refine through fun z held => ?_
        rw [hy, Option.some.injEq] at held
        exact held ▸ ⟨out, alu, result⟩
      | some target =>
        obtain ⟨core, next, _⟩ := executePhase_redirect empty hy result
        obtain rfl := Flow.next.inj (execute.symm.trans next)
        exact absurd rfl full

/-- Decode waits for a register. -/
def waits (p : Pipeline) : Bool :=
  match p.decodeStep p.nothingOlder with
  | .waiting _ _ => true
  | _ => false

/-- Decode finds its output latch full. -/
def blocks (p : Pipeline) : Bool :=
  match p.decodeStep p.nothingOlder with
  | .blocked => true
  | _ => false

theorem idEx_of_blocks (blocks : p.blocks = true) : p.latches.idEx ≠ none := by
  intro free
  unfold Pipeline.blocks decodeStep at blocks
  rw [free] at blocks
  grind

theorem idEx_of_issued {older : Bool} {out : Issued} (issued : p.decodeStep older = .issued out) :
    p.latches.idEx = none := by
  unfold decodeStep at issued
  grind

/-! ## Stalls -/

/-- The stalls that have been counted. -/
def stalls (p : Pipeline) : Nat × Nat := p.core.statistics.stalls

theorem stalls_writebackPhase (p : Pipeline) : p.writebackPhase.state.stalls = p.stalls :=
  core_writebackPhase (·.statistics.stalls) Core.stalls_commit p

theorem stalls_accessPhase (empty : p.latches.memWb = none) :
    p.accessPhase.state.stalls = p.stalls := by
  obtain ⟨core, bus, memWb, result, _, kept⟩ := accessPhase_eq empty
  rw [result]
  exact congrArg Statistics.stalls kept

theorem stalls_executePhase (empty : p.latches.exMem = none) :
    p.executePhase.state.stalls = p.stalls :=
  executePhase_keeps (·.stalls = p.stalls) (fun _ _ kept => kept) rfl (fun full => absurd empty full)
    (fun _ _ _ _ => rfl) (fun _ _ _ _ _ => rfl) fun _ _ => rfl

theorem stalls_decodePhase (p : Pipeline) :
    p.decodePhase.state.stalls = (p.stalls.1 + p.waits.toNat, p.stalls.2 + p.blocks.toNat) := by
  have completed : (p.completeDecode p.nothingOlder).1.stalls =
      (p.stalls.1 + p.waits.toNat, p.stalls.2 + p.blocks.toNat) := by
    unfold completeDecode waits blocks
    cases p.decodeStep p.nothingOlder with
    | issued out =>
      dsimp only
      rw [Core.reserve_eq]
      rfl
    | _ => rfl
  rcases result : p.completeDecode p.nothingOlder with ⟨q, err | status⟩ <;> rw [result] at completed
  · rw [decodePhase_of_error result]
    exact completed
  · rw [decodePhase_of_ok result]
    exact (congrArg (·.statistics.stalls) (core_decodeRest q)).trans completed

theorem stalls_fetchPhase (free : p.FetchFree) : p.fetchPhase.state.stalls = p.stalls := by
  rw [fetchPhase_eq_launches]
  have completed : p.completeFetch.1.stalls = p.stalls := by
    unfold completeFetch fetchStep
    cases pending : p.fetch.pending with
    | false => rfl
    | true =>
      rw [free pending]
      rfl
  refine Eq.trans ?_ completed
  split <;> rfl

theorem memWb_of_atAccess? (h : p.view.Reserved) (comes : p.atAccess? = some q) :
    q.latches.memWb = none := by
  have reserved : p.countCycle.view.Reserved := h.move (.pace (paces_countCycle p.core))
  obtain ⟨core, writeback, _⟩ := writebackPhase_eq reserved
  unfold atAccess? at comes
  split at comes
  · cases comes
  · rw [writeback] at comes
    cases comes
    rfl

theorem ComesToExecute.stalls (comes : p.ComesToExecute q) (h : p.view.Reserved) :
    q.stalls = p.stalls := by
  obtain ⟨live, r, writeback, access⟩ := comes
  have reached : p.atAccess? = some r := by
    unfold atAccess?
    rw [live, writeback]
    rfl
  have first := stalls_writebackPhase p.countCycle
  have second := stalls_accessPhase (memWb_of_atAccess? h reached)
  rw [writeback] at first
  rw [access] at second
  exact second.trans first

/-- A pulse that comes to decode counts what decode counts. -/
theorem ComesToDecode.stalls_pulse (comes : p.ComesToDecode q) (free : q.FetchFree) :
    p.pulse.1.stalls = (q.stalls.1 + q.waits.toNat, q.stalls.2 + q.blocks.toNat) := by
  rw [comes.pulse, show phases.drop 3 = [⟨decodePhase, _⟩, ⟨fetchPhase, _⟩] from rfl,
    runPhases_first stalls, stalls_decodePhase]
  intro r next
  have still := free.decodePhase
  rw [show q.decodePhase = .next r from next] at still
  exact (runPhases_first stalls fun _ _ => rfl).trans (stalls_fetchPhase still)

/-- Only decode counts stalls. -/
theorem stalls_pulse (h : p.view.Reserved) (free : p.FetchFree) :
    p.pulse.1.stalls =
      (p.stalls.1 + (p.atDecode?.any waits).toNat, p.stalls.2 + (p.atDecode?.any blocks).toNat) := by
  cases live : p.core.stop with
  | some reason =>
    have never : p.atDecode? = none := by
      unfold Pipeline.atDecode?
      rw [live]
      rfl
    rw [pulse_of_stopped live, never]
    rfl
  | none =>
    obtain ⟨_, _, _, comes, _⟩ := comesToExecute live h
    generalize ({ p with core := _, latches := _, access := _, writeback := _ } : Pipeline) = q at comes
    have executed := (stalls_executePhase (comes.moves h).2.1).trans (comes.stalls h)
    have next := comes.atDecode?
    cases reached : p.atDecode? with
    | some r =>
      rw [reached, eq_comm] at next
      rw [Flow.eq_of_next? next] at executed
      have decodes := comesToDecode_of_atDecode? reached
      rw [decodes.stalls_pulse (free.atDecode h decodes), ← executed]
      rfl
    | none =>
      rw [reached, eq_comm] at next
      rw [comes.pulse, show phases.drop 2 = ⟨executePhase, _⟩ :: phases.drop 3 from rfl,
        runPhases_first stalls]
      · exact executed
      · intro r goes
        rw [show q.executePhase = .next r from goes] at next
        cases next

theorem blocks_of_waits (waits : p.waits = true) : p.blocks = false := by
  unfold Pipeline.waits at waits
  unfold blocks
  split at waits
  · next step => rw [step]
  · cases waits

/-- A pulse counts one stall at most. -/
theorem any_waits_add_any_blocks_le (o : Option Pipeline) :
    (o.any waits).toNat + (o.any blocks).toNat ≤ 1 := by
  cases o with
  | none => exact Nat.zero_le 1
  | some q =>
    cases waiting : q.waits with
    | true =>
      rw [Option.any_some, Option.any_some, waiting, blocks_of_waits waiting]
      exact Nat.le_refl 1
    | false =>
      rw [Option.any_some, Option.any_some, waiting, Bool.toNat_false, Nat.zero_add]
      exact Bool.toNat_le _

theorem Reachable.stalls_le_cycles (h : p.Reachable) :
    p.core.statistics.dataStalls + p.core.statistics.structuralStalls ≤ p.core.statistics.cycles := by
  induction h with
  | fresh memory pc tracing => exact Nat.le_refl 0
  | @pulse p h ih =>
    cases live : p.core.stop with
    | some reason =>
      rw [pulse_of_stopped live]
      exact ih
    | none =>
      have counted := Prod.mk.inj (stalls_pulse h.reserved h.fetchFree)
      have one := any_waits_add_any_blocks_le p.atDecode?
      rw [counted.1, counted.2, cycles_pulse live]
      simp only [stalls, Statistics.stalls]
      omega
  | flush h target ih => exact ih
  | reset h ih => exact Nat.le_refl 0
  | clearStop h ih => exact ih

/-! ## Every reachable state -/

/-- In every reachable state the flushing gate is down, and in the pulse that follows no unit but decode
finds its output latch full, and no latch refuses what is published. Decode finds its latch full only while
execution holds a halt that still drains. So only such a wait counts as a structural stall, a pulse counts
one stall at most, and there are no more stalls than cycles. -/
theorem backPressure_of_reachable (h : p.Reachable) :
    let s := p.core.statistics
    let s' := p.pulse.1.core.statistics
    p.execute.flushing = false ∧
      (∀ q, p.atAccess? = some q → q.latches.memWb = none ∧ q.accessStep ≠ .blocked) ∧
      (∀ q, p.atExecute? = some q →
        q.latches.exMem = none ∧ ∀ alu, q.executeStep q.drained ≠ .blocked alu) ∧
      (∀ q, p.atDecode? = some q →
        (∀ out, q.decodeStep q.nothingOlder = .issued out →
          q.latches.idEx.publish out = .ok (some out)) ∧
        (q.latches.idEx ≠ none → q.Draining)) ∧
      (∀ q, p.atFetch? = some q →
        (q.fetch.pending = true → q.latches.ifId = none) ∧ q.fetchStep ≠ .blocked) ∧
      (s.structuralStalls < s'.structuralStalls →
        ∃ q, p.atDecode? = some q ∧ q.latches.idEx ≠ none ∧ q.Draining) ∧
      s'.dataStalls + s'.structuralStalls ≤ s.dataStalls + s.structuralStalls + 1 ∧
      s.dataStalls + s.structuralStalls ≤ s.cycles := by
  intro s s'
  have counted := Prod.mk.inj (stalls_pulse h.reserved h.fetchFree)
  have draining : ∀ q, p.atDecode? = some q → q.latches.idEx ≠ none → q.Draining := by
    intro q comes
    exact draining_of_idEx h.reserved h.steady (comesToDecode_of_atDecode? comes)
  refine ⟨h.steady, ?access, ?execute, ?decode, ?fetch, ?grows, ?one, h.stalls_le_cycles⟩
  case access =>
    intro q comes
    have empty := memWb_of_atAccess? h.reserved comes
    refine ⟨empty, fun step => ?_⟩
    unfold accessStep at step
    rw [empty] at step
    split at step <;> cases step
  case execute =>
    intro q comes
    have empty := ((comesToExecute_of_atExecute? comes).moves h.reserved).2.1
    exact ⟨empty, executeStep_ne_blocked empty q.drained⟩
  case decode =>
    intro q comes
    refine ⟨fun out issued => ?_, draining q comes⟩
    rw [idEx_of_issued issued, Latch.publish_none]
  case fetch =>
    intro q comes
    obtain ⟨r, decoded, next⟩ := Option.bind_eq_some_iff.mp comes
    have free := (h.fetchFree.atDecode h.reserved (comesToDecode_of_atDecode? decoded)).decodePhase
    rw [Flow.eq_of_next? next] at free
    refine ⟨free, fun step => ?_⟩
    unfold fetchStep at step
    split at step
    · next pending =>
      rw [show q.latches.ifId = none from free pending] at step
      cases step
    · cases step
  case grows =>
    intro grows
    have blocked : p.atDecode?.any blocks = true := by
      by_contra idle
      rw [Bool.not_eq_true] at idle
      have same : s'.structuralStalls = s.structuralStalls + (p.atDecode?.any blocks).toNat := counted.2
      rw [idle, Bool.toNat_false, Nat.add_zero] at same
      omega
    obtain ⟨q, comes, full⟩ : ∃ q, p.atDecode? = some q ∧ q.latches.idEx ≠ none := by
      cases reached : p.atDecode? with
      | none =>
        rw [reached] at blocked
        cases blocked
      | some q =>
        rw [reached] at blocked
        exact ⟨q, rfl, idEx_of_blocks blocked⟩
    exact ⟨q, comes, full, draining q comes full⟩
  case one =>
    have one := any_waits_add_any_blocks_le p.atDecode?
    have data : s'.dataStalls = s.dataStalls + (p.atDecode?.any waits).toNat := counted.1
    have structural : s'.structuralStalls = s.structuralStalls + (p.atDecode?.any blocks).toNat :=
      counted.2
    omega

/-- A move, an addition that waits for it, a halt, and moves that are never executed. -/
def haltBehindHazard : Memory :=
  .ofWords [0xD2800021, 0x91000421, 0x00000000, 0xD2800022, 0xD2800023, 0xD2800024]

/-- The halt follows close on the addition, and while it drains decode has to wait. -/
theorem backPressure_haltBehindHazard :
    let p := (Pipeline.new (.new haltBehindHazard 0 false)).pulses 14
    p.Reachable ∧ p.core.statistics.structuralStalls = 0 ∧
      p.pulse.1.core.statistics.structuralStalls = 1 ∧
      ∃ q, p.atDecode? = some q ∧ q.latches.idEx ≠ none ∧ q.Draining := by
  intro p
  have reachable : p.Reachable := (Reachable.fresh haltBehindHazard 0 false).pulses 14
  have before : p.core.statistics.structuralStalls = 0 := by decide +kernel
  have after : p.pulse.1.core.statistics.structuralStalls = 1 := by decide +kernel
  obtain ⟨_, _, _, _, _, grows, _⟩ := backPressure_of_reachable reachable
  exact ⟨reachable, before, after, grows (by rw [before, after]; decide)⟩

end Pipeline

end Legv8
