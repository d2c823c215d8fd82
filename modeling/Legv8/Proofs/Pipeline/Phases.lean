import Legv8.Proofs.Pipeline.Pulse

/-! # The phases as equations

Each phase is written out here once as an equation on the whole state, for every case that occurs in a run,
so that what a phase leaves alone can be read off it. What holds of a phase in all its cases, failures
included, is said apart: which stations it does not touch, and which counters it does not change. -/
namespace Legv8

theorem Core.statistics_settle (core : Core) (access : Access) :
    (core.settle access).statistics = core.statistics := by
  unfold settle
  rw [reportFaults_eq]

theorem Core.cycles_commit (core : Core) (e : Accessed) :
    (core.commit e).1.statistics.cycles = core.statistics.cycles := by
  unfold commit
  cases Operation.ofWord? e.word with
  | none => rfl
  | some op =>
    have counted : (core.statistics.retire op).cycles = core.statistics.cycles := by cases op <;> rfl
    dsimp only
    split
    · split <;> exact counted
    · exact counted

namespace Pipeline

variable {p q : Pipeline}

/-! ## Phases in a row -/

/-- The state in which a phase leaves the machine. -/
def Flow.state : Flow → Pipeline
  | .next p => p
  | .done p => p
  | .failed p _ => p

theorem runPhases_keeps (kept : Pipeline → Prop) (list : List Phase)
    (h : ∀ phase ∈ list, ∀ p, kept p → kept (phase.run p).state) {p : Pipeline} (init : kept p) :
    kept (runPhases list p).1 := by
  induction list generalizing p with
  | nil => exact init
  | cons phase rest ih =>
    have first := h phase List.mem_cons_self p init
    unfold runPhases
    cases hp : phase.run p with
    | next q =>
      rw [hp] at first
      exact ih (fun phase' hm => h phase' (List.mem_cons_of_mem _ hm)) first
    | done q => rw [hp] at first; exact first
    | failed q err => rw [hp] at first; exact first

theorem runPhases_next {phase : Phase} {rest : List Phase} {p q : Pipeline} (h : phase.run p = .next q) :
    runPhases (phase :: rest) p = runPhases rest q := by
  rw [runPhases, h]

/-- What the later phases keep is as the first phase leaves it. -/
theorem runPhases_first {β : Type} (f : Pipeline → β) {phase : Phase} {rest : List Phase}
    (later : ∀ q, phase.run p = .next q → f (runPhases rest q).1 = f q) :
    f (runPhases (phase :: rest) p).1 = f (phase.run p).state := by
  unfold runPhases
  cases ends : phase.run p with
  | next q => exact later q ends
  | done q => rfl
  | failed q err => rfl

theorem pulse_of_live (live : p.core.stop = none) : p.pulse = runPhases phases p.countCycle := by
  unfold pulse
  rw [live]
  rfl

/-! ## An empty unit takes what its latch holds -/

theorem takeWriteback_eq (h : p.writeback = none) : p.takeWriteback =
    { p with writeback := p.latches.memWb, latches := { p.latches with memWb := none } } := by
  obtain ⟨core, ⟨ifId, idEx, exMem, _ | w⟩, fetch, decode, execute, access, writeback⟩ := p
  · cases h
    rfl
  · rfl

theorem takeAccess_eq (h : p.access.pending = none) : p.takeAccess =
    { p with
      access := { p.access with pending := p.latches.exMem }
      latches := { p.latches with exMem := none } } := by
  obtain ⟨core, ⟨ifId, idEx, _ | x, memWb⟩, fetch, decode, execute, ⟨bus, pending⟩, writeback⟩ := p
  · cases h
    rfl
  · rfl

theorem takeExecute_eq (h : p.execute.pending = none) : p.takeExecute =
    { p with
      execute := { p.execute with pending := p.latches.idEx }
      latches := { p.latches with idEx := none } } := by
  obtain ⟨core, ⟨ifId, _ | y, exMem, memWb⟩, fetch, decode, ⟨alu, pending, flushing⟩, access,
    writeback⟩ := p
  · cases h
    rfl
  · rfl

theorem takeDecode_eq (h : p.decode = none) : p.takeDecode =
    { p with decode := p.latches.ifId, latches := { p.latches with ifId := none } } := by
  obtain ⟨core, ⟨_ | e, idEx, exMem, memWb⟩, fetch, decode, execute, access, writeback⟩ := p
  · cases h
    rfl
  · rfl

theorem admitExecute_eq (h : p.execute.pending = none) (steady : p.execute.flushing = false) :
    p.admitExecute = { p with
      execute := { alu := p.execute.alu, pending := p.latches.idEx, flushing := false }
      latches := { p.latches with idEx := none } } := by
  unfold admitExecute
  simp only [h, steady, takeExecute_eq h, Option.isNone_none, Bool.not_false, Bool.and_true, if_true]

/-! ## The phases -/

/-- Writeback retires what it holds and takes the next instruction. -/
theorem writebackPhase_eq (h : p.view.Reserved) :
    ∃ core, p.writebackPhase = .next { p with
        core
        writeback := p.latches.memWb
        latches := { p.latches with memWb := none } } ∧
      core.stop = p.core.stop ∧
      core.statistics.retired = p.core.statistics.retired + p.writeback.isSome.toNat := by
  unfold writebackPhase completeWriteback
  cases hw : p.writeback with
  | none =>
    refine ⟨p.core, ?_, rfl, rfl⟩
    dsimp only
    rw [takeWriteback_eq hw]
  | some w =>
    have oldest := accessed_of_writeback hw
    obtain ⟨op, _, commit⟩ := h.commit oldest
    replace commit : p.core.commit w = _ := commit
    dsimp only
    rw [commit]
    exact ⟨_, congrArg Flow.next (takeWriteback_eq rfl), rfl, Statistics.retired_retire _ op⟩

/-- The memory unit makes its access, which may ask for a stop, and takes the next instruction. -/
theorem accessPhase_eq (empty : p.latches.memWb = none) :
    ∃ core bus memWb, p.accessPhase = .next { p with
        core
        latches := { p.latches with exMem := none, memWb }
        access := { bus, pending := p.latches.exMem } } ∧
      memWb.isSome = p.access.pending.isSome ∧ core.statistics = p.core.statistics := by
  unfold accessPhase completeAccess accessStep
  cases hx : p.access.pending with
  | none =>
    refine ⟨p.core, p.access.bus, p.latches.memWb, ?_, by rw [empty]; rfl, rfl⟩
    simp only [hx, Option.isNone_none, if_true, takeAccess_eq hx]
  | some x =>
    simp only [empty, Option.isNone_none, if_true]
    generalize x.access p.access.bus p.core.memory = access
    exact ⟨p.core.settle access, access.bus, some access.out, congrArg Flow.next (takeAccess_eq rfl), rfl,
      p.core.statistics_settle access⟩

/-- An instruction that is executed and takes no branch goes on, and the next one comes in. -/
theorem executePhase_through (empty : p.latches.exMem = none) (steady : p.execute.flushing = false)
    (through : ∀ y, p.execute.pending = some y →
      ∃ out alu, p.execute.alu.execute y = .ok (.forward out none, alu)) :
    ∃ alu exMem, p.executePhase = .next { p with
        latches := { p.latches with exMem, idEx := none }
        execute := { alu, pending := p.latches.idEx, flushing := false } } ∧
      exMem.isSome = p.execute.pending.isSome := by
  unfold executePhase completeExecute executeStep
  cases hy : p.execute.pending with
  | none =>
    refine ⟨p.execute.alu, p.latches.exMem, ?_, by rw [empty]; rfl⟩
    exact congrArg Flow.next (admitExecute_eq hy steady)
  | some y =>
    obtain ⟨out, alu, result⟩ := through y hy
    simp only [result, empty, Latch.publish_none]
    exact ⟨alu, some out, congrArg Flow.next (admitExecute_eq rfl steady), rfl⟩

/-- A taken branch goes on, and everything behind it is discarded. -/
theorem executePhase_redirect (empty : p.latches.exMem = none) {y : Issued} {out : Executed}
    {target : UInt64} {alu : Alu} (hy : p.execute.pending = some y)
    (result : p.execute.alu.execute y = .ok (.forward out (some target), alu)) :
    ∃ core, p.executePhase = .next { p with
        core
        latches := { ifId := none, idEx := none, exMem := some out, memWb := p.latches.memWb }
        fetch := { p.fetch with pending := false }
        decode := none
        execute := { alu, pending := none, flushing := false } } ∧
      core.statistics.retired = p.core.statistics.retired := by
  unfold executePhase completeExecute executeStep
  simp only [hy, result, empty, Latch.publish_none]
  exact ⟨_, congrArg Flow.next (admitExecute_eq rfl rfl), rfl⟩

/-- A halt stays in execution as long as something is left before it. -/
theorem executePhase_draining {y : Issued} {alu : Alu} (hy : p.execute.pending = some y)
    (result : p.execute.alu.execute y = .ok (.halt, alu)) (waits : p.drained = false) :
    p.executePhase = .next p := by
  unfold executePhase completeExecute executeStep
  simp only [hy, result, waits, Bool.false_eq_true, if_false]
  unfold admitExecute
  simp only [hy, Option.isNone_some, Bool.false_and, Bool.false_eq_true, if_false]

/-- A halt with nothing left before it stops the machine. -/
theorem executePhase_halts {y : Issued} {alu : Alu} (hy : p.execute.pending = some y)
    (result : p.execute.alu.execute y = .ok (.halt, alu)) (alone : p.drained = true) :
    ∃ q, p.executePhase = .done q ∧ q.core.stop ≠ none := by
  unfold executePhase completeExecute executeStep
  simp only [hy, result, alone, if_true]
  refine ⟨_, rfl, ?_⟩
  simp only [halt, Core.requestStop, Core.retire]
  unfold StopReason.request
  split <;> exact Option.some_ne_none _

/-- Behind an empty decode unit the latch from fetch is taken. -/
theorem decodePhase_empty (live : p.core.stop = none) (he : p.decode = none) :
    p.decodePhase = .next
      { p with decode := p.latches.ifId, latches := { p.latches with ifId := none } } := by
  unfold decodePhase completeDecode decodeStep
  simp only [he, live, takeDecode_eq he, Option.isSome_none, Option.isNone_none, Bool.false_eq_true,
    if_false, if_true]

/-- An instruction that waits for a register stays in decode. -/
theorem decodePhase_waits (live : p.core.stop = none) {e : Fetched} {i : Instruction} {r : Nat}
    (he : p.decode = some e) (inside : e.fault = none) (accept : e.accept = .ok i)
    (waits : i.pendingSource? p.core.reservations = some r) :
    p.decodePhase = .next { p with core := p.core.countDataStall } := by
  have kept : p.core.countDataStall.stop = none := live
  unfold decodePhase completeDecode decodeStep
  simp only [he, inside, accept, waits, kept, Option.isSome_none, Option.isNone_some,
    Bool.false_eq_true, if_false]

/-- An instruction that waits for nothing is issued, and the latch from fetch is taken. -/
theorem decodePhase_issues (live : p.core.stop = none) {e : Fetched} {i : Instruction}
    (he : p.decode = some e) (inside : e.fault = none) (accept : e.accept = .ok i)
    (ready : i.pendingSource? p.core.reservations = none) (free : p.latches.idEx = none) :
    ∃ y, p.decodePhase = .next { p with
      core := p.core.reserve i.dest?
      decode := p.latches.ifId
      latches := { p.latches with ifId := none, idEx := some y } } := by
  have kept : (p.core.reserve (e.operands i p.core.registers).dest).stop = none := by
    rw [Core.reserve_eq, live]
  unfold decodePhase completeDecode decodeStep
  simp only [he, inside, accept, ready, free, kept, Option.isSome_none, Option.isNone_none,
    Bool.false_eq_true, if_false, if_true]
  exact ⟨_, congrArg Flow.next (takeDecode_eq rfl)⟩

/-- A fetch under way is completed if its latch is free, and the next one is launched if it is still free
then. -/
theorem fetchPhase_eq (p : Pipeline) :
    ∃ core ifId fetch, p.fetchPhase = .next { p with core, fetch, latches := { p.latches with ifId } } ∧
      ifId.isSome = (p.latches.ifId.isSome || p.fetch.pending) ∧
      fetch.pending = (p.fetch.pending == p.latches.ifId.isSome) ∧
      core.statistics.cycles = p.core.statistics.cycles ∧
      core.statistics.retired = p.core.statistics.retired := by
  unfold fetchPhase completeFetch fetchStep
  obtain ⟨core, ⟨_ | e, idEx, exMem, memWb⟩, ⟨bus, _ | _⟩, decode, execute, access, writeback⟩ := p
  · exact ⟨core, none, _, rfl, rfl, rfl, rfl, rfl⟩
  · exact ⟨_, some _, _, rfl, rfl, rfl, rfl, rfl⟩
  · exact ⟨core, some e, _, rfl, rfl, rfl, rfl, rfl⟩
  · exact ⟨_, some e, _, rfl, rfl, rfl, rfl, rfl⟩

/-! ## What a phase leaves alone -/

/-- What is past execution. -/
def pastExecute (p : Pipeline) : Option Accessed × Option Accessed × Option Executed :=
  (p.writeback, p.latches.memWb, p.access.pending)

/-- What is past the latch behind decode. -/
def pastIssue (p : Pipeline) := (p.pastExecute, p.latches.exMem, p.execute)

theorem execute_writebackPhase (p : Pipeline) : p.writebackPhase.state.execute = p.execute := by
  have taken : ∀ q : Pipeline, q.takeWriteback.execute = q.execute := by
    intro q
    unfold takeWriteback
    cases q.latches.memWb <;> rfl
  unfold writebackPhase completeWriteback
  cases p.writeback with
  | none => exact taken p
  | some w =>
    dsimp only
    rcases p.core.commit w with ⟨core, err | written⟩
    · rfl
    · exact taken _

theorem execute_accessPhase (p : Pipeline) : p.accessPhase.state.execute = p.execute := by
  have taken : ∀ q : Pipeline,
      (if q.access.pending.isNone then q.takeAccess else q).execute = q.execute := by
    intro q
    unfold takeAccess
    split
    · cases q.latches.exMem <;> rfl
    · rfl
  refine (taken p.completeAccess.1).trans ?_
  unfold completeAccess
  cases p.accessStep <;> rfl

theorem admitExecute_cases (p : Pipeline) : p.admitExecute = p ∨
    p.execute.pending = none ∧ p.admitExecute =
      { p with
        execute := { p.execute with pending := p.latches.idEx }
        latches := { p.latches with idEx := none } } := by
  unfold admitExecute
  split
  · next free =>
    rw [Bool.and_eq_true, Option.isNone_iff_eq_none] at free
    exact .inr ⟨free.1, takeExecute_eq free.1⟩
  · exact .inl rfl

/-- The execute unit finds the latch to the memory unit full only if it is. -/
theorem executeStep_ne_blocked (empty : p.latches.exMem = none) (drained : Bool) (alu : Alu) :
    p.executeStep drained ≠ .blocked alu := by
  unfold executeStep
  rw [empty]
  intro step
  split at step
  · cases step
  · split at step
    · cases step
    · split at step <;> cases step
    · cases step

/-- An instruction comes out of the execute unit only if it was there, and only into a free latch. -/
theorem executeStep_cases (p : Pipeline) (drained : Bool) :
    (∀ pc, p.executeStep drained = .halted pc → p.execute.pending.isSome = true) ∧
      ∀ out target alu, p.executeStep drained = .executed out target alu →
        p.execute.pending.isSome = true ∧ p.latches.exMem = none := by
  unfold executeStep
  cases p.execute.pending with
  | none => exact ⟨nofun, nofun⟩
  | some y =>
    refine ⟨fun _ _ => rfl, fun out target alu step => ⟨rfl, ?_⟩⟩
    dsimp only at step
    split at step
    · cases step
    · split at step <;> cases step
    · cases hx : p.latches.exMem with
      | none => rfl
      | some x =>
        rw [hx] at step
        cases step

/-- All that the execute phase can do to the machine, one hypothesis each. -/
theorem executePhase_keeps (kept : Pipeline → Prop)
    (takes : ∀ q, q.execute.pending = none → kept q → kept { q with
      execute := { q.execute with pending := q.latches.idEx }
      latches := { q.latches with idEx := none } })
    (stay : kept p)
    (blocked : p.latches.exMem ≠ none → ∀ alu, kept { p with
      core := p.core.countStructuralStall
      execute := { p.execute with alu } })
    (through : p.execute.pending.isSome = true → p.latches.exMem = none → ∀ out alu, kept { p with
      latches := { p.latches with exMem := some out }
      execute := { p.execute with alu, pending := none } })
    (redirect : p.execute.pending.isSome = true → p.latches.exMem = none → ∀ out target alu,
      kept (flush { p with
        core := p.core.countTaken
        latches := { p.latches with exMem := some out }
        execute := { alu, pending := none, flushing := true } } target))
    (halts : p.execute.pending.isSome = true → ∀ pc,
      kept (halt { p with execute := { p.execute with pending := none } } pc)) :
    kept p.executePhase.state := by
  have admitted : ∀ q, kept q → kept q.admitExecute := by
    intro q h
    rcases q.admitExecute_cases with same | ⟨free, taken⟩
    · rw [same]
      exact h
    · rw [taken]
      exact takes q free h
  obtain ⟨halted, executed⟩ := p.executeStep_cases p.drained
  unfold executePhase completeExecute
  cases step : p.executeStep p.drained with
  | idle => exact admitted _ stay
  | rejected err => exact stay
  | draining => exact admitted _ stay
  | halted pc => exact halts (halted pc step) pc
  | blocked alu => exact admitted _ (blocked (fun empty => executeStep_ne_blocked empty _ alu step) alu)
  | executed out target alu =>
    obtain ⟨held, empty⟩ := executed out target alu step
    cases target with
    | none => exact admitted _ (through held empty out alu)
    | some target => exact admitted _ (redirect held empty out target alu)

theorem pastExecute_executePhase (p : Pipeline) :
    p.executePhase.state.pastExecute = p.pastExecute :=
  executePhase_keeps (·.pastExecute = p.pastExecute) (fun _ _ h => h) rfl (fun _ _ => rfl)
    (fun _ _ _ _ => rfl) (fun _ _ _ _ _ => rfl) fun _ _ => rfl

/-- The execute phase leaves decode alone or empties it. -/
theorem decode_executePhase (p : Pipeline) :
    p.executePhase.state.decode = p.decode ∨ p.executePhase.state.decode = none :=
  executePhase_keeps (fun q => q.decode = p.decode ∨ q.decode = none) (fun _ _ h => h) (.inl rfl)
    (fun _ _ => .inl rfl) (fun _ _ _ _ => .inl rfl) (fun _ _ _ _ _ => .inr rfl) fun _ _ => .inr rfl

theorem flushing_executePhase (steady : p.execute.flushing = false) :
    p.executePhase.state.execute.flushing = false :=
  executePhase_keeps (·.execute.flushing = false) (fun _ _ h => h) steady (fun _ _ => steady)
    (fun _ _ _ _ => steady) (fun _ _ _ _ _ => rfl) fun _ _ => steady

theorem pastIssue_decodeRest (p : Pipeline) : p.decodeRest.state.pastIssue = p.pastIssue := by
  unfold decodeRest
  split
  · rfl
  · dsimp only [Flow.state]
    unfold takeDecode
    split
    · cases p.latches.ifId <;> rfl
    · rfl

theorem pastIssue_completeDecode (p : Pipeline) (nothingOlder : Bool) :
    (p.completeDecode nothingOlder).1.pastIssue = p.pastIssue := by
  unfold completeDecode
  cases p.decodeStep nothingOlder <;> rfl

theorem pastIssue_decodePhase (p : Pipeline) : p.decodePhase.state.pastIssue = p.pastIssue := by
  have kept := p.pastIssue_completeDecode p.nothingOlder
  rcases h : p.completeDecode p.nothingOlder with ⟨q, err | status⟩ <;> rw [h] at kept
  · rw [decodePhase_of_error h]
    exact kept
  · rw [decodePhase_of_ok h, pastIssue_decodeRest, kept]

theorem pastIssue_fetchPhase (p : Pipeline) : p.fetchPhase.state.pastIssue = p.pastIssue := by
  obtain ⟨core, ifId, fetch, result, _⟩ := fetchPhase_eq p
  rw [result]
  rfl

theorem pastExecute_fromExecute (p : Pipeline) :
    (runPhases (phases.drop 2) p).1.pastExecute = p.pastExecute := by
  refine runPhases_keeps (·.pastExecute = p.pastExecute) _ (fun phase hm q kept => ?_) rfl
  simp only [phases, List.drop, List.mem_cons, List.not_mem_nil, or_false] at hm
  rw [← kept]
  rcases hm with rfl | rfl | rfl
  · exact pastExecute_executePhase q
  · exact congrArg Prod.fst (pastIssue_decodePhase q)
  · exact congrArg Prod.fst (pastIssue_fetchPhase q)

theorem pastIssue_fromDecode (p : Pipeline) :
    (runPhases (phases.drop 3) p).1.pastIssue = p.pastIssue := by
  refine runPhases_keeps (·.pastIssue = p.pastIssue) _ (fun phase hm q kept => ?_) rfl
  simp only [phases, List.drop, List.mem_cons, List.not_mem_nil, or_false] at hm
  rw [← kept]
  rcases hm with rfl | rfl
  · exact pastIssue_decodePhase q
  · exact pastIssue_fetchPhase q

/-! ## What a phase does to the core -/

/-- What no commit changes in a core, writeback does not change. -/
theorem core_writebackPhase {β : Type} (f : Core → β) (kept : ∀ core w, f (core.commit w).1 = f core)
    (p : Pipeline) : f p.writebackPhase.state.core = f p.core := by
  unfold writebackPhase completeWriteback
  cases p.writeback with
  | none => exact congrArg f (core_takeWriteback p)
  | some w =>
    have committed := kept p.core w
    dsimp only
    rcases h : p.core.commit w with ⟨core, err | written⟩ <;> rw [h] at committed
    · exact committed
    · exact (congrArg f (core_takeWriteback _)).trans committed

/-- What no access and no stall changes in a core, the memory unit does not change. -/
theorem core_accessPhase {β : Type} (f : Core → β)
    (kept : ∀ core x bus, f (core.settle (Executed.access x bus core.memory)) = f core)
    (stalled : ∀ core, f (Core.countStructuralStall core) = f core) (p : Pipeline) :
    f p.accessPhase.state.core = f p.core := by
  have completed : f p.completeAccess.1.core = f p.core := by
    unfold completeAccess
    cases p.accessStep with
    | idle => rfl
    | blocked => exact stalled p.core
    | accessed x =>
      dsimp only
      rw [kept]
  have taken : ∀ q : Pipeline, (if q.access.pending.isNone then q.takeAccess else q).core = q.core := by
    intro q
    split
    · exact core_takeAccess q
    · rfl
  exact (congrArg f (taken p.completeAccess.1)).trans completed

theorem core_decodeRest (p : Pipeline) : p.decodeRest.state.core = p.core := by
  unfold decodeRest
  split
  · rfl
  · dsimp only [Flow.state]
    split
    · exact core_takeDecode p
    · rfl

section Kept

variable {β : Type} {f : Core → β}
  (progress : ∀ core registers pc reservations statistics,
    f { core with registers, pc, reservations, statistics } = f core)

include progress

theorem core_fetchPhase (p : Pipeline) : f p.fetchPhase.state.core = f p.core := by
  have launched : ∀ q : Pipeline,
      (if !q.fetch.pending && q.latches.ifId.isNone then q.launchFetch else q).core = q.core := by
    intro q
    split <;> rfl
  refine (congrArg f (launched p.completeFetch.1)).trans ?_
  unfold completeFetch
  cases p.fetchStep with
  | idle => rfl
  | blocked => exact progress p.core _ _ _ _
  | fetched entry bus => exact progress p.core _ _ _ _

variable
  (requested : ∀ core reason, reason.cycleLimit? = none → f (Core.requestStop core reason) = f core)

include requested

theorem core_executePhase (p : Pipeline) : f p.executePhase.state.core = f p.core :=
  executePhase_keeps (fun q => f q.core = f p.core) (fun _ _ h => h) rfl
    (fun _ _ => progress p.core _ _ _ _) (fun _ _ _ _ => rfl) (fun _ _ _ _ _ => progress p.core _ _ _ _)
    fun _ _ => (requested _ _ rfl).trans (progress p.core _ _ _ _)

theorem core_decodePhase (p : Pipeline) : f p.decodePhase.state.core = f p.core := by
  have completed : f (p.completeDecode p.nothingOlder).1.core = f p.core := by
    unfold completeDecode
    cases p.decodeStep p.nothingOlder with
    | idle | faultHeld | rejected => rfl
    | fault addr => exact requested p.core _ rfl
    | waiting | blocked => exact progress p.core _ _ _ _
    | issued out =>
      dsimp only
      rw [Core.reserve_eq]
      exact progress p.core _ _ _ _
  rcases h : p.completeDecode p.nothingOlder with ⟨q, err | status⟩ <;> rw [h] at completed
  · rw [decodePhase_of_error h]
    exact completed
  · rw [decodePhase_of_ok h, core_decodeRest]
    exact completed

/-- What the progress of a program leaves alone, and also accesses and the requests that phases make for a
stop, no pulse changes, whatever becomes of it. -/
theorem core_pulse
    (settled : ∀ core x bus, f (core.settle (Executed.access x bus core.memory)) = f core)
    (p : Pipeline) : f p.pulse.1.core = f p.core := by
  cases live : p.core.stop with
  | some reason => rw [pulse_of_stopped live]
  | none =>
    rw [pulse_of_live live]
    refine runPhases_keeps (fun q => f q.core = f p.core) _ (fun phase hm q kept => ?_)
      (progress p.core _ _ _ _)
    simp only [phases, List.mem_cons, List.not_mem_nil, or_false] at hm
    refine Eq.trans ?_ kept
    rcases hm with rfl | rfl | rfl | rfl | rfl
    · exact core_writebackPhase f (Core.kept_commit fun core _ _ _ => progress core _ _ _ _) q
    · exact core_accessPhase f settled (fun core => progress core _ _ _ _) q
    · exact core_executePhase progress requested q
    · exact core_decodePhase progress requested q
    · exact core_fetchPhase progress q

end Kept

/-! ## What a phase counts

A halt counts itself as retired, and writeback what it held. -/

/-- Decode counts stalls only. -/
theorem counted_decodePhase (p : Pipeline) :
    p.decodePhase.state.core.statistics.cycles = p.core.statistics.cycles ∧
      p.decodePhase.state.core.statistics.retired = p.core.statistics.retired := by
  have completed : (p.completeDecode p.nothingOlder).1.core.statistics.cycles =
        p.core.statistics.cycles ∧
      (p.completeDecode p.nothingOlder).1.core.statistics.retired = p.core.statistics.retired := by
    unfold completeDecode
    cases p.decodeStep p.nothingOlder with
    | issued out =>
      dsimp only
      rw [Core.reserve_eq]
      exact ⟨rfl, rfl⟩
    | _ => exact ⟨rfl, rfl⟩
  rcases h : p.completeDecode p.nothingOlder with ⟨q, err | status⟩ <;> rw [h] at completed
  · rw [decodePhase_of_error h]
    exact completed
  · rw [decodePhase_of_ok h, core_decodeRest]
    exact completed

theorem counted_fetchPhase (p : Pipeline) :
    p.fetchPhase.state.core.statistics.cycles = p.core.statistics.cycles ∧
      p.fetchPhase.state.core.statistics.retired = p.core.statistics.retired := by
  obtain ⟨core, ifId, fetch, result, _, _, counted⟩ := fetchPhase_eq p
  rw [result]
  exact counted

theorem cycles_writebackPhase (p : Pipeline) :
    p.writebackPhase.state.core.statistics.cycles = p.core.statistics.cycles :=
  core_writebackPhase (·.statistics.cycles) Core.cycles_commit p

theorem cycles_accessPhase (p : Pipeline) :
    p.accessPhase.state.core.statistics.cycles = p.core.statistics.cycles :=
  core_accessPhase (·.statistics.cycles)
    (fun core x bus => by rw [Core.statistics_settle]) (fun _ => rfl) p

theorem counted_executePhase (p : Pipeline) :
    p.executePhase.state.core.statistics.cycles = p.core.statistics.cycles ∧
      p.core.statistics.retired ≤ p.executePhase.state.core.statistics.retired :=
  executePhase_keeps (fun q => q.core.statistics.cycles = p.core.statistics.cycles ∧
      p.core.statistics.retired ≤ q.core.statistics.retired) (fun _ _ h => h) ⟨rfl, Nat.le_refl _⟩
    (fun _ _ => ⟨rfl, Nat.le_refl _⟩) (fun _ _ _ _ => ⟨rfl, Nat.le_refl _⟩)
    (fun _ _ _ _ _ => ⟨rfl, Nat.le_refl _⟩) fun _ _ => ⟨rfl, Nat.le_succ _⟩

end Pipeline

end Legv8
