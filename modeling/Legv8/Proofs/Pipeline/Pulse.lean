import Legv8.Proofs.Pipeline.Reservations

/-! # A pulse is a chain of moves

Each phase completes at most one instruction, which is one move, and lets a unit take the next one, which
moves nothing in the view. Since the phases run back to front, the latch behind a unit is empty whenever
the unit completes, and a stop that an access requests in this pulse has its instruction still in flight.
As long as reservations follow the instructions, the only failure of a pulse is a word that decode does
not accept. -/
namespace Legv8.Pipeline

open View (Move Moves)

variable {p : Pipeline}

/-! ## Taking from a latch -/

theorem view_takeWriteback (h : p.writeback = none) : p.takeWriteback.view = p.view := by
  unfold takeWriteback
  cases hl : p.latches.memWb <;> simp [view, h, hl]

theorem view_takeAccess (h : p.access.pending = none) : p.takeAccess.view = p.view := by
  unfold takeAccess
  cases hl : p.latches.exMem <;> simp [view, h, hl]

theorem view_takeExecute (h : p.execute.pending = none) : p.takeExecute.view = p.view := by
  unfold takeExecute
  cases hl : p.latches.idEx <;> simp [view, h, hl]

theorem view_takeDecode (h : p.decode = none) : p.takeDecode.view = p.view := by
  unfold takeDecode
  cases hl : p.latches.ifId <;> simp [view, h, hl]

theorem view_admitExecute (p : Pipeline) : p.admitExecute.view = p.view := by
  unfold admitExecute
  cases h : p.execute.pending with
  | some y => rfl
  | none =>
    cases p.execute.flushing with
    | true => rfl
    | false => exact view_takeExecute h

/-! ## Discarding -/

theorem view_squash (p : Pipeline) : ∃ held, p.squash.view =
    { p.view with
      core := p.core.discard p.latches.idEx held
      issued := p.execute.pending.toList
      fetched := [] } := by
  refine ⟨p.fetch.pending.toNat + p.decode.isSome.toNat + p.latches.ifId.isSome.toNat +
    p.latches.idEx.isSome.toNat, ?_⟩
  unfold squash Core.discard
  cases p.latches.idEx <;> simp [view]

theorem view_flush (p : Pipeline) (target : UInt64) : ∃ held, (p.flush target).view =
    { p.view with
      core := (p.core.discard p.latches.idEx held).divert target
      issued := p.execute.pending.toList
      fetched := [] } := by
  obtain ⟨held, squashed⟩ := p.view_squash
  refine ⟨held, ?_⟩
  have flushed : (p.flush target).view =
      { p.squash.view with core := p.squash.view.core.divert target } := rfl
  rw [flushed, squashed]

theorem view_halt (p : Pipeline) (pc : UInt64) : ∃ held, (p.halt pc).view =
    { p.view with
      core := ((p.core.discard p.latches.idEx held).retire .hlt).requestStop (.halted pc)
      issued := p.execute.pending.toList
      fetched := [] } := by
  obtain ⟨held, squashed⟩ := p.view_squash
  refine ⟨held, ?_⟩
  have halted : (p.halt pc).view =
      { p.squash.view with core := (p.squash.view.core.retire .hlt).requestStop (.halted pc) } := rfl
  rw [halted, squashed]

/-! ## What a unit leaves behind -/

theorem memWb_takeWriteback (p : Pipeline) : p.takeWriteback.latches.memWb = none := by
  unfold takeWriteback
  cases hl : p.latches.memWb with
  | none => exact hl
  | some w => rfl

theorem exMem_takeAccess (p : Pipeline) : p.takeAccess.latches.exMem = none := by
  unfold takeAccess
  cases hl : p.latches.exMem with
  | none => exact hl
  | some x => rfl

theorem core_takeWriteback (p : Pipeline) : p.takeWriteback.core = p.core := by
  unfold takeWriteback
  cases p.latches.memWb <;> rfl

theorem core_takeAccess (p : Pipeline) : p.takeAccess.core = p.core := by
  unfold takeAccess
  cases p.latches.exMem <;> rfl

theorem memWb_takeAccess (p : Pipeline) : p.takeAccess.latches.memWb = p.latches.memWb := by
  unfold takeAccess
  cases p.latches.exMem <;> rfl

theorem open_admitExecute (h : p.Open) : p.admitExecute.Open := by
  unfold admitExecute takeExecute
  split
  · cases p.latches.idEx <;> exact h
  · exact h

theorem core_takeDecode (p : Pipeline) : p.takeDecode.core = p.core := by
  unfold takeDecode
  cases p.latches.ifId <;> rfl

/-! ## Counting -/

theorem paces_countCycle (core : Core) : core.Paces core.countCycle := ⟨_, _, _, rfl⟩

theorem paces_countDataStall (core : Core) : core.Paces core.countDataStall := ⟨_, _, _, rfl⟩

theorem paces_countStructuralStall (core : Core) : core.Paces core.countStructuralStall :=
  ⟨_, _, _, rfl⟩

theorem drained_iff (p : Pipeline) : p.drained = true ↔ p.view.accessed = [] ∧ p.view.executed = [] := by
  unfold drained view
  cases p.access.pending <;> cases p.writeback <;> cases p.latches.exMem <;>
    cases p.latches.memWb <;> simp

theorem nothingOlder_iff (p : Pipeline) : p.nothingOlder = true ↔
    p.view.accessed = [] ∧ p.view.executed = [] ∧ p.view.issued = [] := by
  have issued : (p.execute.pending.isNone && p.latches.idEx.isNone) = true ↔ p.view.issued = [] := by
    unfold view
    cases p.execute.pending <;> cases p.latches.idEx <;> simp
  rw [nothingOlder, Bool.and_eq_true, issued, drained_iff]
  constructor
  · rintro ⟨hi, ha, hx⟩; exact ⟨ha, hx, hi⟩
  · rintro ⟨ha, hx, hi⟩; exact ⟨hi, ha, hx⟩

/-! ## The phases -/

theorem writebackPhase_moves (live : p.core.stop = none) (h : p.view.Reserved) :
    ∃ q, p.writebackPhase = .next q ∧ Moves p.view q.view ∧ q.core.stop = none ∧
      q.latches.memWb = none := by
  unfold writebackPhase completeWriteback
  cases hw : p.writeback with
  | none =>
    refine ⟨p.takeWriteback, rfl, ?_, by rw [core_takeWriteback, live], memWb_takeWriteback p⟩
    rw [view_takeWriteback hw]
  | some w =>
    have oldest := accessed_of_writeback hw
    obtain ⟨op, _, commit⟩ := h.commit oldest
    have move := Move.retire live oldest commit
    replace commit : p.core.commit w = _ := commit
    dsimp only
    rw [commit]
    refine ⟨_, rfl, ?_, by rw [core_takeWriteback]; exact live, memWb_takeWriteback _⟩
    rw [view_takeWriteback rfl]
    exact .single move

theorem accessPhase_moves (live : p.core.stop = none) (empty : p.latches.memWb = none) :
    ∃ q, p.accessPhase = .next q ∧ Moves p.view q.view ∧ q.latches.exMem = none ∧ q.Open := by
  unfold accessPhase completeAccess accessStep
  cases hx : p.access.pending with
  | none =>
    refine ⟨p.takeAccess, by simp only [hx, Option.isNone_none, if_true], ?_, exMem_takeAccess p, ?_⟩
    · rw [view_takeAccess hx]
    · exact .inl ((congrArg Core.stop (core_takeAccess p)).trans live)
  | some x =>
    have oldest := executed_of_access hx
    have younger : ∀ w, p.view.accessed ++ [w] = p.writeback.toList ++ [w] := by
      intro w
      simp only [view, empty, Option.toList_none, List.append_nil]
    simp only [empty, Option.isNone_none, if_true]
    generalize result : x.access p.access.bus p.core.memory = access
    have move := Move.access (v := p.view) live oldest result
    rw [younger] at move
    refine ⟨_, rfl, ?_, exMem_takeAccess _, .inr ?_⟩
    · rw [view_takeAccess rfl]
      exact .single move
    · rw [memWb_takeAccess]
      rfl

theorem executePhase_moves (isOpen : p.Open) (empty : p.latches.exMem = none) (h : p.view.Reserved) :
    (∃ q, p.executePhase = .next q ∧ Moves p.view q.view ∧ q.Open) ∨
      (∃ q, p.executePhase = .done q ∧ Moves p.view q.view ∧ q.Resting) := by
  unfold executePhase completeExecute executeStep
  cases hy : p.execute.pending with
  | none =>
    refine .inl ⟨p.admitExecute, rfl, ?_, open_admitExecute isOpen⟩
    rw [view_admitExecute]
  | some y =>
    have oldest := issued_of_execute hy
    have younger : ∀ x, p.view.executed ++ [x] = p.access.pending.toList ++ [x] := by
      intro x
      simp only [view, empty, Option.toList_none, List.append_nil]
    obtain ⟨op, _, result⟩ := h.execute (y := y) (by rw [oldest]; exact List.mem_cons_self) p.execute.alu
    rcases p.execute.alu.perform_cases op y with ⟨_, halts⟩ | ⟨_, out, target, alu, forwards, _⟩
    · rw [halts] at result
      cases hd : p.drained with
      | false =>
        refine .inl ⟨p.admitExecute, by simp only [result, Bool.false_eq_true, if_false], ?_,
          open_admitExecute isOpen⟩
        rw [view_admitExecute]
      | true =>
        have alone := p.drained_iff.mp hd
        have live : p.core.stop = none := isOpen.view.resolve_right (absurd alone.1)
        obtain ⟨held, halted⟩ :=
          view_halt { p with execute := { p.execute with pending := none } } y.pc
        simp only [result, if_true]
        refine .inr ⟨_, rfl, .single ?_, .inl ?_⟩
        · rw [halted]
          exact Move.halt held live alone oldest result
        · rw [halted]
          exact alone.1
    · rw [forwards] at result
      simp only [result, empty, Latch.publish_none]
      cases target with
      | none =>
        have move := Move.execute isOpen.view oldest result
        rw [younger] at move
        refine .inl ⟨_, rfl, ?_, open_admitExecute isOpen⟩
        rw [view_admitExecute]
        exact .single move
      | some target =>
        obtain ⟨held, flushed⟩ := view_flush
          { p with
            core := p.core.countTaken
            latches := { p.latches with exMem := some out }
            execute := { alu, pending := none, flushing := true } } target
        have move := Move.redirect held isOpen.view oldest result
        rw [younger] at move
        refine .inl ⟨_, rfl, ?_, open_admitExecute isOpen⟩
        rw [view_admitExecute, flushed]
        exact .single move

/-- What decode does with the state that its completion leaves behind. -/
def decodeRest (q : Pipeline) : Flow :=
  if q.core.stop.isSome then .done q else .next (if q.decode.isNone then q.takeDecode else q)

theorem decodeRest_moves {v : View} {q : Pipeline} (m : Moves v q.view)
    (rests : q.core.stop ≠ none → q.Resting) :
    (∃ r, q.decodeRest = .next r ∧ Moves v r.view ∧ r.core.stop = none) ∨
      (∃ r, q.decodeRest = .done r ∧ Moves v r.view ∧ r.Resting) := by
  unfold decodeRest
  cases live : q.core.stop with
  | some reason => exact .inr ⟨q, rfl, m, rests (by rw [live]; exact Option.some_ne_none _)⟩
  | none =>
    cases hd : q.decode with
    | some e => exact .inl ⟨q, rfl, m, live⟩
    | none =>
      refine .inl ⟨q.takeDecode, rfl, ?_, by rw [core_takeDecode, live]⟩
      rw [view_takeDecode hd]
      exact m

theorem decodePhase_of_error {q : Pipeline} {err : ExecutionError}
    (h : p.completeDecode p.nothingOlder = (q, .error err)) : p.decodePhase = .failed q err := by
  unfold decodePhase
  rw [h]

theorem decodePhase_of_ok {q : Pipeline} {status : Status}
    (h : p.completeDecode p.nothingOlder = (q, .ok status)) : p.decodePhase = q.decodeRest := by
  unfold decodePhase decodeRest
  rw [h]

/-- A completed decode issues, reports a fault, waits or rejects. -/
theorem completeDecode_moves (isOpen : p.Open) :
    (∃ q status, p.completeDecode p.nothingOlder = (q, .ok status) ∧ Moves p.view q.view ∧
        (q.core.stop ≠ none → q.Resting)) ∨
      ∃ e err, p.completeDecode p.nothingOlder = (p, .error err) ∧ p.Rejects e err := by
  have rests : p.core.stop ≠ none → p.Resting := fun stop => .inr (isOpen.resolve_left stop)
  unfold completeDecode decodeStep
  cases he : p.decode with
  | none => exact .inl ⟨p, _, rfl, .refl, rests⟩
  | some e =>
    have oldest := fetched_of_decode he
    have waits : ∀ core, p.core.Paces core → Moves p.view { p with core, decode := some e }.view := by
      intro core paces
      rw [← he]
      exact .single (.pace paces)
    dsimp only
    cases hf : e.fault with
    | some addr =>
      cases hn : p.nothingOlder with
      | false => exact .inl ⟨p, _, rfl, .refl, rests⟩
      | true =>
        have alone := p.nothingOlder_iff.mp hn
        have live : p.core.stop = none := isOpen.view.resolve_right (absurd alone.1)
        exact .inl ⟨_, _, rfl, .single (Move.fault live alone oldest hf), fun _ => .inl alone.1⟩
    | none =>
      cases ha : e.accept with
      | error err => exact .inr ⟨e, err, rfl, he, hf, ha, isOpen⟩
      | ok i =>
        dsimp only
        cases hp : i.pendingSource? p.core.reservations with
        | some r => exact .inl ⟨_, _, rfl, waits _ (paces_countDataStall p.core), rests⟩
        | none =>
          dsimp only
          cases hi : p.latches.idEx with
          | some y => exact .inl ⟨_, _, rfl, waits _ (paces_countStructuralStall p.core), rests⟩
          | none =>
            have younger : ∀ y, p.view.issued ++ [y] = p.execute.pending.toList ++ [y] := by
              intro y
              simp only [view, hi, Option.toList_none, List.append_nil]
            have move := Move.issue isOpen.view oldest hf ha hp
            rw [younger] at move
            refine .inl ⟨_, _, rfl, .single move, fun stop => rests fun live => stop ?_⟩
            simp only [Core.reserve_eq, live]

theorem decodePhase_moves (isOpen : p.Open) :
    ((∃ q, p.decodePhase = .next q ∧ Moves p.view q.view ∧ q.core.stop = none) ∨
      (∃ q, p.decodePhase = .done q ∧ Moves p.view q.view ∧ q.Resting)) ∨
      (∃ e err, p.decodePhase = .failed p err ∧ p.Rejects e err) := by
  rcases completeDecode_moves isOpen with ⟨q, status, completed, moves, rests⟩ |
    ⟨e, err, failed, rejects⟩
  · rw [decodePhase_of_ok completed]
    exact .inl (decodeRest_moves moves rests)
  · exact .inr ⟨e, err, decodePhase_of_error failed, rejects⟩

theorem fetchPhase_moves (live : p.core.stop = none) :
    ∃ q, p.fetchPhase = .next q ∧ Moves p.view q.view ∧ q.core.stop = none := by
  have launch : ∀ q : Pipeline,
      (if !q.fetch.pending && q.latches.ifId.isNone then q.launchFetch else q).view = q.view := by
    intro q
    cases !q.fetch.pending && q.latches.ifId.isNone <;> rfl
  refine ⟨_, rfl, ?_, (congrArg (·.core.stop) (launch _)).trans ?_⟩
  · rw [launch]
    unfold completeFetch fetchStep
    cases p.fetch.pending with
    | false => exact .refl
    | true =>
      cases hi : p.latches.ifId with
      | some e => exact .single (.pace (paces_countStructuralStall p.core))
      | none =>
        have younger : ∀ e, p.view.fetched ++ [e] = p.decode.toList ++ [e] := by
          intro e
          simp only [view, hi, Option.toList_none, List.append_nil]
        obtain ⟨bus, read⟩ : ∃ bus, p.fetch.bus.fetch p.core.memory p.core.pc =
            (p.core.memory.entryAt p.core.pc, bus) :=
          ⟨_, Prod.ext (p.core.memory.fetch_fst p.fetch.bus p.core.pc) rfl⟩
        have move := Move.fetch (v := p.view) live rfl
        rw [younger] at move
        simp only [read, if_true]
        exact .single move
  · unfold completeFetch fetchStep
    cases p.fetch.pending with
    | false => exact live
    | true => cases p.latches.ifId <;> exact live

/-- A pulse that takes place: it begins with the retirement of the oldest instruction, and the rest is a
chain of moves as well. -/
theorem live_pulse_moves (live : p.core.stop = none) (h : p.view.Reserved) :
    ∃ q, p.countCycle.writebackPhase = .next q ∧ Moves p.view q.view ∧ Moves q.view p.pulse.1.view ∧
      (∀ err, p.pulse.2 = some err → ∃ e, p.pulse.1.Rejects e err) ∧
      (p.pulse.1.core.stop ≠ none → p.pulse.1.Resting) := by
  have m₀ : Moves p.view p.countCycle.view := .single (.pace (paces_countCycle p.core))
  obtain ⟨q₁, e₁, m₁, live₁, empty₁⟩ := writebackPhase_moves (p := p.countCycle) live (h.moves m₀)
  obtain ⟨q₂, e₂, m₂, empty₂, open₂⟩ := accessPhase_moves live₁ empty₁
  refine ⟨q₁, e₁, m₀.trans m₁, ?_⟩
  unfold pulse
  simp only [live, Option.isSome_none, Bool.false_eq_true, if_false, phases, runPhases, e₁, e₂]
  rcases executePhase_moves open₂ empty₂ (h.moves ((m₀.trans m₁).trans m₂)) with
    ⟨q₃, e₃, m₃, open₃⟩ | ⟨q₃, e₃, m₃, rests₃⟩
  · simp only [e₃]
    rcases decodePhase_moves open₃ with
      (⟨q₄, e₄, m₄, live₄⟩ | ⟨q₄, e₄, m₄, rests₄⟩) | ⟨e, err, e₄, rejects⟩
    · obtain ⟨q₅, e₅, m₅, live₅⟩ := fetchPhase_moves live₄
      simp only [e₄, e₅]
      exact ⟨((m₂.trans m₃).trans m₄).trans m₅, fun _ h => (by cases h), fun stop => absurd live₅ stop⟩
    · simp only [e₄]
      exact ⟨(m₂.trans m₃).trans m₄, fun _ h => (by cases h), fun _ => rests₄⟩
    · simp only [e₄]
      refine ⟨m₂.trans m₃, fun _ h => ⟨e, ?_⟩, fun stop => .inr (open₃.resolve_left stop)⟩
      rw [← Option.some.inj h]
      exact rejects
  · simp only [e₃]
    exact ⟨m₂.trans m₃, fun _ h => (by cases h), fun _ => rests₃⟩

theorem pulse_of_stopped {reason : StopReason} (stop : p.core.stop = some reason) : p.pulse = (p, none) := by
  unfold pulse
  rw [stop]
  rfl

/-- A pulse is a chain of moves. It fails only at a word that is not accepted, and if it stops the machine,
the access that is to blame has just been made. -/
theorem pulse_moves (h : p.view.Reserved) :
    Moves p.view p.pulse.1.view ∧
      (∀ err, p.pulse.2 = some err → ∃ e, p.pulse.1.Rejects e err) ∧
      (p.core.stop = none → p.pulse.1.core.stop ≠ none → p.pulse.1.Resting) := by
  cases live : p.core.stop with
  | some reason =>
    rw [pulse_of_stopped live]
    exact ⟨.refl, fun _ h => (by cases h), fun h => by cases h⟩
  | none =>
    obtain ⟨q, _, retires, rest, fails, rests⟩ := live_pulse_moves live h
    exact ⟨retires.trans rest, fails, fun _ => rests⟩

end Legv8.Pipeline
