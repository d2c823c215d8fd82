import Legv8.Proofs.Pipeline.Progress
import Legv8.Proofs.Refinement.FetchFault

/-! # Every fetch is accounted for

A fetch that has been launched is under way in one of the nine stations, or its instruction has retired, or
a flush or a halt has discarded it. The one other way to leave the pipeline is a report by decode that the
fetch ran outside memory. No station is written over, so the account is even after every pulse, whether the
pulse ends as usual, stops the machine or fails. -/
namespace Legv8

/-! ## Counters -/

/-- Retired instructions add up over their classes, and every branch that was taken has flushed. -/
structure Statistics.Consistent (s : Statistics) : Prop where
  classes : s.Balanced
  flushed : s.flushes = s.taken

namespace Statistics

theorem squashed_retire (s : Statistics) (op : Operation) : (s.retire op).squashed = s.squashed := by
  cases op <;> rfl

theorem flushes_retire (s : Statistics) (op : Operation) : (s.retire op).flushes = s.flushes := by
  cases op <;> rfl

theorem Consistent.retire {s : Statistics} (h : s.Consistent) (op : Operation) :
    (s.retire op).Consistent where
  classes := h.classes.retire op
  flushed := by rw [flushes_retire, taken_retire, h.flushed]

end Statistics

theorem Core.consistent_commit {core : Core} (h : core.statistics.Consistent) (e : Accessed) :
    (core.commit e).1.statistics.Consistent := by
  unfold commit
  cases Operation.ofWord? e.word with
  | none => exact h
  | some op =>
    dsimp only
    split
    · split <;> exact h.retire op
    · exact h.retire op

/-- A branch is counted as taken and as a flush in one move, and a retirement in its class. -/
theorem View.Move.consistent {v v' : View} (m : v.Move v') (h : v.core.statistics.Consistent) :
    v'.core.statistics.Consistent := by
  cases m with
  | pace paces =>
    obtain ⟨_, _, _, rfl⟩ := paces
    exact ⟨h.classes, h.flushed⟩
  | @retire w rest core written live oldest commit =>
    have kept := Core.consistent_commit h w
    rw [commit] at kept
    exact kept
  | access live oldest result => exact (Core.statistics_settle _ _).symm ▸ h
  | execute isOpen oldest result => exact h
  | redirect held isOpen oldest result => exact ⟨h.classes, congrArg (· + 1) h.flushed⟩
  | @halt y newest alu held live alone oldest result =>
    have kept : (v.core.discard newest held).statistics.Consistent := ⟨h.classes, h.flushed⟩
    exact kept.retire .hlt
  | issue isOpen oldest inside accept ready =>
    rw [Core.reserve_eq]
    exact h
  | fault live alone oldest outside => exact h
  | fetch live result => exact h

theorem View.consistent_of_moves {v v' : View} (m : v.Moves v') (h : v.core.statistics.Consistent) :
    v'.core.statistics.Consistent := by
  induction m with
  | refl => exact h
  | tail _ move ih => exact move.consistent ih

namespace Pipeline

variable {p q : Pipeline}

/-! ## The account -/

/-- The fetches whose instruction has retired, was discarded or is still under way. -/
def accounted (p : Pipeline) : Nat :=
  p.core.statistics.retired + p.core.statistics.squashed + p.stations.count true

/-- The fetch phase launches a fetch: none is under way once it has completed its own, and the latch to
decode is free. -/
def launches (p : Pipeline) : Bool :=
  !p.completeFetch.1.fetch.pending && p.completeFetch.1.latches.ifId.isNone

/-- The state in which a pulse comes to fetch, if it gets as far. -/
def atFetch? (p : Pipeline) : Option Pipeline := p.atDecode?.bind fun q => q.decodePhase.next?

/-- How many fetches the first `n` pulses launch. -/
def launched (p : Pipeline) : (n : Nat) → Nat
  | 0 => 0
  | n + 1 => p.launched n + ((p.pulses n).atFetch?.any launches).toNat

/-- How many fetches decode reports in the first `n` pulses to have run outside memory. -/
def reported (p : Pipeline) : (n : Nat) → Nat
  | 0 => 0
  | n + 1 => p.reported n + (p.pulses n).reportedFetch?.isSome.toNat

/-- The first missing byte of a fetch, if decode reports it. -/
def DecodeStep.reported? : DecodeStep → Option UInt64
  | .fault addr => some addr
  | _ => none

theorem reportedFetch?_eq (p : Pipeline) :
    p.reportedFetch? = p.atDecode?.bind fun q => (q.decodeStep q.nothingOlder).reported? := rfl

theorem fetchPhase_eq_launches (p : Pipeline) : p.fetchPhase =
    .next (if p.launches then p.completeFetch.1.launchFetch else p.completeFetch.1) := rfl

theorem accounted_eq (p : Pipeline) : p.accounted =
    p.core.statistics.retired + p.core.statistics.squashed +
      (p.writeback.isSome.toNat + p.latches.memWb.isSome.toNat + p.access.pending.isSome.toNat +
        p.latches.exMem.isSome.toNat + p.execute.pending.isSome.toNat + p.latches.idEx.isSome.toNat +
        p.decode.isSome.toNat + p.latches.ifId.isSome.toNat + p.fetch.pending.toNat) := by
  have cons : ∀ (b : Bool) (l : List Bool), (b :: l).count true = b.toNat + l.count true := by
    intro b l
    cases b
    · rw [List.count_cons_of_ne Bool.false_ne_true, Bool.toNat_false, Nat.zero_add]
    · rw [List.count_cons_self, Bool.toNat_true, Nat.add_comm]
  rw [accounted, stations]
  simp only [cons, List.count_nil, Nat.add_zero, ← Nat.add_assoc]

/-! ## Phases

Every phase moves instructions from one station to a free one. A station that an instruction enters is known
to be empty, which is why none is lost. -/

theorem accounted_takeWriteback (h : p.writeback = none) : p.takeWriteback.accounted = p.accounted := by
  rw [takeWriteback_eq h, accounted_eq, accounted_eq, h]
  simp only [Option.isSome_none, Bool.toNat_false]
  omega

theorem accounted_takeAccess (h : p.access.pending = none) : p.takeAccess.accounted = p.accounted := by
  rw [takeAccess_eq h, accounted_eq, accounted_eq, h]
  simp only [Option.isSome_none, Bool.toNat_false]
  omega

theorem accounted_takeExecute (h : p.execute.pending = none) : p.takeExecute.accounted = p.accounted := by
  rw [takeExecute_eq h, accounted_eq, accounted_eq, h]
  simp only [Option.isSome_none, Bool.toNat_false]
  omega

theorem accounted_takeDecode (h : p.decode = none) : p.takeDecode.accounted = p.accounted := by
  rw [takeDecode_eq h, accounted_eq, accounted_eq, h]
  simp only [Option.isSome_none, Bool.toNat_false]
  omega

theorem accounted_writebackPhase (h : p.view.Reserved) :
    p.writebackPhase.state.accounted = p.accounted := by
  unfold writebackPhase completeWriteback
  cases hw : p.writeback with
  | none => exact accounted_takeWriteback hw
  | some w =>
    obtain ⟨op, _, commit⟩ := h.commit (accessed_of_writeback hw)
    replace commit : p.core.commit w = _ := commit
    dsimp only
    rw [commit]
    refine (accounted_takeWriteback rfl).trans ?_
    rw [accounted_eq, accounted_eq, hw]
    simp only [show p.view.core = p.core from rfl, Statistics.retired_retire, Statistics.squashed_retire,
      Option.isSome_some, Option.isSome_none, Bool.toNat_true, Bool.toNat_false]
    omega

theorem accounted_accessPhase (p : Pipeline) : p.accessPhase.state.accounted = p.accounted := by
  have taken : ∀ q : Pipeline,
      (if q.access.pending.isNone then q.takeAccess else q).accounted = q.accounted := by
    intro q
    split
    · next free => exact accounted_takeAccess (Option.isNone_iff_eq_none.mp free)
    · rfl
  refine (taken p.completeAccess.1).trans ?_
  unfold completeAccess accessStep
  cases hx : p.access.pending with
  | none => rfl
  | some x =>
    cases hm : p.latches.memWb with
    | some w => rfl
    | none =>
      rw [accounted_eq, accounted_eq, hx, hm]
      simp only [Core.statistics_settle, Option.isSome_some, Option.isSome_none, Bool.toNat_true,
        Bool.toNat_false]

/-- What a flush or a halt discards is counted as squashed. -/
theorem accounted_squash (p : Pipeline) : p.squash.accounted = p.accounted := by
  rw [accounted_eq, accounted_eq]
  simp only [squash, Option.isSome_none, Bool.toNat_false]
  omega

theorem accounted_flush (p : Pipeline) (target : UInt64) : (p.flush target).accounted = p.accounted :=
  accounted_squash p

theorem accounted_halt (p : Pipeline) (pc : UInt64) : (p.halt pc).accounted = p.accounted + 1 := by
  rw [← accounted_squash p, accounted_eq, accounted_eq]
  simp only [halt, Core.requestStop, Core.retire, Statistics.retired_retire, Statistics.squashed_retire]
  omega

/-- Execution moves an instruction on, discards what is behind it, or stops the machine; each time the
account stays even. -/
theorem accounted_executePhase (p : Pipeline) : p.executePhase.state.accounted = p.accounted := by
  refine executePhase_keeps (·.accounted = p.accounted) (fun q free kept => ?_) rfl (fun _ _ => rfl)
    (fun held empty out alu => ?_) (fun held empty out target alu => ?_) (fun held pc => ?_)
  · rw [← kept, ← accounted_takeExecute free, takeExecute_eq free]
  · rw [accounted_eq, accounted_eq, held, empty]
    simp only [Option.isSome_some, Option.isSome_none, Bool.toNat_true, Bool.toNat_false]
  · rw [accounted_flush, accounted_eq, accounted_eq, held, empty]
    simp only [Core.countTaken, Option.isSome_some, Option.isSome_none, Bool.toNat_true,
      Bool.toNat_false]
  · rw [accounted_halt, accounted_eq, accounted_eq, held]
    simp only [Option.isSome_none, Bool.toNat_true, Bool.toNat_false]
    omega

theorem accounted_decodeRest (p : Pipeline) : p.decodeRest.state.accounted = p.accounted := by
  unfold decodeRest
  split
  · rfl
  · dsimp only [Flow.state]
    split
    · next free => exact accounted_takeDecode (Option.isNone_iff_eq_none.mp free)
    · rfl

/-- Decode keeps what it holds, issues it into the free latch, or reports it. -/
theorem accounted_completeDecode (p : Pipeline) (older : Bool) :
    (p.completeDecode older).1.accounted +
      (p.decodeStep older).reported?.isSome.toNat = p.accounted := by
  unfold completeDecode decodeStep
  cases he : p.decode with
  | none => rfl
  | some e =>
    dsimp only
    cases e.fault with
    | some addr =>
      cases older with
      | false => rfl
      | true =>
        rw [accounted_eq, accounted_eq, he]
        simp only [DecodeStep.reported?, Core.reportFault, Core.requestStop, if_true,
          Option.isSome_some, Option.isSome_none, Bool.toNat_true, Bool.toNat_false]
        omega
    | none =>
      dsimp only
      cases e.accept with
      | error err => rfl
      | ok i =>
        dsimp only
        cases i.pendingSource? p.core.reservations with
        | some r =>
          rw [accounted_eq, accounted_eq, he]
          rfl
        | none =>
          dsimp only
          cases hi : p.latches.idEx with
          | some y =>
            rw [accounted_eq, accounted_eq, he, hi]
            rfl
          | none =>
            rw [accounted_eq, accounted_eq, he, hi]
            simp only [DecodeStep.reported?, Core.reserve_eq, Option.isSome_some, Option.isSome_none,
              Bool.toNat_true, Bool.toNat_false]
            omega

theorem accounted_decodePhase (p : Pipeline) :
    p.decodePhase.state.accounted +
      (p.decodeStep p.nothingOlder).reported?.isSome.toNat = p.accounted := by
  have even := p.accounted_completeDecode p.nothingOlder
  rcases completed : p.completeDecode p.nothingOlder with ⟨q, err | status⟩ <;> rw [completed] at even
  · rw [decodePhase_of_error completed]
    exact even
  · rw [decodePhase_of_ok completed, accounted_decodeRest]
    exact even

theorem accounted_completeFetch (p : Pipeline) : p.completeFetch.1.accounted = p.accounted := by
  unfold completeFetch fetchStep
  cases hf : p.fetch.pending with
  | false => rfl
  | true =>
    cases hl : p.latches.ifId with
    | some e => rfl
    | none =>
      rw [accounted_eq, accounted_eq, hf, hl]
      simp only [if_true, Option.isSome_some, Option.isSome_none, Bool.toNat_true, Bool.toNat_false]

theorem accounted_launchFetch (free : p.fetch.pending = false) :
    p.launchFetch.accounted = p.accounted + 1 := by
  rw [accounted_eq, accounted_eq, free]
  simp only [launchFetch, Bool.toNat_true, Bool.toNat_false]
  omega

theorem accounted_fetchPhase (p : Pipeline) :
    p.fetchPhase.state.accounted = p.accounted + p.launches.toNat := by
  rw [fetchPhase_eq_launches, ← accounted_completeFetch p]
  cases launched : p.launches with
  | false => rfl
  | true =>
    rw [launches, Bool.and_eq_true, Bool.not_eq_true'] at launched
    exact accounted_launchFetch launched.1

/-! ## Pulses -/

theorem ComesToExecute.accounted (comes : p.ComesToExecute q) (h : p.view.Reserved) :
    q.accounted = p.accounted := by
  obtain ⟨_, r, writeback, access⟩ := comes
  have first := accounted_writebackPhase (h.move (.pace (paces_countCycle p.core)) :
    p.countCycle.view.Reserved)
  have second := r.accounted_accessPhase
  rw [writeback] at first
  rw [access] at second
  exact second.trans first

theorem ComesToExecute.atDecode? (comes : p.ComesToExecute q) :
    p.atDecode? = q.executePhase.next? := by
  obtain ⟨live, r, writeback, access⟩ := comes
  unfold Pipeline.atDecode?
  rw [live, writeback]
  simp only [Option.isSome_none, Bool.false_eq_true, if_false, Flow.next?, Option.bind_some, access]

/-- A pulse that comes to decode launches a fetch only behind a decode phase that goes on. -/
theorem ComesToDecode.accounted_pulse (comes : p.ComesToDecode q) :
    p.pulse.1.accounted +
      (q.decodeStep q.nothingOlder).reported?.isSome.toNat = q.accounted + (q.decodePhase.next?.any launches).toNat := by
  have decoded := q.accounted_decodePhase
  rw [comes.pulse, show phases.drop 3 = [⟨decodePhase, _⟩, ⟨fetchPhase, _⟩] from rfl]
  cases ends : q.decodePhase with
  | next r =>
    rw [ends] at decoded
    have fetched := r.accounted_fetchPhase
    rw [fetchPhase_eq_launches] at fetched
    simp only [runPhases, ends, fetchPhase_eq_launches, Flow.next?, Option.any_some]
    rw [← decoded]
    simp only [Flow.state] at fetched ⊢
    omega
  | done r =>
    rw [ends] at decoded
    simp only [runPhases, ends]
    exact decoded
  | failed r err =>
    rw [ends] at decoded
    simp only [runPhases, ends]
    exact decoded

/-- What a pulse launches is added to the account, and what it reports is taken off. -/
theorem accounted_pulse (h : p.view.Reserved) :
    p.pulse.1.accounted + p.reportedFetch?.isSome.toNat =
      p.accounted + (p.atFetch?.any launches).toNat := by
  cases live : p.core.stop with
  | some reason =>
    have never : p.atDecode? = none := by
      unfold Pipeline.atDecode?
      rw [live]
      rfl
    rw [pulse_of_stopped live, reportedFetch?_eq, atFetch?, never]
    rfl
  | none =>
    obtain ⟨_, _, _, comes, _⟩ := comesToExecute live h
    generalize ({ p with core := _, latches := _, access := _, writeback := _ } : Pipeline) = q at comes
    have executed := q.accounted_executePhase.trans (comes.accounted h)
    rw [reportedFetch?_eq, atFetch?, comes.atDecode?]
    cases ends : q.executePhase with
    | next r =>
      rw [ends] at executed
      rw [← executed]
      exact ComesToDecode.accounted_pulse ⟨q, comes, ends⟩
    | done r =>
      rw [comes.pulse, ← executed, ends,
        show phases.drop 2 = ⟨executePhase, _⟩ :: phases.drop 3 from rfl]
      simp only [runPhases, ends]
      rfl
    | failed r err =>
      rw [comes.pulse, ← executed, ends,
        show phases.drop 2 = ⟨executePhase, _⟩ :: phases.drop 3 from rfl]
      simp only [runPhases, ends]
      rfl

/-! ## Reports -/

/-- A report stops the machine. -/
theorem stop_of_reported (h : p.view.Reserved) {addr : UInt64} (reports : p.reportedFetch? = some addr) :
    p.pulse.1.core.stop ≠ none := by
  obtain ⟨q, e, comes, older, he, outside⟩ := eq_of_reportedFetch? reports
  obtain ⟨moves, isOpen⟩ := comes.moves h
  have live : q.core.stop = none := isOpen.view.resolve_right (absurd (q.nothingOlder_iff.mp older).1)
  rw [comes.pulse_of_fault live older he outside]
  simp only [Core.reportFault, Core.requestStop, live, StopReason.request]
  exact Option.some_ne_none _

theorem reportedFetch?_of_stopped {reason : StopReason} (stop : p.core.stop = some reason) :
    p.reportedFetch? = none := by
  rw [reportedFetch?, Pipeline.atDecode?, stop]
  rfl

/-- There is at most one report, and the machine has stopped once there is one. -/
theorem reported_le (h : p.view.Reserved) (n : Nat) :
    p.reported n ≤ 1 ∧ ((p.pulses n).core.stop = none → p.reported n = 0) := by
  induction n with
  | zero => exact ⟨Nat.zero_le 1, fun _ => rfl⟩
  | succ n ih =>
    obtain ⟨once, none⟩ := ih
    cases live : (p.pulses n).core.stop with
    | some reason =>
      rw [reported, pulses, reportedFetch?_of_stopped live, pulse_of_stopped live]
      exact ⟨once, none⟩
    | none =>
      rw [reported, pulses, none live, Nat.zero_add]
      cases reports : (p.pulses n).reportedFetch? with
      | none => exact ⟨Nat.zero_le 1, fun _ => rfl⟩
      | some addr =>
        exact ⟨Nat.le_refl 1, fun live' => absurd live' (stop_of_reported (reserved_pulses h n) reports)⟩

/-! ## Runs -/

theorem launched_eq (h : p.view.Reserved) (n : Nat) :
    p.accounted + p.launched n = (p.pulses n).accounted + p.reported n := by
  induction n with
  | zero => rfl
  | succ n ih =>
    have even := accounted_pulse (reserved_pulses h n)
    rw [launched, reported, pulses]
    omega

/-- After any number of pulses, failed ones included, every fetch that was launched has retired its
instruction, was squashed, is in one of the nine stations, or is the one that decode has reported. The
classes of the retired instructions add up, and there have been as many flushes as taken branches. -/
theorem fetches_accounted (memory : Memory) (pc : UInt64) (tracing : Bool) (n : Nat) :
    let p := Pipeline.new (.new memory pc tracing)
    let s := (p.pulses n).core.statistics
    p.launched n = s.retired + s.squashed + (p.pulses n).stations.count true + p.reported n ∧
      p.reported n ≤ 1 ∧
      s.alu + s.loads + s.stores + s.branches + s.system = s.retired ∧ s.flushes = s.taken := by
  intro p s
  have reserved : p.view.Reserved := reserved_new rfl
  have consistent : s.Consistent :=
    View.consistent_of_moves (moves_pulses reserved n) ⟨rfl, rfl⟩
  have launched := launched_eq reserved n
  have nothing : p.accounted = 0 := rfl
  rw [nothing, Nat.zero_add] at launched
  exact ⟨launched, (reported_le reserved n).1, consistent.classes, consistent.flushed⟩

end Pipeline

end Legv8
