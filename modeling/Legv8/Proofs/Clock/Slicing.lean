import Legv8.Proofs.Pipeline.Histories
import Legv8.Proofs.Pipeline.Phases
import Legv8.Proofs.Sequential.Run

/-! # Runs in slices

A run that has used up its budget can be taken up again. Once the request of the clock is withdrawn, a further
run goes on as if the clock had never stopped: the two slices come to what one run with both budgets comes to,
except that a cycle limit counts the pulses of its own run. The boundary of a slice lies between two pulses,
so nothing in flight is disturbed; and a run is cut off only by its own clock, because nothing that a pulse
does asks for a stop at a cycle limit. Runs of the sequential machine can be sliced in the same way, although
they ask for the stop before they look for a pending one. -/
namespace Legv8

/-! ## Counting from an earlier start -/

/-- The reason as a run gives it that has begun `n` pulses before. -/
def StopReason.countedFrom (n : Nat) : StopReason → StopReason
  | .cycleLimit cycles => .cycleLimit (n + cycles)
  | reason => reason

/-- The ending of a run that has begun `n` pulses before. -/
def Ending.countedFrom (n : Nat) : Ending → Ending
  | .stopped reason => .stopped (reason.countedFrom n)
  | .failed err => .failed err
  | .unfinished => .unfinished

theorem StopReason.countedFrom_eq (n : Nat) {reason : StopReason} (h : reason.cycleLimit? = none) :
    reason.countedFrom n = reason := by
  cases reason with
  | cycleLimit cycles => cases h
  | _ => rfl

namespace Core

/-- The core at the end of a run that has begun `n` pulses before. Only a pending cycle limit tells. -/
def countedFrom (n : Nat) (core : Core) : Core := { core with stop := core.stop.map (·.countedFrom n) }

theorem countedFrom_eq (n : Nat) {core : Core} (h : core.cycleLimit? = none) :
    core.countedFrom n = core := by
  have same : core.stop.map (·.countedFrom n) = core.stop := by
    unfold cycleLimit? at h
    cases stop : core.stop with
    | none => rfl
    | some reason =>
      rw [stop] at h
      exact congrArg some (reason.countedFrom_eq n h)
  rw [countedFrom, same]

theorem countedFrom_requestStop (n : Nat) {core : Core} (live : core.stop = none) (cycles : Nat) :
    (core.requestStop (.cycleLimit cycles)).countedFrom n = core.requestStop (.cycleLimit (n + cycles)) := by
  unfold countedFrom requestStop
  rw [live]
  rfl

theorem clearStop_requestStop {core : Core} (live : core.stop = none) (reason : StopReason) :
    (core.requestStop reason).clearStop = core := by
  obtain ⟨registers, pc, resetPc, reservations, memory, statistics, tracing, stop⟩ := core
  cases live
  rfl

end Core

theorem exhausted_add (n budget steps : Nat) :
    exhausted (some (n + budget)) (n + steps) = exhausted (some budget) steps :=
  decide_eq_decide.mpr Nat.add_le_add_iff_left

theorem not_exhausted {budget steps : Nat} (h : steps < budget) : exhausted (some budget) steps = false :=
  decide_eq_false (Nat.not_le.mpr h)

/-! ## Under a clock -/

namespace Clock

variable {σ : Type} {listener : Listener σ}

section Rounds

variable {max : Option Nat} {fuel delivered : Nat} {clock : Clock} {s : σ}

theorem drive_of_stop {reason : StopReason} (stop : listener.stop s = some reason) :
    drive listener max (fuel + 1) delivered clock s = (clock, s, .stopped reason) := by
  unfold drive
  rw [stop]

theorem drive_of_exhausted (live : listener.stop s = none) (used : exhausted max delivered = true) :
    drive listener max (fuel + 1) delivered clock s =
      (clock, listener.requestStop s (.cycleLimit delivered), .stopped (.cycleLimit delivered)) := by
  unfold drive
  simp only [live, used, if_true]

theorem drive_of_left (live : listener.stop s = none) (left : exhausted max delivered = false) :
    drive listener max (fuel + 1) delivered clock s =
      match listener.pulse clock s with
      | (t, some err) => (clock, t, .failed err)
      | (t, none) => drive listener max fuel (delivered + 1) clock.tick t := by
  rw [drive, live]
  exact if_neg (Bool.eq_false_iff.mp left)

end Rounds

/-- A run with a budget ends. -/
theorem drive_ends {budget fuel delivered : Nat} (within : delivered ≤ budget)
    (enough : budget < delivered + fuel) (clock : Clock) (s : σ) :
    (drive listener (some budget) fuel delivered clock s).2.2 ≠ .unfinished := by
  induction fuel generalizing delivered clock s with
  | zero => exact absurd enough (Nat.not_lt.mpr within)
  | succ fuel ih =>
    cases stop : listener.stop s with
    | some reason => rw [drive_of_stop stop]; exact nofun
    | none =>
      cases left : exhausted (some budget) delivered with
      | true => rw [drive_of_exhausted stop left]; exact nofun
      | false =>
        have more : delivered < budget := Nat.not_le.mp (of_decide_eq_false left)
        rw [drive_of_left stop left]
        rcases listener.pulse clock s with ⟨t, _ | err⟩
        · exact ih more (by omega) clock.tick t
        · exact nofun

theorem run_ends (budget : Nat) (clock : Clock) (s : σ) :
    (clock.run listener (some budget) s).2.2 ≠ .unfinished := by
  have enough : budget < 0 + fuelFor (some budget) := by
    rw [Nat.zero_add]
    exact Nat.lt_succ_self budget
  exact drive_ends (Nat.zero_le budget) enough { clock with running := true } s

/-- The cycle limit that a listener shows as its pending stop. -/
def cycleLimit? (listener : Listener σ) (s : σ) : Option Nat :=
  (listener.stop s).bind StopReason.cycleLimit?

/-- A listener whose run can be taken up again where a used-up budget has ended it: the request of the clock
can be withdrawn without a trace, and no pulse makes such a request itself. -/
structure Resumable (listener : Listener σ) (withdraw : σ → σ) (countedFrom : Nat → σ → σ) :
    Prop where
  withdraw_requestStop : ∀ s reason, listener.stop s = none →
    withdraw (listener.requestStop s reason) = s
  countedFrom_requestStop : ∀ n s cycles, listener.stop s = none →
    countedFrom n (listener.requestStop s (.cycleLimit cycles)) =
      listener.requestStop s (.cycleLimit (n + cycles))
  countedFrom_eq : ∀ n s, cycleLimit? listener s = none → countedFrom n s = s
  cycleLimit?_pulse : ∀ clock s, cycleLimit? listener s = none →
    cycleLimit? listener (listener.pulse clock s).1 = none

/-- A run comes to a cycle limit only if it finds no other stop pending. -/
theorem live_of_limit {max : Option Nat} {fuel delivered cycles : Nat} {clock : Clock} {s : σ}
    (quiet : cycleLimit? listener s = none)
    (limit : (drive listener max (fuel + 1) delivered clock s).2.2 = .stopped (.cycleLimit cycles)) :
    listener.stop s = none := by
  cases stop : listener.stop s with
  | none => rfl
  | some reason =>
    rw [drive_of_stop stop] at limit
    cases limit
    rw [cycleLimit?, stop] at quiet
    cases quiet

/-- The listener behind `n` pulses of a clock. -/
def deliver (listener : Listener σ) : (n : Nat) → Clock → σ → σ
  | 0, _, s => s
  | n + 1, clock, s => deliver listener n clock.tick (listener.pulse clock s).1

section Resumable

variable {withdraw : σ → σ} {countedFrom : Nat → σ → σ}
  (resumable : Resumable listener withdraw countedFrom)

include resumable

/-- A run that has begun `n` pulses before, with as many more in its budget, goes on in the same way. -/
theorem drive_countedFrom (n budget fuel delivered : Nat) (clock : Clock) {s : σ}
    (quiet : cycleLimit? listener s = none) :
    drive listener (some (n + budget)) fuel (n + delivered) clock s =
      let (clock, t, ending) := drive listener (some budget) fuel delivered clock s
      (clock, countedFrom n t, ending.countedFrom n) := by
  induction fuel generalizing delivered clock s with
  | zero =>
    dsimp only [drive]
    rw [resumable.countedFrom_eq n s quiet]
    rfl
  | succ fuel ih =>
    cases stop : listener.stop s with
    | some reason =>
      -- no budget is looked at, and a reason that is no cycle limit reads the same in both runs
      have other : reason.cycleLimit? = none := by rwa [cycleLimit?, stop] at quiet
      rw [drive_of_stop stop, drive_of_stop stop]
      dsimp only [Ending.countedFrom]
      rw [resumable.countedFrom_eq n s quiet, reason.countedFrom_eq n other]
    | none =>
      have same := exhausted_add n budget delivered
      cases left : exhausted (some budget) delivered with
      | true =>
        rw [drive_of_exhausted stop left, drive_of_exhausted stop (same.trans left)]
        dsimp only
        rw [resumable.countedFrom_requestStop n s delivered stop]
        rfl
      | false =>
        rw [drive_of_left stop left, drive_of_left stop (same.trans left)]
        have kept := resumable.cycleLimit?_pulse clock s quiet
        rcases pulsed : listener.pulse clock s with ⟨t, _ | err⟩ <;> rw [pulsed] at kept
        · exact ih (delivered + 1) clock.tick kept
        · dsimp only
          rw [resumable.countedFrom_eq n t kept]
          rfl

/-- A run that uses up its budget has delivered as many pulses as were left in it, and asks for the stop
behind the last one. From there on a run with a larger budget is the run that begins there. -/
theorem drive_add {a delivered budget cycles : Nat} (b : Nat) (slice : delivered + a = budget)
    {clock : Clock} {s : σ} (quiet : cycleLimit? listener s = none)
    (limit : (drive listener (some budget) (a + 1) delivered clock s).2.2 =
      .stopped (.cycleLimit cycles)) :
    listener.stop (deliver listener a clock s) = none ∧
      drive listener (some budget) (a + 1) delivered clock s =
        ({ clock with cycles := clock.cycles + a },
          listener.requestStop (deliver listener a clock s) (.cycleLimit budget),
          .stopped (.cycleLimit budget)) ∧
      drive listener (some (budget + b)) (a + b + 1) delivered clock s =
        drive listener (some (budget + b)) (b + 1) budget { clock with cycles := clock.cycles + a }
          (deliver listener a clock s) := by
  have live := live_of_limit quiet limit
  -- by induction on the slice: its first pulse is also the first one of the longer run
  induction a generalizing delivered clock s with
  | zero =>
    obtain rfl : delivered = budget := slice
    have used : exhausted (some delivered) delivered = true := decide_eq_true (Nat.le_refl delivered)
    exact ⟨live, drive_of_exhausted live used, by rw [Nat.zero_add]; rfl⟩
  | succ a ih =>
    have first : exhausted (some budget) delivered = false := not_exhausted (by omega)
    have whole : exhausted (some (budget + b)) delivered = false := not_exhausted (by omega)
    rw [drive_of_left live first] at limit ⊢
    rw [Nat.add_right_comm a 1 b, drive_of_left live whole, deliver]
    have kept := resumable.cycleLimit?_pulse clock s quiet
    have count : clock.cycles + (a + 1) = clock.tick.cycles + a :=
      (Nat.add_right_comm clock.cycles 1 a).symm
    rcases pulsed : listener.pulse clock s with ⟨t, _ | err⟩ <;> rw [pulsed] at kept limit
    · rw [count]
      exact ih (by omega) kept limit (live_of_limit kept limit)
    · cases limit

/-- A run that uses up its budget delivers that many pulses and asks for the stop behind them. If the request
is withdrawn, a further run comes to what one run with both budgets comes to. -/
theorem run_add (a b : Nat) {clock : Clock} {s : σ} (live : listener.stop s = none) {cycles : Nat}
    (limit : (clock.run listener (some a) s).2.2 = .stopped (.cycleLimit cycles)) :
    let first := clock.run listener (some a) s
    let second := first.1.run listener (some b) (withdraw first.2.1)
    first = ({ clock with cycles := clock.cycles + a, running := false },
        listener.requestStop (deliver listener a { clock with running := true } s) (.cycleLimit a),
        .stopped (.cycleLimit a)) ∧
      clock.run listener (some (a + b)) s =
        (second.1, countedFrom a second.2.1, second.2.2.countedFrom a) := by
  have quiet : cycleLimit? listener s = none := congrArg (·.bind StopReason.cycleLimit?) live
  obtain ⟨live', first, whole⟩ := drive_add resumable b (Nat.zero_add a) quiet limit
  have later : drive listener (some (a + b)) (b + 1) a _ _ = _ :=
    drive_countedFrom resumable a b (b + 1) 0 { clock with cycles := clock.cycles + a, running := true }
      (congrArg (·.bind StopReason.cycleLimit?) live')
  unfold run fuelFor
  dsimp only
  rw [first, whole]
  dsimp only
  rw [resumable.withdraw_requestStop _ _ live', later]
  exact ⟨rfl, rfl⟩

end Resumable

end Clock

/-! ## The pipelined machine -/

namespace Pipeline

/-- The machine at the end of a run that has begun `n` pulses before. Only a pending cycle limit tells. -/
def countedFrom (n : Nat) (p : Pipeline) : Pipeline := { p with core := p.core.countedFrom n }

/-- No pulse asks for a stop at a cycle limit, and none withdraws one. -/
theorem cycleLimit?_pulse (p : Pipeline) : p.pulse.1.core.cycleLimit? = p.core.cycleLimit? :=
  core_pulse (fun _ _ _ _ _ => rfl) (fun core _ other => core.cycleLimit?_requestStop other)
    (fun core _ _ => core.cycleLimit?_settle _) p

theorem resumable : Clock.Resumable listener clearStop countedFrom where
  withdraw_requestStop p reason live :=
    congrArg (fun core => { p with core }) (Core.clearStop_requestStop live reason)
  countedFrom_requestStop n p cycles live :=
    congrArg (fun core => { p with core }) (Core.countedFrom_requestStop n live cycles)
  countedFrom_eq n p quiet := congrArg (fun core => { p with core }) (Core.countedFrom_eq n quiet)
  cycleLimit?_pulse _ p quiet := p.cycleLimit?_pulse.trans quiet

theorem deliver_eq (n : Nat) (clock : Clock) (p : Pipeline) :
    Clock.deliver listener n clock p = p.pulses n := by
  induction n generalizing clock p with
  | zero => rfl
  | succ n ih => rw [Clock.deliver, ih, ← pulses_pulse]; rfl

end Pipeline

/-! ## The sequential machine -/

namespace Sequential

variable {s : Sequential}

/-- The machine at the end of a run that has begun `n` steps before. Only a pending cycle limit tells. -/
def countedFrom (n : Nat) (s : Sequential) : Sequential := { s with core := s.core.countedFrom n }

/-- What a step comes to that finds no cycle limit pending: it asks for none, and if it does not fail, it
returns whatever is pending. -/
structure Returns (r : Sequential × StepResult) : Prop where
  quiet : r.1.core.cycleLimit? = none
  pending : (∃ err, r.2 = .error err) ∨ r.2 = .ok r.1.core.stop

theorem Returns.stop_eq {r : Sequential × StepResult} (h : Returns r) {reason? : Option StopReason}
    (result : r.2 = .ok reason?) : r.1.core.stop = reason? := by
  rcases h.pending with ⟨err, failed⟩ | returned
  · rw [failed] at result
    cases result
  · rw [returned] at result
    exact Except.ok.inj result

theorem returns_stopWith (quiet : s.core.cycleLimit? = none) {reason : StopReason}
    (other : reason.cycleLimit? = none) : Returns (s.stopWith reason) :=
  ⟨(s.core.cycleLimit?_requestStop other).trans quiet, .inr rfl⟩

theorem returns_retire (live : s.core.stop = none) (dest : Option Nat) (w : Accessed) (next : UInt64) :
    Returns (s.retire dest w next) := by
  have running : ((s.core.reserve dest).commit w).1.stop = none := by
    rw [Core.kept_commit (f := Core.stop) (fun _ _ _ _ => rfl), Core.reserve_eq, live]
  unfold retire
  rcases h : (s.core.reserve dest).commit w with ⟨core, err | written⟩ <;> rw [h] at running
  · exact ⟨congrArg (·.bind StopReason.cycleLimit?) running, .inl ⟨err, rfl⟩⟩
  · exact ⟨congrArg (·.bind StopReason.cycleLimit?) running, .inr (congrArg Except.ok running.symm)⟩

theorem returns_accessAndRetire (quiet : s.core.cycleLimit? = none) (dest : Option Nat) (out : Executed)
    (next : UInt64) : Returns (s.accessAndRetire dest out next) := by
  unfold accessAndRetire
  generalize out.access s.access s.core.memory = access
  have settled := (s.core.cycleLimit?_settle access).trans quiet
  cases stop : (s.core.settle access).stop with
  | some reason =>
    simp only [stop]
    exact ⟨settled, .inr (congrArg Except.ok stop.symm)⟩
  | none =>
    simp only [stop]
    apply returns_retire
    exact stop

theorem returns_perform (quiet : s.core.cycleLimit? = none) (entry : Fetched) :
    Returns (s.perform entry) := by
  unfold perform
  cases entry.issue s.core.registers with
  | error err => exact ⟨quiet, .inl ⟨err, rfl⟩⟩
  | ok issued =>
    dsimp only
    rcases s.alu.execute issued with err | ⟨⟨out, _ | target⟩ | _, alu⟩
    · exact ⟨quiet, .inl ⟨err, rfl⟩⟩
    · exact returns_accessAndRetire (s := { s with alu }) quiet _ out _
    · exact returns_accessAndRetire (s := { s with alu, core := s.core.countTaken }) quiet _ out target
    · exact returns_stopWith (s := { s with alu, core := s.core.retire .hlt }) quiet rfl

theorem returns_step (quiet : s.core.cycleLimit? = none) : Returns s.step := by
  unfold step
  cases stop : s.core.stop with
  | some reason => exact ⟨quiet, .inr (congrArg Except.ok stop.symm)⟩
  | none =>
    dsimp only
    split
    · exact returns_stopWith (s := s.fetchedState) quiet rfl
    · exact returns_perform (s := s.fetchedState) quiet _

section Rounds

variable {max : Option Nat} {fuel steps : Nat}

theorem advance_of_stop {reason : StopReason} (stop : s.core.stop = some reason) :
    advance max (fuel + 1) steps s = (s, .stopped reason) := by
  have kept : (if exhausted max steps then s.requestStop (.cycleLimit steps) else s) = s := by
    split
    · unfold requestStop Core.requestStop
      rw [stop, StopReason.request_some, ← stop]
    · rfl
  rw [advance, kept, step_of_stop stop]

theorem advance_of_exhausted (live : s.core.stop = none) (used : exhausted max steps = true) :
    advance max (fuel + 1) steps s =
      (s.requestStop (.cycleLimit steps), .stopped (.cycleLimit steps)) := by
  have stop : (s.requestStop (.cycleLimit steps)).core.stop = some (.cycleLimit steps) := by
    unfold requestStop Core.requestStop
    rw [live]
    rfl
  rw [advance, if_pos used, step_of_stop stop]

theorem advance_of_left (left : exhausted max steps = false) :
    advance max (fuel + 1) steps s =
      match s.step with
      | (t, .error err) => (t, .failed err)
      | (t, .ok (some reason)) => (t, .stopped reason)
      | (t, .ok none) => advance max fuel (steps + 1) t := by
  rw [advance, left]
  rfl

end Rounds

/-- The machine under a clock, which gives it one step a pulse. -/
def listener : Listener Sequential where
  stop s := s.core.stop
  requestStop := requestStop
  pulse _ s := (s.step.1, match s.step.2 with
    | .error err => some err
    | .ok _ => none)
  stop_requestStop s reason live := by simp [requestStop, Core.requestStop, StopReason.request, live]

/-- Asking for the stop at a used-up budget before looking for a pending one comes to the same as asking for
it afterwards, as a clock does. A stop that a step has asked for is seen before the next round. -/
theorem advance_eq_drive {budget fuel steps : Nat} (within : steps ≤ budget)
    (enough : budget < steps + fuel) (clock : Clock) (quiet : s.core.cycleLimit? = none) :
    advance (some budget) fuel steps s = (clock.drive listener (some budget) fuel steps s).2 := by
  induction fuel generalizing steps clock s with
  | zero => exact absurd enough (Nat.not_lt.mpr within)
  | succ fuel ih =>
    cases stop : s.core.stop with
    | some reason => rw [advance_of_stop stop, Clock.drive_of_stop stop]
    | none =>
      cases left : exhausted (some budget) steps with
      | true => rw [advance_of_exhausted stop left, Clock.drive_of_exhausted stop left]; rfl
      | false =>
        have more : steps < budget := Nat.not_le.mp (of_decide_eq_false left)
        have returns := returns_step quiet
        have pulsed : listener.pulse clock s = (s.step.1, match s.step.2 with
          | .error err => some err
          | .ok _ => none) := rfl
        rw [advance_of_left left, Clock.drive_of_left stop left, pulsed]
        generalize s.step = r at returns ⊢
        obtain ⟨t, err | _ | reason⟩ := r
        · rfl
        · exact ih more (by omega) clock.tick returns.quiet
        · -- the clock needs one round more to see the stop, and has it
          obtain ⟨k, rfl⟩ : ∃ k, fuel = k + 1 := ⟨fuel - 1, by omega⟩
          have pending : listener.stop t = some reason := returns.stop_eq rfl
          dsimp only
          rw [Clock.drive_of_stop pending]

theorem run_eq_clock (budget : Nat) (clock : Clock) (quiet : s.core.cycleLimit? = none) :
    s.run (some budget) = (clock.run listener (some budget) s).2 :=
  advance_eq_drive (Nat.zero_le budget) (by rw [Nat.zero_add]; exact Nat.lt_succ_self budget) _ quiet

theorem resumable : Clock.Resumable listener clearStop countedFrom where
  withdraw_requestStop s reason live :=
    congrArg (fun core => { s with core }) (Core.clearStop_requestStop live reason)
  countedFrom_requestStop n s cycles live :=
    congrArg (fun core => { s with core }) (Core.countedFrom_requestStop n live cycles)
  countedFrom_eq n s quiet := congrArg (fun core => { s with core }) (Core.countedFrom_eq n quiet)
  cycleLimit?_pulse _ _ quiet := (returns_step quiet).quiet

theorem deliver_eq (n : Nat) (clock : Clock) (s : Sequential) :
    Clock.deliver listener n clock s = s.after n := by
  induction n generalizing clock s with
  | zero => rfl
  | succ n ih => rw [Clock.deliver, ih, ← after_step]; rfl

/-- A run that uses up its budget takes that many steps and asks for the stop behind them. If the request is
withdrawn, a further run comes to what one run with both budgets comes to. -/
theorem run_add (a b : Nat) (live : s.core.stop = none) {cycles : Nat}
    (limit : (s.run (some a)).2 = .stopped (.cycleLimit cycles)) :
    let second := (s.run (some a)).1.clearStop.run (some b)
    s.run (some a) = ((s.after a).requestStop (.cycleLimit a), .stopped (.cycleLimit a)) ∧
      s.run (some (a + b)) = (second.1.countedFrom a, second.2.countedFrom a) := by
  have quiet : s.core.cycleLimit? = none := congrArg (·.bind StopReason.cycleLimit?) live
  let clock := Clock.new 0
  have first := run_eq_clock a clock quiet
  rw [first] at limit ⊢
  obtain ⟨slice, whole⟩ := Clock.run_add resumable a b live limit
  have second := run_eq_clock b (clock.run listener (some a) s).1
    (s := (clock.run listener (some a) s).2.1.clearStop) rfl
  dsimp only
  rw [run_eq_clock (a + b) clock quiet, whole, second, slice, deliver_eq]
  exact ⟨rfl, rfl⟩

theorem run_ends (budget : Nat) (live : s.core.stop = none) : (s.run (some budget)).2 ≠ .unfinished := by
  have quiet : s.core.cycleLimit? = none := congrArg (·.bind StopReason.cycleLimit?) live
  rw [run_eq_clock budget (.new 0) quiet]
  exact Clock.run_ends budget (.new 0) s

end Sequential

/-- A run that uses up its budget `a` has made `a` pulses, or steps, and asks for the stop behind the last
one. Once the request is withdrawn, it goes on as if it had never been stopped: with a further budget `b` it
comes to what one run with both budgets comes to. The clock, every register, unit, latch and counter and the
ending are the same; only a cycle limit, in the ending and as the pending stop, counts from the beginning of
its own run. Both machines obey the law, and every such run ends. -/
theorem runs_can_be_sliced (a b : Nat) :
    (∀ (clock : Clock) (p : Pipeline) (cycles : Nat), p.core.stop = none →
      let first := clock.run Pipeline.listener (some a) p
      let second := first.1.run Pipeline.listener (some b) first.2.1.clearStop
      let whole := clock.run Pipeline.listener (some (a + b)) p
      first.2.2 = .stopped (.cycleLimit cycles) →
        first = ({ clock with cycles := clock.cycles + a, running := false },
          (p.pulses a).requestStop (.cycleLimit a), .stopped (.cycleLimit a)) ∧
        whole = (second.1, second.2.1.countedFrom a, second.2.2.countedFrom a) ∧
        whole.2.2 ≠ .unfinished) ∧
    ∀ (s : Sequential) (cycles : Nat), s.core.stop = none →
      let first := s.run (some a)
      let second := first.1.clearStop.run (some b)
      let whole := s.run (some (a + b))
      first.2 = .stopped (.cycleLimit cycles) →
        first = ((s.after a).requestStop (.cycleLimit a), .stopped (.cycleLimit a)) ∧
        whole = (second.1.countedFrom a, second.2.countedFrom a) ∧
        whole.2 ≠ .unfinished := by
  constructor
  · intro clock p cycles live first second whole limit
    obtain ⟨slice, sum⟩ := Clock.run_add Pipeline.resumable a b live limit
    rw [Pipeline.deliver_eq] at slice
    exact ⟨slice, sum, Clock.run_ends (a + b) clock p⟩
  · intro s cycles live first second whole limit
    obtain ⟨slice, sum⟩ := Sequential.run_add a b live limit
    exact ⟨slice, sum, Sequential.run_ends (a + b) live⟩

/-- The pipelined run of two moves is cut off behind its fifth pulse, the sequential one behind its first
step; either goes on to the halt. -/
theorem runs_of_twoMoves_sliced :
    let p := Pipeline.new (.new Pipeline.twoMoves 0 false)
    let s := Sequential.new (.new Pipeline.twoMoves 0 false)
    let first := (Clock.new 0).run Pipeline.listener (some 5) p
    let second := first.1.run Pipeline.listener (some 20) first.2.1.clearStop
    let firstStep := s.run (some 1)
    let others := firstStep.1.clearStop.run (some 20)
    first.2.2 = .stopped (.cycleLimit 5) ∧ first.1.cycles = 5 ∧ second.2.2 = .stopped (.halted 8) ∧
      (Clock.new 0).run Pipeline.listener (some 25) p =
        (second.1, second.2.1.countedFrom 5, second.2.2.countedFrom 5) ∧
      firstStep.2 = .stopped (.cycleLimit 1) ∧ others.2 = .stopped (.halted 8) ∧
      s.run (some 21) = (others.1.countedFrom 1, others.2.countedFrom 1) := by
  have limit : ((Clock.new 0).run Pipeline.listener (some 5)
      (.new (.new Pipeline.twoMoves 0 false))).2.2 = .stopped (.cycleLimit 5) := by decide +kernel
  have limitStep : ((Sequential.new (.new Pipeline.twoMoves 0 false)).run (some 1)).2 =
      .stopped (.cycleLimit 1) := by decide +kernel
  have sliced := (runs_can_be_sliced 5 20).1 (.new 0) (.new (.new Pipeline.twoMoves 0 false)) 5 rfl limit
  have slicedStep := (runs_can_be_sliced 1 20).2 (.new (.new Pipeline.twoMoves 0 false)) 1 rfl limitStep
  exact ⟨limit, congrArg (·.1.cycles) sliced.1, by decide +kernel, sliced.2.1, limitStep,
    by decide +kernel, slicedStep.2.1⟩

end Legv8
