import Legv8.Proofs.Clock.Slicing

/-! # The contract of a clock

A clock drives anything that can be pulsed. All that it sees of its listener is whether a stop is pending
at a boundary and whether a pulse has failed; all that the listener does to the clock is to request stops
and to clear them, in any order and as often as it likes. What a run then comes to is settled by the pulses
that have been delivered: each began with no stop pending and within the budget, and the run ended for the
earliest request since the last clear, for a failed pulse, or because the budget was used up. A run that is
watched for some rounds only is cut off when every round has been a pulse and none of these has happened; a
run that is given enough rounds is not. -/
namespace Legv8

/-! ## Requests and clears -/

/-- What a pulse does to the pending stop. -/
inductive ControlAction where
  | request (reason : StopReason)
  | clear
  deriving DecidableEq

namespace ControlAction

def apply (pending : Option StopReason) : ControlAction → Option StopReason
  | request reason => StopReason.request pending reason
  | clear => none

def reason? : ControlAction → Option StopReason
  | request reason => some reason
  | clear => none

/-- The requests behind the last clear, in their order. -/
def sinceClear (history : List ControlAction) : List StopReason :=
  ((history.reverse.takeWhile (· != clear)).filterMap reason?).reverse

/-- The earliest request since the last clear. -/
def earliest? (history : List ControlAction) : Option StopReason := (sinceClear history).head?

theorem earliest?_concat (history : List ControlAction) (action : ControlAction) :
    earliest? (history ++ [action]) = apply (earliest? history) action := by
  cases action with
  | request reason =>
    have later : sinceClear (history ++ [request reason]) = sinceClear history ++ [reason] := by
      simp [sinceClear, reason?]
    rw [earliest?, later, earliest?, List.head?_append, apply]
    cases (sinceClear history).head? <;> rfl
  | clear => simp [earliest?, sinceClear, apply]

/-- The control remembers the earliest request since the last clear, and nothing else. -/
theorem foldl_apply (history actions : List ControlAction) :
    actions.foldl apply (earliest? history) = earliest? (history ++ actions) := by
  induction actions generalizing history with
  | nil => simp
  | cons action rest ih =>
    rw [List.foldl_cons, ← earliest?_concat, ih, List.append_assoc, List.singleton_append]

end ControlAction

/-! ## Listeners that keep a journal -/

/-- A state machine under a clock: what a pulse makes of its state, what it does to the pending stop in the
course of the pulse, and whether it fails. -/
structure Device (τ : Type) where
  pulse : Clock → τ → τ × List ControlAction × Option ExecutionError

/-- A pulse that has been delivered. -/
structure Delivered where
  /-- The clock during the pulse. -/
  clock : Clock
  actions : List ControlAction
  error : Option ExecutionError
  deriving DecidableEq

/-- A device with the pending stop and the pulses that it has received. -/
structure Driven (τ : Type) where
  state : τ
  stop : Option StopReason
  journal : List Delivered
  deriving DecidableEq

namespace Driven

variable {τ : Type}

def start (pending : Option StopReason) (state : τ) : Driven τ :=
  { state, stop := pending, journal := [] }

def requestStop (s : Driven τ) (reason : StopReason) : Driven τ :=
  { s with stop := StopReason.request s.stop reason }

end Driven

namespace Device

variable {τ : Type} (device : Device τ)

def deliver (clock : Clock) (s : Driven τ) : Driven τ × Option ExecutionError :=
  let (state, actions, error) := device.pulse clock s.state
  ({ state
     stop := actions.foldl ControlAction.apply s.stop
     journal := s.journal ++ [{ clock, actions, error }] }, error)

def listener : Listener (Driven τ) where
  stop := Driven.stop
  requestStop := Driven.requestStop
  pulse := device.deliver
  stop_requestStop s reason live := by simp [Driven.requestStop, StopReason.request, live]

end Device

/-- What is pending at the boundary behind the first `n` pulses of a run, by what has been requested and
cleared since it was pending `initially`. -/
def pendingAt (initially : Option StopReason) (pulses : List Delivered) (n : Nat) : Option StopReason :=
  ControlAction.earliest?
    (initially.toList.map .request ++ (pulses.take n).flatMap Delivered.actions)

theorem pendingAt_zero (initially : Option StopReason) (pulses : List Delivered) :
    pendingAt initially pulses 0 = initially := by
  cases initially with
  | none => simp [pendingAt, ControlAction.earliest?, ControlAction.sinceClear]
  | some reason =>
    simp [pendingAt, ControlAction.earliest?, ControlAction.sinceClear, ControlAction.reason?]

theorem pendingAt_append (initially : Option StopReason) (pulses more : List Delivered) {n : Nat}
    (h : n ≤ pulses.length) : pendingAt initially (pulses ++ more) n = pendingAt initially pulses n := by
  rw [pendingAt, List.take_append_of_le_length h, pendingAt]

theorem pendingAt_concat (initially : Option StopReason) (pulses : List Delivered) (last : Delivered) :
    pendingAt initially (pulses ++ [last]) (pulses.length + 1) =
      last.actions.foldl ControlAction.apply (pendingAt initially pulses pulses.length) := by
  have whole : (pulses ++ [last]).take (pulses.length + 1) = pulses ++ [last] :=
    List.take_of_length_le (by simp)
  rw [pendingAt, whole, pendingAt, List.take_length, ControlAction.foldl_apply, List.flatMap_append,
    List.flatMap_singleton, List.append_assoc]

/-! ## Undisturbed pulses -/

namespace Clock

theorem deliver_succ {σ : Type} (listener : Listener σ) (n : Nat) (clock : Clock) (s : σ) :
    deliver listener (n + 1) clock s =
      (listener.pulse { clock with cycles := clock.cycles + n } (deliver listener n clock s)).1 := by
  induction n generalizing clock s with
  | zero => rfl
  | succ n ih =>
    rw [deliver, ih, deliver, tick, Nat.add_right_comm, Nat.add_assoc]

/-- The clock during the pulse that follows on `n` others. -/
def during (clock : Clock) (n : Nat) : Clock := { clock with cycles := clock.cycles + n, running := true }

end Clock

namespace Device

variable {τ : Type} (device : Device τ) (clock : Clock) (initially : Option StopReason) (state : τ)
  (n : Nat)

/-- The device behind the first `n` pulses of a clock that nothing ever stops. -/
def after : Driven τ :=
  Clock.deliver device.listener n { clock with running := true } (.start initially state)

/-- The pulses that it has received by then. -/
def pulses : List Delivered := (device.after clock initially state n).journal

theorem after_succ : device.after clock initially state (n + 1) =
    (device.deliver (clock.during n) (device.after clock initially state n)).1 :=
  Clock.deliver_succ device.listener n { clock with running := true } (.start initially state)

theorem pulse_after : device.listener.pulse (clock.during n) (device.after clock initially state n) =
    (device.after clock initially state (n + 1),
      (device.deliver (clock.during n) (device.after clock initially state n)).2) := by
  rw [after_succ]
  rfl

/-- What one more pulse adds to the journal and does to the pending stop. -/
theorem exists_pulses_succ : ∃ last,
    device.pulses clock initially state (n + 1) = device.pulses clock initially state n ++ [last] ∧
      last.clock = clock.during n ∧
      last.error = (device.deliver (clock.during n) (device.after clock initially state n)).2 ∧
      (device.after clock initially state (n + 1)).stop =
        last.actions.foldl ControlAction.apply (device.after clock initially state n).stop := by
  rw [pulses, pulses, after_succ]
  exact ⟨_, rfl, rfl, rfl, rfl⟩

@[simp]
theorem length_pulses : (device.pulses clock initially state n).length = n := by
  induction n with
  | zero => rfl
  | succ n ih =>
    obtain ⟨last, pulses, -⟩ := device.exists_pulses_succ clock initially state n
    rw [pulses, List.length_append, ih, List.length_singleton]

theorem stop_after : (device.after clock initially state n).stop = pendingAt initially
    (device.pulses clock initially state n) (device.pulses clock initially state n).length := by
  induction n with
  | zero => exact (pendingAt_zero initially []).symm
  | succ n ih =>
    obtain ⟨last, pulses, -, -, stop⟩ := device.exists_pulses_succ clock initially state n
    rw [pulses, List.length_append, List.length_singleton, pendingAt_concat, stop, ih]

end Device

namespace Clock

variable {τ : Type}

/-- A run whose rounds are limited, whether it has a budget or not. -/
def runFor {σ : Type} (clock : Clock) (listener : Listener σ) (max : Option Nat) (rounds : Nat) (s : σ) :
    Clock × σ × Ending :=
  let (clock, s, ending) := drive listener max rounds 0 { clock with running := true } s
  ({ clock with running := false }, s, ending)

theorem run_eq_runFor {σ : Type} (clock : Clock) (listener : Listener σ) (max : Option Nat) (s : σ) :
    clock.run listener max s = clock.runFor listener max (fuelFor max) s := rfl

/-! ## The contract -/

/-- Pulses are delivered one after the other while the clock runs, each with no stop pending at the boundary
before it and with budget left. -/
def Begins (clock : Clock) (initially : Option StopReason) (max : Option Nat) (pulses : List Delivered) :
    Prop :=
  ∀ (i : Nat) (h : i < pulses.length),
    pulses[i].clock = clock.during i ∧ pendingAt initially pulses i = none ∧ ∀ m, max = some m → i < m

/-- Behind these pulses a run stops for the reason that is pending, or for its budget if none is. -/
def StopsFor (initially : Option StopReason) (max : Option Nat) (pulses : List Delivered)
    (reason : StopReason) : Prop :=
  pendingAt initially pulses pulses.length = some reason ∨
    pendingAt initially pulses pulses.length = none ∧
      max = some pulses.length ∧ reason = .cycleLimit pulses.length

/-- Nothing ends a run before the boundary behind its first `n` pulses: they all begin, and none fails. -/
structure Reaches (device : Device τ) (clock : Clock) (initially : Option StopReason) (state : τ)
    (max : Option Nat) (n : Nat) : Prop where
  begins : clock.Begins initially max (device.pulses clock initially state n)
  succeeded : ∀ q ∈ device.pulses clock initially state n, q.error = none

/-- The boundary behind `n` pulses, or the pulse that follows on it, is the first to end a run. -/
inductive EndsAt (device : Device τ) (clock : Clock) (initially : Option StopReason) (state : τ)
    (max : Option Nat) (n : Nat) : Ending → Prop
  | stopped {reason : StopReason} (reaches : clock.Reaches device initially state max n)
      (why : StopsFor initially max (device.pulses clock initially state n) reason) :
      EndsAt device clock initially state max n (.stopped reason)
  | failed {last : Delivered} {err : ExecutionError} (reaches : clock.Reaches device initially state max n)
      (begins : clock.Begins initially max (device.pulses clock initially state (n + 1)))
      (pulse : device.pulses clock initially state (n + 1) =
        device.pulses clock initially state n ++ [last])
      (failed : last.error = some err) :
      EndsAt device clock initially state max n (.failed err)

/-- What a run of a device comes to within so many rounds, given that a stop may have been pending before
it. All ways to end are told apart, being cut off included. -/
structure Contract (device : Device τ) (clock : Clock) (initially : Option StopReason) (state : τ)
    (max : Option Nat) (rounds : Nat) (r : Clock × Driven τ × Ending) : Prop where
  begins : clock.Begins initially max r.2.1.journal
  /-- The device has received these pulses and no others. -/
  delivers : { r.2.1 with stop := none } =
    { device.after clock initially state r.2.1.journal.length with stop := none }
  /-- No pulse follows one that has failed. -/
  fails : ∀ (i : Nat) (h : i < r.2.1.journal.length), r.2.1.journal[i].error ≠ none →
    i + 1 = r.2.1.journal.length
  /-- The pulses that succeeded are counted, and the clock stands still. -/
  counts : r.1 =
    { clock with cycles := clock.cycles + r.2.1.journal.countP (·.error.isNone), running := false }
  /-- The run stops for what is pending at its last boundary, or for its budget if nothing is. -/
  stopped : ∀ reason, r.2.2 = .stopped reason ↔ r.2.1.journal.length < rounds ∧
    (∀ q ∈ r.2.1.journal, q.error = none) ∧ StopsFor initially max r.2.1.journal reason
  /-- The run fails with the error of its last pulse. -/
  failed : ∀ err, r.2.2 = .failed err ↔
    ∃ q, r.2.1.journal.getLast? = some q ∧ q.error = some err
  /-- The run is cut off when every round has been a pulse that succeeded. -/
  unfinished : r.2.2 = .unfinished ↔
    r.2.1.journal.length = rounds ∧ ∀ q ∈ r.2.1.journal, q.error = none
  /-- The reason of a run that stops is left pending. -/
  shows : ∀ reason, r.2.2 = .stopped reason → r.2.1.stop = some reason
  /-- A run that does not stop leaves pending what its pulses have left. -/
  keeps : (∀ reason, r.2.2 ≠ .stopped reason) →
    r.2.1.stop = pendingAt initially r.2.1.journal r.2.1.journal.length

/-! ## Boundaries -/

variable {device : Device τ} {clock : Clock} {initially : Option StopReason} {state : τ}
  {max : Option Nat} {n rounds : Nat}

theorem Begins.concat {pulses : List Delivered} (h : clock.Begins initially max pulses) {last : Delivered}
    (now : last.clock = clock.during pulses.length)
    (live : pendingAt initially pulses pulses.length = none)
    (left : ∀ m, max = some m → pulses.length < m) :
    clock.Begins initially max (pulses ++ [last]) := by
  intro i bound
  rw [List.length_append, List.length_singleton] at bound
  by_cases earlier : i < pulses.length
  · rw [List.getElem_append_left earlier, pendingAt_append initially pulses [last] (Nat.le_of_lt earlier)]
    exact h i earlier
  · obtain rfl : i = pulses.length := by omega
    rw [List.getElem_append_right (Nat.le_refl _), pendingAt_append initially pulses [last] (Nat.le_refl _)]
    simp only [Nat.sub_self, List.getElem_singleton]
    exact ⟨now, live, left⟩

theorem Begins.of_concat {pulses : List Delivered} {last : Delivered}
    (h : clock.Begins initially max (pulses ++ [last])) :
    clock.Begins initially max pulses ∧ pendingAt initially pulses pulses.length = none ∧
      ∀ m, max = some m → pulses.length < m := by
  refine ⟨fun i bound => ?_, ?_⟩
  · have before := h i (by rw [List.length_append]; omega)
    rwa [List.getElem_append_left bound, pendingAt_append initially pulses [last] (Nat.le_of_lt bound)]
      at before
  · have here := (h pulses.length (by rw [List.length_append, List.length_singleton]; omega)).2
    rwa [pendingAt_append initially pulses [last] (Nat.le_refl _)] at here

theorem exhausted_eq_true {steps : Nat} (used : exhausted max steps = true) :
    ∃ m, max = some m ∧ m ≤ steps := by
  cases max with
  | none => cases used
  | some m => exact ⟨m, rfl, of_decide_eq_true used⟩

theorem exhausted_eq_false_iff {steps : Nat} :
    exhausted max steps = false ↔ ∀ m, max = some m → steps < m := by
  cases max with
  | none => exact iff_of_true rfl nofun
  | some m => simp [exhausted]

theorem Begins.length_le {pulses : List Delivered} (h : clock.Begins initially max pulses) {m : Nat}
    (budget : max = some m) : pulses.length ≤ m := by
  cases hn : pulses.length with
  | zero => exact Nat.zero_le m
  | succ k => exact (h k (by omega)).2.2 m budget

theorem reaches_zero : clock.Reaches device initially state max 0 where
  begins i h := absurd h (Nat.not_lt_zero i)
  succeeded _ h := by cases h

namespace Reaches

theorem of_succ (reaches : clock.Reaches device initially state max (n + 1)) :
    clock.Reaches device initially state max n ∧
      (device.after clock initially state n).stop = none ∧ exhausted max n = false ∧
      (device.deliver (clock.during n) (device.after clock initially state n)).2 = none := by
  obtain ⟨last, pulses, -, error, -⟩ := device.exists_pulses_succ clock initially state n
  obtain ⟨begins, succeeded⟩ := reaches
  rw [pulses] at begins succeeded
  obtain ⟨begins, live, left⟩ := begins.of_concat
  rw [Device.length_pulses] at left
  refine ⟨⟨begins, fun q hq => succeeded q (List.mem_append_left _ hq)⟩, ?_, ?_, ?_⟩
  · rw [Device.stop_after, live]
  · exact exhausted_eq_false_iff.mpr left
  · rw [← error]
    exact succeeded last (by simp)

variable (reaches : clock.Reaches device initially state max n)
include reaches

/-- A boundary that is reached ends the run, or leads on to the next one. -/
theorem endsAt_or_succ :
    (∃ ending, clock.EndsAt device initially state max n ending) ∨
      clock.Reaches device initially state max (n + 1) := by
  have pending := device.stop_after clock initially state n
  have length := device.length_pulses clock initially state n
  cases stop : (device.after clock initially state n).stop with
  | some reason =>
    exact .inl ⟨_, .stopped reaches (.inl (pending.symm.trans stop))⟩
  | none =>
    cases left : exhausted max n with
    | true =>
      -- the budget was not used up before, so this is the boundary where it is
      obtain ⟨m, budget, used⟩ := exhausted_eq_true left
      obtain rfl : n = m := Nat.le_antisymm (length ▸ reaches.begins.length_le budget) used
      rw [← length] at budget
      exact .inl ⟨_, .stopped reaches (.inr ⟨pending.symm.trans stop, budget, rfl⟩)⟩
    | false =>
      obtain ⟨last, pulses, now, -, -⟩ := device.exists_pulses_succ clock initially state n
      have begins : clock.Begins initially max (device.pulses clock initially state (n + 1)) := by
        rw [pulses]
        refine reaches.begins.concat ?_ (pending.symm.trans stop) ?_ <;> rw [length]
        · exact now
        · exact exhausted_eq_false_iff.mp left
      cases error : last.error with
      | some err => exact .inl ⟨_, .failed reaches begins pulses error⟩
      | none =>
        refine .inr ⟨begins, fun q hq => ?_⟩
        rw [pulses, List.mem_append, List.mem_singleton] at hq
        rcases hq with earlier | rfl
        · exact reaches.succeeded q earlier
        · exact error

end Reaches

/-- A run is still going after some rounds, or something has ended it. -/
theorem reaches_or_endsAt (device : Device τ) (clock : Clock) (initially : Option StopReason) (state : τ)
    (max : Option Nat) (rounds : Nat) :
    clock.Reaches device initially state max rounds ∨
      ∃ n < rounds, ∃ ending, clock.EndsAt device initially state max n ending := by
  induction rounds with
  | zero => exact .inl reaches_zero
  | succ rounds ih =>
    rcases ih with reaches | ⟨n, earlier, ends⟩
    · rcases reaches.endsAt_or_succ with ends | next
      · exact .inr ⟨rounds, Nat.lt_succ_self rounds, ends⟩
      · exact .inl next
    · exact .inr ⟨n, Nat.lt_succ_of_lt earlier, ends⟩

/-! ## Runs -/

/-- A run passes every boundary before which nothing ends it. -/
theorem drive_of_reaches (reaches : clock.Reaches device initially state max n) (rounds : Nat) :
    drive device.listener max (n + rounds) 0 (clock.during 0) (.start initially state) =
      drive device.listener max rounds n (clock.during n) (device.after clock initially state n) := by
  induction n generalizing rounds with
  | zero => rw [Nat.zero_add]; rfl
  | succ n ih =>
    obtain ⟨before, live, left, succeeded⟩ := reaches.of_succ
    rw [Nat.add_right_comm, Nat.add_assoc, ih before, drive_of_left live left, Device.pulse_after, succeeded]
    rfl

theorem runFor_of_reaches (reaches : clock.Reaches device initially state max n) (rounds : Nat) :
    clock.runFor device.listener max (n + rounds) (.start initially state) =
      let r := drive device.listener max rounds n (clock.during n) (device.after clock initially state n)
      ({ r.1 with running := false }, r.2) := by
  rw [← drive_of_reaches reaches rounds]
  rfl

theorem runFor_of_cut (reaches : clock.Reaches device initially state max n) :
    clock.runFor device.listener max n (.start initially state) =
      ({ clock.during n with running := false }, device.after clock initially state n, .unfinished) := by
  have run := runFor_of_reaches reaches 0
  rw [Nat.add_zero] at run
  exact run

/-- A run that has stopped at the boundary behind `n` pulses, or has failed in the pulse that follows. -/
def ended (device : Device τ) (clock : Clock) (initially : Option StopReason) (state : τ) (n : Nat)
    (ending : Ending) : Clock × Driven τ × Ending :=
  ({ clock.during n with running := false },
    match ending with
    | .stopped reason => { device.after clock initially state n with stop := some reason }
    | .failed _ | .unfinished => device.after clock initially state (n + 1),
    ending)

theorem runFor_of_endsAt {ending : Ending} (ends : clock.EndsAt device initially state max n ending)
    (enough : n < rounds) : clock.runFor device.listener max rounds (.start initially state) =
      clock.ended device initially state n ending := by
  obtain ⟨more, rfl⟩ : ∃ more, rounds = n + (more + 1) := ⟨rounds - n - 1, by omega⟩
  have pending := device.stop_after clock initially state n
  cases ends with
  | stopped reaches why =>
    rw [runFor_of_reaches reaches]
    rcases why with stop | ⟨live, budget, rfl⟩
    · rw [← pending] at stop
      rw [drive_of_stop stop, ended, ← stop]
    · rw [← pending] at live
      rw [Device.length_pulses] at budget ⊢
      have used : exhausted max n = true := by rw [budget]; exact decide_eq_true (Nat.le_refl n)
      have asks : device.listener.requestStop (device.after clock initially state n) (.cycleLimit n) =
          { device.after clock initially state n with stop := some (.cycleLimit n) } := by
        change Driven.requestStop _ _ = _
        rw [Driven.requestStop, live, StopReason.request_none]
      rw [drive_of_exhausted live used, asks, ended]
  | @failed last err reaches begins pulses failed =>
    obtain ⟨last', pulses', -, error, -⟩ := device.exists_pulses_succ clock initially state n
    obtain rfl : last = last' := by simpa [pulses] using pulses'
    rw [pulses] at begins
    obtain ⟨-, live, left⟩ := begins.of_concat
    rw [← pending] at live
    rw [Device.length_pulses] at left
    rw [runFor_of_reaches reaches, drive_of_left live (exhausted_eq_false_iff.mpr left),
      Device.pulse_after, ← error, failed, ended]

/-! ## Endings -/

theorem countP_of_succeeded {pulses : List Delivered} (h : ∀ q ∈ pulses, q.error = none) :
    pulses.countP (·.error.isNone) = pulses.length :=
  List.countP_eq_length.mpr fun q hq => by rw [h q hq]; rfl

theorem eq_last_of_failed {pulses : List Delivered} (last : Delivered)
    (h : ∀ q ∈ pulses, q.error = none) (i : Nat) (bound : i < (pulses ++ [last]).length)
    (failed : (pulses ++ [last])[i].error ≠ none) : i + 1 = (pulses ++ [last]).length := by
  rw [List.length_append, List.length_singleton] at bound ⊢
  by_cases earlier : i < pulses.length
  · rw [List.getElem_append_left earlier] at failed
    exact absurd (h _ (List.getElem_mem earlier)) failed
  · omega

theorem StopsFor.unique {pulses : List Delivered} {reason reason' : StopReason}
    (h : StopsFor initially max pulses reason) (h' : StopsFor initially max pulses reason') :
    reason = reason' := by
  rcases h with stop | ⟨live, _, limit⟩ <;> rcases h' with stop' | ⟨live', _, limit'⟩
  · exact Option.some.inj (stop.symm.trans stop')
  · cases stop.symm.trans live'
  · cases live.symm.trans stop'
  · exact limit.trans limit'.symm

theorem delivers_after (n : Nat) : { device.after clock initially state n with stop := none } =
    { device.after clock initially state (device.pulses clock initially state n).length with
      stop := none } := by
  rw [Device.length_pulses]

section Reaches

variable (reaches : clock.Reaches device initially state max n)
include reaches

theorem Reaches.counts : { clock.during n with running := false } = { clock with
    cycles := clock.cycles + (device.pulses clock initially state n).countP (·.error.isNone)
    running := false } := by
  rw [countP_of_succeeded reaches.succeeded, Device.length_pulses, during]

theorem Reaches.not_failed (err : ExecutionError) :
    ¬ ∃ q, (device.pulses clock initially state n).getLast? = some q ∧ q.error = some err := by
  rintro ⟨q, last, failed⟩
  rw [reaches.succeeded q (List.mem_of_getLast? last)] at failed
  cases failed

/-- A run that ends at a boundary, with the pending stop or with the limit that it asks for itself. -/
theorem contract_of_stop {reason : StopReason}
    (why : StopsFor initially max (device.pulses clock initially state n) reason) (early : n < rounds) :
    Contract device clock initially state max rounds
      (clock.ended device initially state n (.stopped reason)) where
  begins := reaches.begins
  delivers := delivers_after n
  fails i h failed := absurd (reaches.succeeded _ (List.getElem_mem h)) failed
  counts := reaches.counts
  stopped reason' := by
    change Ending.stopped reason = .stopped reason' ↔
      (device.pulses clock initially state n).length < rounds ∧
        (∀ q ∈ device.pulses clock initially state n, q.error = none) ∧
        StopsFor initially max (device.pulses clock initially state n) reason'
    rw [Device.length_pulses, Ending.stopped.injEq]
    constructor
    · rintro rfl
      exact ⟨early, reaches.succeeded, why⟩
    · rintro ⟨_, _, why'⟩
      exact why.unique why'
  failed err := iff_of_false nofun (reaches.not_failed err)
  unfinished := by
    refine iff_of_false nofun fun ⟨all, _⟩ => ?_
    exact Nat.ne_of_lt early ((device.length_pulses clock initially state n).symm.trans all)
  shows reason' same := by
    cases same
    rfl
  keeps never := absurd rfl (never reason)

/-- A run that is still going when its rounds are used up. -/
theorem contract_of_unfinished : Contract device clock initially state max n
    ({ clock.during n with running := false }, device.after clock initially state n, .unfinished) where
  begins := reaches.begins
  delivers := delivers_after n
  fails i h failed := absurd (reaches.succeeded _ (List.getElem_mem h)) failed
  counts := reaches.counts
  stopped reason := by
    refine iff_of_false nofun fun ⟨early, _⟩ => ?_
    exact Nat.ne_of_lt early (device.length_pulses clock initially state n)
  failed err := iff_of_false nofun (reaches.not_failed err)
  unfinished := iff_of_true rfl ⟨device.length_pulses clock initially state n, reaches.succeeded⟩
  shows reason same := by cases same
  keeps _ := device.stop_after clock initially state n

end Reaches

/-- A run whose last pulse has failed. -/
theorem contract_of_failure {last : Delivered} {err : ExecutionError}
    (reaches : clock.Reaches device initially state max n)
    (begins : clock.Begins initially max (device.pulses clock initially state (n + 1)))
    (pulses : device.pulses clock initially state (n + 1) =
      device.pulses clock initially state n ++ [last])
    (failed : last.error = some err) :
    Contract device clock initially state max rounds
      (clock.ended device initially state n (.failed err)) := by
  have length := device.length_pulses clock initially state n
  have some_failed : ¬ ∀ q ∈ device.pulses clock initially state (n + 1), q.error = none := by
    intro every
    have fine := every last (by simp [pulses])
    rw [failed] at fine
    cases fine
  constructor
  case begins => exact begins
  case delivers => exact delivers_after (n + 1)
  case fails =>
    have fails := eq_last_of_failed last reaches.succeeded
    rw [← pulses] at fails
    exact fails
  case counts =>
    have counted : (device.pulses clock initially state (n + 1)).countP (·.error.isNone) = n := by
      rw [pulses, List.countP_append, countP_of_succeeded reaches.succeeded, length, List.countP_singleton,
        failed]
      rfl
    change { clock.during n with running := false } = { clock with
      cycles := clock.cycles + List.countP _ (device.pulses clock initially state (n + 1))
      running := false }
    rw [counted, during]
  case stopped => exact fun reason => iff_of_false nofun fun h => some_failed h.2.1
  case failed =>
    intro err'
    change Ending.failed err = .failed err' ↔
      ∃ q, (device.pulses clock initially state (n + 1)).getLast? = some q ∧ q.error = some err'
    rw [pulses, List.getLast?_concat, Ending.failed.injEq]
    simp only [Option.some.injEq, exists_eq_left', failed]
  case unfinished => exact iff_of_false nofun fun h => some_failed h.2
  case shows => exact nofun
  case keeps => exact fun _ => device.stop_after clock initially state (n + 1)

theorem contract_of_endsAt {ending : Ending} (ends : clock.EndsAt device initially state max n ending)
    (enough : n < rounds) :
    Contract device clock initially state max rounds (clock.ended device initially state n ending) := by
  cases ends with
  | stopped reaches why => exact contract_of_stop reaches why enough
  | failed reaches begins pulses failed => exact contract_of_failure reaches begins pulses failed

theorem runFor_keeps_contract (device : Device τ) (clock : Clock) (initially : Option StopReason)
    (state : τ) (max : Option Nat) (rounds : Nat) :
    Contract device clock initially state max rounds
      (clock.runFor device.listener max rounds (.start initially state)) := by
  rcases reaches_or_endsAt device clock initially state max rounds with reaches | ⟨n, enough, _, ends⟩
  · rw [runFor_of_cut reaches]
    exact contract_of_unfinished reaches
  · rw [runFor_of_endsAt ends enough]
    exact contract_of_endsAt ends enough

/-- A run is cut off exactly when nothing ends it within its rounds. -/
theorem runFor_unfinished_iff :
    (clock.runFor device.listener max rounds (.start initially state)).2.2 = .unfinished ↔
      clock.Reaches device initially state max rounds := by
  constructor
  · intro cut
    rcases reaches_or_endsAt device clock initially state max rounds with reaches | ⟨n, enough, _, ends⟩
    · exact reaches
    · rw [runFor_of_endsAt ends enough] at cut
      cases ends <;> cases cut
  · intro reaches
    rw [runFor_of_cut reaches]

/-- It comes to any other ending exactly when that is what ends it first. -/
theorem runFor_eq_iff_endsAt {ending : Ending} (ended : ending ≠ .unfinished) :
    (clock.runFor device.listener max rounds (.start initially state)).2.2 = ending ↔
      ∃ n < rounds, clock.EndsAt device initially state max n ending := by
  constructor
  · rintro rfl
    rcases reaches_or_endsAt device clock initially state max rounds with reaches | ⟨n, enough, _, ends⟩
    · exact absurd (runFor_unfinished_iff.mpr reaches) ended
    · rw [runFor_of_endsAt ends enough]
      exact ⟨n, enough, ends⟩
  · rintro ⟨n, enough, ends⟩
    rw [runFor_of_endsAt ends enough]
    rfl

/-- Once a run has ended, further rounds change nothing. -/
theorem runFor_add (more : Nat)
    (ended : (clock.runFor device.listener max rounds (.start initially state)).2.2 ≠ .unfinished) :
    clock.runFor device.listener max (rounds + more) (.start initially state) =
      clock.runFor device.listener max rounds (.start initially state) := by
  obtain ⟨n, enough, ends⟩ := (runFor_eq_iff_endsAt ended).mp rfl
  rw [runFor_of_endsAt ends enough, runFor_of_endsAt ends (Nat.lt_add_right more enough)]

/-- Whatever the device does, whatever was pending before and whatever the budget is, a run keeps the
contract, after any number of rounds. With a budget it ends, after no more pulses than the budget allows.
Without one it ends as soon as it has the rounds for it: it is cut off only if every round was a pulse that
succeeded with no stop pending before it, it stops or fails where the first boundary with a pending stop or
the first failing pulse is, and what it comes to is the same with all further rounds. -/
theorem run_keeps_contract (device : Device τ) (clock : Clock) (initially : Option StopReason) (state : τ)
    (max : Option Nat) :
    let r := clock.run device.listener max (.start initially state)
    let within rounds := clock.runFor device.listener max rounds (.start initially state)
    Contract device clock initially state max (fuelFor max) r ∧
      (∀ m, max = some m → r.2.2 ≠ .unfinished ∧ r.2.1.journal.length ≤ m) ∧
      ∀ rounds, Contract device clock initially state max rounds (within rounds) ∧
        ((within rounds).2.2 = .unfinished ↔ clock.Reaches device initially state max rounds) ∧
        (∀ ending, ending ≠ .unfinished → ((within rounds).2.2 = ending ↔
          ∃ n < rounds, clock.EndsAt device initially state max n ending)) ∧
        ((within rounds).2.2 ≠ .unfinished → ∀ more, within (rounds + more) = within rounds) := by
  intro r within
  have every : ∀ rounds, Contract device clock initially state max rounds (within rounds) :=
    runFor_keeps_contract device clock initially state max
  have run : r = within (fuelFor max) := run_eq_runFor clock device.listener max _
  refine ⟨run ▸ every (fuelFor max), fun m budget => ?_, fun rounds =>
    ⟨every rounds, runFor_unfinished_iff, fun ending ended => runFor_eq_iff_endsAt ended,
      fun ended more => runFor_add more ended⟩⟩
  rw [run]
  refine ⟨?_, (every (fuelFor max)).begins.length_le budget⟩
  subst budget
  exact run_ends m clock _

end Clock

/-- A device that plays a script, one entry a pulse, and does nothing past its end. -/
def Device.script : Device (List (List ControlAction × Option ExecutionError)) where
  pulse _ script := match script with
    | [] => ([], [], none)
    | (actions, error) :: rest => (rest, actions, error)

/-- The first pulse clears its own request, and the last one that the budget allows asks for a stop: the run
goes on behind the first and stops for the reason of the last, not for its budget. Without a budget three
rounds are not enough, and from four on the run stops for that reason, at the horizon too. -/
theorem Clock.run_keeps_contract_atBudget :
    let script := [([.request .external, .clear], none), ([], none),
      ([.request (.halted 8), .request .external], none)]
    let r := (Clock.new 0).run Device.script.listener (some 3) (.start none script)
    let unbudgeted := (Clock.new 0).run Device.script.listener none (.start none script)
    r.2.2 = .stopped (.halted 8) ∧ r.2.1.stop = some (.halted 8) ∧
      r.1.cycles = r.2.1.journal.countP (·.error.isNone) ∧ r.2.1.journal.length ≤ 3 ∧
      (Clock.new 0).Reaches Device.script none script none 3 ∧
      unbudgeted.2.2 = .stopped (.halted 8) := by
  intro script r unbudgeted
  have ends : r.2.2 = .stopped (.halted 8) := by decide
  obtain ⟨contract, budget, _⟩ := run_keeps_contract Device.script (.new 0) none script (some 3)
  obtain ⟨_, _, every⟩ := run_keeps_contract Device.script (.new 0) none script none
  refine ⟨ends, contract.shows _ ends, ?_, (budget 3 rfl).2, (every 3).2.1.mp (by decide), ?_⟩
  · have cycles := congrArg Clock.cycles contract.counts
    exact cycles.trans (Nat.zero_add _)
  · have four : ((Clock.new 0).runFor Device.script.listener none 4 (.start none script)).2.2 =
        .stopped (.halted 8) := by decide
    have same := (every 4).2.2.2 (by rw [four]; exact nofun) (horizon - 4)
    have enough : 4 + (horizon - 4) = horizon := by decide
    rw [enough] at same
    exact (congrArg (·.2.2) same).trans four

end Legv8
