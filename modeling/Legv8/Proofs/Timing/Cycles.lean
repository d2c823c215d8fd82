import Legv8.Proofs.Refinement.Halting
import Legv8.Proofs.Timing.Places

/-! # Cycles of a halting run

A run that halts keeps to the schedule of its path, pulse by pulse. Between two pulses the machine is in one
of four situations. Mostly the next instruction of the path is on its way to decode or waits there. Behind a
branch that is taken, or a halt, the front end holds nothing of the path, and all that matters is where that
instruction is: in the latch behind decode, or in execution. In each situation it is known for every station
past decode which instructions of the path have got there, and a pulse leads to another of these situations,
until the halt is executed. -/
namespace Legv8

/-- After `t` pulses the last `k` stations have been reached by the instructions that commit within `k`
further pulses: every instruction before the halt at `n` commits six pulses behind its issue. -/
def ExecutedPath.OnTime (π : ExecutedPath) (n t : Nat) (p : Pipeline) (k : Nat) : Prop :=
  ∀ i < n, i < p.within k ↔ π.issues i + 6 ≤ t + k

namespace ExecutedPath

variable {π : ExecutedPath} {n t c k : Nat} {p q : Pipeline}

theorem OnTime.shift (h : π.OnTime n t p (k + 1)) (shifted : q.within k = p.within (k + 1)) :
    π.OnTime n (t + 1) q k := by
  intro i hi
  rw [shifted, h i hi]
  omega

/-- The instructions before `c` have been issued early enough, and `c` is too late. -/
theorem onTime_of_place (place : p.within k = c) (before : ∀ i < c, π.issues i + 6 ≤ t + k)
    (behind : t + k < π.issues c + 6) : π.OnTime n t p k := by
  intro i _
  rw [place]
  refine ⟨before i, fun reached => Nat.lt_of_not_le fun late => ?_⟩
  have := π.issues_strictMono.monotone late
  omega

/-- The next instruction of the path is `c`, on its way to decode or waiting there. -/
structure Straight (π : ExecutedPath) (n t : Nat) (p : Pipeline) (c : Nat) : Prop where
  bound : c ≤ n
  onTime : ∀ k ≤ 6, π.OnTime n t p k
  place : p.within 6 = c
  early : t < π.issues c
  near : π.enters c ≤ t + 2
  decode : p.decode.isSome = decide (π.enters c ≤ t)
  ifId : p.latches.ifId.isSome = decide (π.enters c = t + 1 ∨ π.enters c < t)
  fetch : p.fetch.pending = decide (π.enters c = t + 2 ∨ π.enters c = t)

/-- A branch that is going to be taken, or the halt, has just been issued. -/
structure Turning (π : ExecutedPath) (n t : Nat) (p : Pipeline) (c : Nat) : Prop where
  bound : c ≤ n
  onTime : ∀ k ≤ 5, π.OnTime n t p k
  place : p.within 5 = c
  now : π.issues c = t
  held : p.latches.idEx.isSome = true
  turns : π.branches c = true ∨ c = n

/-- A branch that is going to be taken is in execution. -/
structure Branching (π : ExecutedPath) (n t : Nat) (p : Pipeline) (c : Nat) : Prop where
  bound : c < n
  onTime : ∀ k ≤ 4, π.OnTime n t p k
  place : p.within 4 = c
  now : π.issues c + 1 = t
  held : p.execute.pending.isSome = true
  taken : π.branches c = true

/-- The halt is in execution and waits for the instructions before it to commit. -/
structure Draining (π : ExecutedPath) (n t : Nat) (p : Pipeline) : Prop where
  onTime : ∀ k ≤ 4, π.OnTime n t p k
  place : p.within 4 = n
  late : π.issues n < t
  early : t < π.finish n
  held : p.execute.pending.isSome = true

/-- The situations of a run that keeps to the schedule. -/
inductive Kept (π : ExecutedPath) (n t : Nat) (p : Pipeline) : Prop where
  | straight (c : Nat) (h : π.Straight n t p c)
  | turning (c : Nat) (h : π.Turning n t p c)
  | branching (c : Nat) (h : π.Branching n t p c)
  | draining (h : π.Draining n t p)

theorem Kept.lt_finish (h : π.Kept n t p) : t < π.finish n := by
  have last : π.issues n + 2 ≤ π.finish n := (finish_le_iff.mp (Nat.le_refl _)).1
  cases h with
  | straight c h =>
    have := π.issues_strictMono.monotone h.bound
    have := h.early
    omega
  | turning c h =>
    have := π.issues_strictMono.monotone h.bound
    have := h.now
    omega
  | branching c h =>
    have := π.issues_strictMono h.bound
    have := h.now
    omega
  | draining h => exact h.early

/-- The halt has not retired. -/
theorem Kept.retired_le (h : π.Kept n t p) : p.core.statistics.retired ≤ n := by
  rw [← p.within_zero]
  cases h with
  | straight c h => exact Nat.le_trans (p.within_mono (Nat.zero_le 6)) (h.place ▸ h.bound)
  | turning c h => exact Nat.le_trans (p.within_mono (Nat.zero_le 5)) (h.place ▸ h.bound)
  | branching c h => exact Nat.le_trans (p.within_mono (Nat.zero_le 4)) (h.place ▸ Nat.le_of_lt h.bound)
  | draining h => exact Nat.le_trans (p.within_mono (Nat.zero_le 4)) (Nat.le_of_eq h.place)

end ExecutedPath

/-! ## Pulses -/

open ExecutedPath

variable {s : Sequential} {n t c : Nat} {addr : UInt64} {p q : Pipeline}

/-- As long as the next instruction is close to decode or in it, nothing before it halts or takes a
branch. -/
theorem HeadsFor.passes (h : HeadsFor s n addr p.view) (steady : p.execute.flushing = false)
    (bound : c ≤ n) (onTime : s.path.OnTime n t p 4) (past : p.within 5 ≤ c)
    (near : s.path.enters c ≤ t + 2) : ∃ q, p.Passes q := by
  refine Pipeline.exists_passes (h.running (past.trans bound)) h.reserved steady fun y hy => ?_
  have here : p.within 4 < c := by
    rw [p.within_execute, hy, Option.isSome_some, Bool.toNat_true] at past
    exact past
  have oldest := Pipeline.issued_of_execute hy
  obtain ⟨out, target, alu, result, branches⟩ :=
    h.forwards p.within_four (Nat.lt_of_lt_of_le here bound) oldest
  cases target with
  | none => exact ⟨out, alu, result⟩
  | some target =>
    -- behind a branch nothing would be so close to decode yet
    have gap := issues_add_four_le branches here
    have waits := (onTime (p.within 4) (Nat.lt_of_lt_of_le here bound)).not.mp (Nat.lt_irrefl _)
    omega

theorem ExecutedPath.Turning.pulse (h : HeadsFor s n addr p.view) (steady : p.execute.flushing = false)
    (at_ : s.path.Turning n t p c) : s.path.Kept n (t + 1) p.pulse.1 := by
  have near : s.path.enters c ≤ t + 2 := by
    have := s.path.enters_lt_issues c
    have := at_.now
    omega
  obtain ⟨q, passes⟩ := h.passes steady at_.bound (at_.onTime 4 (by decide)) (Nat.le_of_eq at_.place) near
  have onTime : ∀ k ≤ 4, s.path.OnTime n (t + 1) p.pulse.1 k := fun k hk =>
    (at_.onTime (k + 1) (Nat.succ_le_succ hk)).shift (passes.within_pulse (Nat.le_succ_of_le hk))
  have place : p.pulse.1.within 4 = c := (passes.within_pulse (by decide)).trans at_.place
  have held : p.pulse.1.execute.pending.isSome = true := by
    rw [passes.comes.execute_pulse, passes.execute]
    exact at_.held
  by_cases last : c = n
  · subst last
    have early : t + 1 < s.path.finish c := by
      have := (finish_le_iff.mp (Nat.le_refl (s.path.finish c))).1
      have := at_.now
      omega
    exact .draining ⟨onTime, place, Nat.lt_succ_of_le (Nat.le_of_eq at_.now), early, held⟩
  · exact .branching c ⟨Nat.lt_of_le_of_ne at_.bound last, onTime, place, congrArg (· + 1) at_.now, held,
      at_.turns.resolve_right last⟩

theorem ExecutedPath.Branching.pulse (h : HeadsFor s n addr p.view) (at_ : s.path.Branching n t p c) :
    s.path.Kept n (t + 1) p.pulse.1 := by
  obtain ⟨y, hy⟩ := Option.isSome_iff_exists.mp at_.held
  have oldest := Pipeline.issued_of_execute hy
  obtain ⟨out, target, alu, result, branches⟩ :=
    h.forwards (p.within_four.trans at_.place) at_.bound oldest
  rw [at_.taken] at branches
  obtain ⟨target, rfl⟩ := Option.isSome_iff_exists.mp branches.symm
  have running := h.running (Nat.le_trans (Nat.le_of_eq at_.place) (Nat.le_of_lt at_.bound))
  obtain ⟨q, comes, shifted, noExecute, noIdEx, noDecode, noIfId, noFetch⟩ :=
    Pipeline.comesToDecode_redirect running h.reserved hy result
  -- the branch moves on as all before it, and nothing is left behind it
  have four : q.within 4 = c + 1 := by
    rw [shifted 4 (Nat.le_refl 4), p.within_execute, at_.place, at_.held, Bool.toNat_true]
  have live := h.running_atDecode comes (Nat.le_trans (Nat.le_of_eq four) at_.bound)
  obtain ⟨core, ifId, fetch, ends, held, pending⟩ :=
    comes.pulse_of_next (Pipeline.decodePhase_empty live noDecode)
  rw [← comes.within_pulse (by decide)] at four
  have six : p.pulse.1.within 6 = c + 1 := by
    rw [Pipeline.within_idEx, Pipeline.within_execute, four, comes.execute_pulse, noExecute, ends]
    simp only [noIdEx, Option.isSome_none, Bool.toNat_false, Nat.add_zero]
  have enters := enters_succ_of_branches at_.taken
  have now := at_.now
  have next := s.path.enters_lt_issues (c + 1)
  have before : ∀ i < c + 1, s.path.issues i ≤ s.path.issues c := fun i hi =>
    s.path.issues_strictMono.monotone (Nat.le_of_lt_succ hi)
  refine .straight (c + 1) ⟨at_.bound, fun k hk => ?_, six, by omega, by omega, ?_, ?_, ?_⟩
  · rcases Nat.lt_or_ge k 4 with past | behind
    · refine (at_.onTime (k + 1) past).shift ?_
      rw [comes.within_pulse (by omega), shifted k (Nat.le_of_lt past)]
    · have place : p.pulse.1.within k = c + 1 := Nat.le_antisymm
        (Nat.le_trans (p.pulse.1.within_mono hk) (Nat.le_of_eq six))
        (Nat.le_trans (Nat.le_of_eq four.symm) (p.pulse.1.within_mono behind))
      refine onTime_of_place place (fun i hi => ?_) (by omega)
      have := before i hi
      omega
  · rw [ends, noIfId]
    exact (decide_eq_false (by omega)).symm
  · rw [ends, held, noFetch]
    exact (decide_eq_false (by omega)).symm
  · rw [ends, pending, noFetch]
    exact (decide_eq_true (.inl (by omega))).symm

section Straight

variable (h : HeadsFor s n addr p.view) (at_ : s.path.Straight n t p c) (passes : p.Passes q)

include at_ passes in
theorem ExecutedPath.Straight.onTime_pulse {k : Nat} (hk : k ≤ 5) : s.path.OnTime n (t + 1) p.pulse.1 k :=
  (at_.onTime (k + 1) (Nat.succ_le_succ hk)).shift (passes.within_pulse hk)

include at_ passes in
theorem ExecutedPath.Straight.within_pulse : p.pulse.1.within 5 = c :=
  (passes.within_pulse (by decide)).trans at_.place

include at_ passes in
/-- If the pulse issues nothing, all stations past decode are on time with what they have. -/
theorem ExecutedPath.Straight.onTime_pulse_of_none (late : t + 1 < s.path.issues c)
    (none : p.pulse.1.latches.idEx = none) :
    (∀ k ≤ 6, s.path.OnTime n (t + 1) p.pulse.1 k) ∧ p.pulse.1.within 6 = c := by
  have six : p.pulse.1.within 6 = c := by
    rw [Pipeline.within_idEx, at_.within_pulse passes, none]
    rfl
  refine ⟨fun k hk => ?_, six⟩
  rcases Nat.lt_or_eq_of_le hk with past | rfl
  · exact at_.onTime_pulse passes (Nat.le_of_lt_succ past)
  · refine onTime_of_place six (fun i hi => ?_) (by omega)
    have := (at_.onTime 6 (by decide) i (Nat.lt_of_lt_of_le hi at_.bound)).mp (at_.place.symm ▸ hi)
    omega

include h at_ passes

/-- The instruction that decode holds is issued in this pulse if the schedule says so. -/
theorem ExecutedPath.Straight.decoded (entered : s.path.enters c ≤ t) :
    ∃ e i, q.decode = some e ∧ e.fault = none ∧ e.accept = .ok i ∧
      (i.pendingSource? q.core.reservations = none ↔ s.path.issues c ≤ t + 1) := by
  have held : q.decode.isSome = true := by
    rw [passes.decode, at_.decode]
    exact decide_eq_true entered
  obtain ⟨e, he⟩ := Option.isSome_iff_exists.mp held
  have oldest := Pipeline.fetched_of_decode he
  have place : q.within 6 = c := by
    rw [q.within_idEx, passes.idEx, passes.shifted 5 (by decide), at_.place]
    rfl
  have straight : ∀ j < c, q.core.statistics.retired + q.view.front.length ≤ j →
      s.path.branches j = false := by
    intro j hj late
    rw [q.within_four, passes.shifted 4 (by decide)] at late
    have waits := (at_.onTime 5 (by decide) j (Nat.lt_of_lt_of_le hj at_.bound)).not.mp
      (Nat.not_lt.mpr late)
    refine Bool.eq_false_iff.mpr fun taken => ?_
    have gap := issues_add_four_le taken hj
    have near := at_.near
    omega
  obtain ⟨i, inside, accept, ready⟩ :=
    (h.moves (passes.comes.moves h.reserved).1).decoded (q.within_six.trans place) at_.bound straight oldest
  refine ⟨e, i, he, inside, accept, ready.trans ?_⟩
  rw [issues_le_iff, and_iff_right (Nat.succ_le_succ entered)]
  refine forall₂_congr fun j hj => imp_congr_right fun _ => ?_
  have commits := at_.onTime 1 (by decide) j (Nat.lt_of_lt_of_le hj at_.bound)
  rwa [← passes.shifted 0 (by decide)] at commits

theorem ExecutedPath.Straight.running_atDecode : q.core.stop = none :=
  h.running_atDecode passes.comes
    (Nat.le_trans (Nat.le_of_eq ((passes.shifted 5 (by decide)).trans at_.place)) at_.bound)

/-- The instruction is still being fetched, or comes to decode in this pulse. -/
theorem ExecutedPath.Straight.pulse_of_outside (outside : t < s.path.enters c) :
    s.path.Straight n (t + 1) p.pulse.1 c := by
  have noDecode : q.decode = none := by
    rw [← Option.not_isSome_iff_eq_none, passes.decode, at_.decode]
    simpa using outside
  obtain ⟨core, ifId, fetch, ends, held, pending⟩ := passes.comes.pulse_of_next
    (Pipeline.decodePhase_empty (at_.running_atDecode h passes) noDecode)
  have late := s.path.enters_lt_issues c
  obtain ⟨onTime, six⟩ := at_.onTime_pulse_of_none passes (by omega) (by rw [ends]; exact passes.idEx)
  have near := at_.near
  refine ⟨at_.bound, onTime, six, by omega, by omega, ?_, ?_, ?_⟩
  · rw [ends, Bool.eq_iff_iff]
    simp only [passes.ifId, at_.ifId, decide_eq_true_eq]
    omega
  · rw [ends, Bool.eq_iff_iff]
    simp only [held, passes.fetch, at_.fetch, Option.isSome_none, Bool.false_or, decide_eq_true_eq]
    omega
  · rw [ends, Bool.eq_iff_iff]
    simp only [pending, passes.fetch, at_.fetch, Option.isSome_none, beq_iff_eq,
      decide_eq_false_iff_not, decide_eq_true_eq]
    omega

/-- The instruction waits in decode. -/
theorem ExecutedPath.Straight.pulse_of_waiting (entered : s.path.enters c ≤ t)
    (late : t + 1 < s.path.issues c) :
    s.path.Straight n (t + 1) p.pulse.1 c := by
  obtain ⟨e, i, he, inside, accept, ready⟩ := at_.decoded h passes entered
  obtain ⟨r, waits⟩ := Option.ne_none_iff_exists'.mp (ready.not.mpr (Nat.not_le.mpr late))
  obtain ⟨core, ifId, fetch, ends, held, pending⟩ := passes.comes.pulse_of_next
    (Pipeline.decodePhase_waits (at_.running_atDecode h passes) he inside accept waits)
  obtain ⟨onTime, six⟩ := at_.onTime_pulse_of_none passes late (by rw [ends]; exact passes.idEx)
  refine ⟨at_.bound, onTime, six, late, by omega, ?_, ?_, ?_⟩
  · rw [ends, he]
    exact (decide_eq_true (Nat.le_succ_of_le entered)).symm
  · rw [ends, Bool.eq_iff_iff]
    simp only [held, passes.fetch, at_.fetch, passes.ifId, at_.ifId, Bool.or_eq_true, decide_eq_true_eq]
    omega
  · rw [ends, Bool.eq_iff_iff]
    simp only [pending, passes.fetch, at_.fetch, passes.ifId, at_.ifId, beq_iff_eq, decide_eq_decide,
      decide_eq_true_eq]
    omega

/-- The instruction is issued. -/
theorem ExecutedPath.Straight.pulse_of_issue (now : s.path.issues c = t + 1) :
    s.path.Kept n (t + 1) p.pulse.1 := by
  have entered : s.path.enters c ≤ t := by
    have := s.path.enters_lt_issues c
    omega
  obtain ⟨e, i, he, inside, accept, ready⟩ := at_.decoded h passes entered
  obtain ⟨y, issued⟩ := Pipeline.decodePhase_issues (at_.running_atDecode h passes) he inside accept
    (ready.mpr (Nat.le_of_eq now)) passes.idEx
  obtain ⟨core, ifId, fetch, ends, held, pending⟩ := passes.comes.pulse_of_next issued
  have idEx : p.pulse.1.latches.idEx.isSome = true := by rw [ends]; rfl
  by_cases turns : s.path.branches c = true ∨ c = n
  · exact .turning c ⟨at_.bound, fun k hk => at_.onTime_pulse passes hk, at_.within_pulse passes, now, idEx,
      turns⟩
  · obtain ⟨straight, before⟩ := not_or.mp turns
    have six : p.pulse.1.within 6 = c + 1 := by
      rw [Pipeline.within_idEx, at_.within_pulse passes, idEx, Bool.toNat_true]
    have enters := enters_succ_of_not_branches (Bool.eq_false_iff.mpr straight)
    have later := s.path.issues_strictMono (Nat.lt_add_one c)
    refine .straight (c + 1)
      ⟨Nat.lt_of_le_of_ne at_.bound before, fun k hk => ?_, six, by omega, by omega, ?_, ?_, ?_⟩
    · rcases Nat.lt_or_eq_of_le hk with past | rfl
      · exact at_.onTime_pulse passes (Nat.le_of_lt_succ past)
      · refine onTime_of_place six (fun i hi => ?_) (by omega)
        have := s.path.issues_strictMono.monotone (Nat.le_of_lt_succ hi)
        omega
    · rw [ends, Bool.eq_iff_iff]
      simp only [passes.ifId, at_.ifId, decide_eq_true_eq]
      omega
    · rw [ends, Bool.eq_iff_iff]
      simp only [held, passes.fetch, at_.fetch, Option.isSome_none, Bool.false_or, decide_eq_true_eq]
      omega
    · rw [ends, Bool.eq_iff_iff]
      simp only [pending, passes.fetch, at_.fetch, Option.isSome_none, beq_iff_eq,
        decide_eq_false_iff_not, decide_eq_true_eq]
      omega

end Straight

theorem ExecutedPath.Straight.pulse (h : HeadsFor s n addr p.view) (steady : p.execute.flushing = false)
    (at_ : s.path.Straight n t p c) : s.path.Kept n (t + 1) p.pulse.1 := by
  have past : p.within 5 ≤ c := at_.place ▸ p.within_mono (by decide)
  obtain ⟨q, passes⟩ := h.passes steady at_.bound (at_.onTime 4 (by decide)) past at_.near
  rcases Nat.lt_or_ge t (s.path.enters c) with outside | entered
  · exact .straight c (at_.pulse_of_outside h passes outside)
  · rcases Nat.lt_or_eq_of_le (Nat.succ_le_of_lt at_.early) with late | now
    · exact .straight c (at_.pulse_of_waiting h passes entered late)
    · exact at_.pulse_of_issue h passes now.symm

theorem ExecutedPath.Draining.pulse (h : HeadsFor s n addr p.view) (at_ : s.path.Draining n t p) :
    (s.path.finish n = t + 1 ∧ p.pulse.1.core.stop ≠ none) ∨ s.path.Kept n (t + 1) p.pulse.1 := by
  obtain ⟨y, hy⟩ := Option.isSome_iff_exists.mp at_.held
  have oldest := Pipeline.issued_of_execute hy
  obtain ⟨alu, result⟩ := h.halted (p.within_four.trans at_.place) oldest
  have running := h.running (Nat.le_of_eq at_.place)
  have late := at_.late
  have early := at_.early
  by_cases alone : p.within 1 = p.within 4
  · refine .inl ⟨Nat.le_antisymm (finish_le_iff.mpr ⟨by omega, fun i hi => ?_⟩) early,
      Pipeline.pulse_of_oldest_halt running h.reserved hy result alone⟩
    rw [at_.place] at alone
    exact (at_.onTime 1 (by decide) i hi).mp (alone.symm ▸ hi)
  · obtain ⟨q, comes, shifted, kept, held⟩ :=
      Pipeline.comesToDecode_draining running h.reserved hy result alone
    have place : p.pulse.1.within 4 = n := by
      rw [comes.within_pulse (by decide), kept, at_.place]
    have onTime : ∀ k ≤ 4, s.path.OnTime n (t + 1) p.pulse.1 k := by
      intro k hk
      rcases Nat.lt_or_eq_of_le hk with past | rfl
      · refine (at_.onTime (k + 1) past).shift ?_
        rw [comes.within_pulse (by omega), shifted k (Nat.le_of_lt_succ past)]
      · intro i hi
        have := s.path.issues_strictMono hi
        rw [place]
        omega
    -- the halt would not wait if the instruction before it committed in this pulse
    have waits : t + 1 < s.path.finish n := by
      refine Nat.lt_of_not_le fun ends => alone (Nat.le_antisymm (p.within_mono (by decide)) ?_)
      obtain ⟨_, commits⟩ := finish_le_iff.mp ends
      refine Nat.le_of_not_lt fun fewer => ?_
      rw [at_.place] at fewer
      exact Nat.lt_irrefl _ ((at_.onTime 1 (by decide) _ fewer).mpr (commits _ fewer))
    refine .inr (.draining ⟨onTime, place, Nat.lt_succ_of_lt late, waits, ?_⟩)
    rw [comes.execute_pulse, held]
    rfl

/-- A pulse keeps to the schedule. In the pulse that the schedule gives for the end, the machine stops. -/
theorem ExecutedPath.Kept.pulse (h : HeadsFor s n addr p.view) (steady : p.execute.flushing = false)
    (kept : s.path.Kept n t p) :
    (s.path.finish n = t + 1 ∧ p.pulse.1.core.stop ≠ none) ∨ s.path.Kept n (t + 1) p.pulse.1 := by
  cases kept with
  | straight c at_ => exact .inr (at_.pulse h steady)
  | turning c at_ => exact .inr (at_.pulse h steady)
  | branching c at_ => exact .inr (at_.pulse h)
  | draining at_ => exact at_.pulse h

/-! ## Runs -/

open Pipeline (Starts)

variable {image : Memory} {pc : UInt64} {tracing : Bool}

theorem headsFor_pulses (start : Starts image pc p)
    (code : (Sequential.new (.new image pc tracing)).CodeUntouched)
    (halts : (Sequential.new (.new image pc tracing)).StopsAt n (.halted addr)) (m : Nat) :
    HeadsFor (.new (.new image pc tracing)) n addr (p.pulses m).view :=
  ⟨rfl, rfl, halts, (refines_pulses start code m).1, (refines_pulses start code m).2⟩

theorem steady_pulses (start : Starts image pc p) (m : Nat) : (p.pulses m).execute.flushing = false := by
  obtain ⟨_, rfl⟩ := start.eq_new
  exact Pipeline.flushing_pulses rfl m

/-- The first pulse only launches the first fetch. -/
theorem kept_one (start : Starts image pc p) (π : ExecutedPath) (n : Nat) : π.Kept n 1 (p.pulses 1) := by
  obtain ⟨tracing₀, rfl⟩ := start.eq_new
  have empty : ((Pipeline.new (.new image pc tracing₀)).pulses 1).within 6 = 0 := rfl
  have enters : π.enters 0 = 3 := enters_zero
  have issues := π.enters_lt_issues 0
  refine .straight 0 ⟨Nat.zero_le n, fun k hk => ?_, empty, by omega, by omega, ?_, ?_, ?_⟩
  · have place := Nat.le_zero.mp (Nat.le_trans (Pipeline.within_mono _ hk) (Nat.le_of_eq empty))
    exact onTime_of_place place (fun i hi => absurd hi (Nat.not_lt_zero i)) (by omega)
  all_goals
    rw [enters]
    rfl

section Halt

variable (start : Starts image pc p) (code : (Sequential.new (.new image pc tracing)).CodeUntouched)
  (halts : (Sequential.new (.new image pc tracing)).StopsAt n (.halted addr))
include start code halts

/-- From the first pulse on, the pipeline keeps to the schedule until its end. -/
theorem kept_pulses (early : t + 1 < (Sequential.new (.new image pc tracing)).path.finish n) :
    (Sequential.new (.new image pc tracing)).path.Kept n (t + 1) (p.pulses (t + 1)) := by
  induction t with
  | zero => exact kept_one start _ n
  | succ t ih =>
    have before := ih (Nat.lt_of_succ_lt early)
    rcases before.pulse (headsFor_pulses start code halts _) (steady_pulses start _) with ⟨ends, _⟩ | kept
    · exact absurd early (ends ▸ Nat.lt_irrefl _)
    · exact kept

/-- The machine stops in the pulse that the schedule gives for the end, and not before. -/
theorem stops_finish :
    (∀ t < (Sequential.new (.new image pc tracing)).path.finish n, (p.pulses t).core.stop = none) ∧
      (p.pulses ((Sequential.new (.new image pc tracing)).path.finish n)).core.stop ≠ none := by
  have running : ∀ t < (Sequential.new (.new image pc tracing)).path.finish n,
      (p.pulses t).core.stop = none := by
    intro t early
    cases t with
    | zero =>
      obtain ⟨_, rfl⟩ := start.eq_new
      rfl
    | succ t =>
      exact (headsFor_pulses start code halts _).stop (kept_pulses start code halts early).retired_le
  refine ⟨running, ?_⟩
  have late := (finish_le_iff.mp (Nat.le_refl ((Sequential.new (.new image pc tracing)).path.finish n))).1
  obtain ⟨t, ends⟩ := Nat.exists_eq_add_of_le' (Nat.le_trans (Nat.le_add_left 2 _) late)
  have before := kept_pulses start code halts (t := t) (by omega)
  rcases before.pulse (headsFor_pulses start code halts _) (steady_pulses start _) with
    ⟨_, stopped⟩ | kept
  · rw [ends]
    exact stopped
  · have := kept.lt_finish
    omega

end Halt

/-- If the pipeline halts, its cycle counter is what the schedule of the executed path gives for the halt.
This path is that of the sequential machine, and of it only the words and the outcomes of branches count. -/
theorem cycles_of_halted (start : Starts image pc p)
    (code : (Sequential.new (.new image pc tracing)).CodeUntouched) {m : Nat}
    (halted : (p.pulses m).core.stop = some (.halted addr)) :
    let s := Sequential.new (.new image pc tracing)
    ∃ n, s.StopsAt n (.halted addr) ∧ (p.pulses m).core.statistics.cycles = s.path.finish n ∧
      ∀ t : Sequential, (∀ i ≤ n, (t.after i).entry.word = (s.after i).entry.word) →
        (∀ i < n, (t.after i).takesBranch = (s.after i).takesBranch) →
        t.path.finish n = (p.pulses m).core.statistics.cycles := by
  intro s
  obtain ⟨n, halts⟩ := (refines_pulses start code m).2.stopsAt_of_halted halted
  obtain ⟨running, stopped⟩ := stops_finish start code halts
  have cycles : (p.pulses m).core.statistics.cycles = s.path.finish n := by
    have late : s.path.finish n ≤ m := by
      refine Nat.le_of_not_lt fun early => ?_
      rw [running m early] at halted
      cases halted
    have zero : p.core.statistics.cycles = 0 := by
      obtain ⟨_, rfl⟩ := start.eq_new
      rfl
    rw [← Nat.add_sub_of_le late, Pipeline.pulses_of_stopped stopped, Pipeline.cycles_pulses running, zero,
      Nat.zero_add]
  refine ⟨n, halts, cycles, fun t words branches => ?_⟩
  rw [cycles, (Sequential.path_agreesTo words branches).finish]

/-- The branch waits for the move before it and is taken, so that the second halt stops the pipeline in the
seventeenth pulse. -/
theorem haltSkipped_cycles :
    ((Pipeline.new (.new Pipeline.haltSkipped 0 false)).pulses 17).core.stop = some (.halted 12) ∧
      ∃ n, (Sequential.new (.new Pipeline.haltSkipped 0 false)).StopsAt n (.halted 12) ∧
        (Sequential.new (.new Pipeline.haltSkipped 0 false)).path.finish n = 17 := by
  have run : ((Pipeline.new (.new Pipeline.haltSkipped 0 false)).pulses 17).core.stop =
        some (.halted 12) ∧
      ((Pipeline.new (.new Pipeline.haltSkipped 0 false)).pulses 17).core.statistics.cycles = 17 := by
    decide +kernel
  obtain ⟨n, halts, cycles, _⟩ := cycles_of_halted (.fresh false) codeUntouched_haltSkipped run.1
  exact ⟨run.1, n, halts, cycles.symm.trans run.2⟩

end Legv8
