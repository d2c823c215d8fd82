import Legv8.Proofs.Refinement.Boundaries

/-! # Rejected words

Decode rejects a word as soon as it sees it, even while the instructions before it are still in flight. A
pulse that fails so is right about a word that the sequential machine executes: that machine fails at the
same word with the same error. Whether it gets there is up to the instructions in flight. One of them may
stop the machine or branch elsewhere, and then the pulse has failed at a word that is not due. -/
namespace Legv8

theorem Memory.pc_entryAt (mem : Memory) (pc : UInt64) : (mem.entryAt pc).pc = pc := by
  unfold InFlight.pc
  rw [nextPc_entryAt, UInt64.add_sub_cancel]

/-- The address that an error names. -/
def ExecutionError.address : ExecutionError → UInt64
  | .zeroRegisterWrite pc _ => pc
  | .unknownOpcode _ _ _ pc => pc
  | .nothingReserved pc _ => pc

theorem Fetched.address_of_accept {e : Fetched} {err : ExecutionError} (h : e.accept = .error err) :
    err.address = e.pc := by
  rcases eq_of_accept_error h with rfl | rfl <;> rfl

/-- What has been fetched was in memory when the sequential machine stood at some step so far. -/
def Sourced (s : Sequential) (v : View) : Prop :=
  ∀ e ∈ v.fetched, ∃ i ≤ v.core.statistics.retired + v.accessed.length,
    (s.after i).core.memory.entryAt e.pc = e

namespace Sourced

variable {s : Sequential} {v v' : View}

theorem mono (h : Sourced s v) (fetched : ∀ e ∈ v'.fetched, e ∈ v.fetched)
    (later : v.core.statistics.retired + v.accessed.length ≤
      v'.core.statistics.retired + v'.accessed.length) : Sourced s v' := by
  intro e he
  obtain ⟨i, hi, entry⟩ := h e (fetched e he)
  exact ⟨i, Nat.le_trans hi later, entry⟩

theorem move (h : Sourced s v) (live : s.core.stop = none) (idle : s.core.reservations = [])
    (refines : Refines s v) (m : View.Move v v') : Sourced s v' := by
  cases m with
  | pace paces =>
    obtain ⟨_, _, _, rfl⟩ := paces
    exact h.mono (fun _ he => he) (Nat.le_refl _)
  | retire _ oldest commit =>
    refine h.mono (fun _ he => he) ?_
    simp only [Core.retired_commit commit, oldest, List.length_cons]
    omega
  | access live _ _ =>
    refine h.mono (fun _ he => he) ?_
    simp only [Core.settle_eq _ live, List.length_append]
    omega
  | execute _ _ _ => exact h.mono (fun _ he => he) (Nat.le_refl _)
  | redirect _ _ _ _ => exact h.mono (fun _ he => by cases he) (Nat.le_refl _)
  | halt _ _ _ _ _ => exact fun _ he => by cases he
  | issue _ oldest _ _ _ =>
    refine h.mono (fun _ he => by rw [oldest]; exact List.mem_cons_of_mem _ he) ?_
    simp only [Core.reserve_eq, Nat.le_refl]
  | fault _ _ oldest _ =>
    exact h.mono (fun _ he => by rw [oldest]; exact List.mem_cons_of_mem _ he) (Nat.le_refl _)
  | @fetch e _ result =>
    intro f hf
    rcases List.mem_append.mp hf with hf | hf
    · exact h f hf
    · rw [List.mem_singleton.mp hf]
      refine ⟨_, Nat.le_refl _, ?_⟩
      obtain ⟨_, _, _, memory⟩ := refines.agrees live idle
      have address : e.pc = v.core.pc := by rw [← result, Memory.pc_entryAt]
      rw [address, ← result]
      exact congrArg (Memory.entryAt · v.core.pc) memory.symm

end Sourced

open Pipeline (Starts)

variable {image : Memory} {pc : UInt64} {tracing : Bool} {p : Pipeline} {err : ExecutionError}

theorem sourced_pulses (start : Starts image pc p)
    (code : (Sequential.new (.new image pc tracing)).CodeUntouched) (n : Nat) :
    Sourced (.new (.new image pc tracing)) (p.pulses n).view := by
  refine pulses_keep start code ?_ (fun _ _ _ refines h m => h.move rfl rfl refines m) n
  obtain ⟨tracing₀, rfl⟩ := start.eq_new
  exact fun e he => by cases he

/-- If the machine gets to the address of a rejected word by a step that the pipeline has not performed yet,
it finds the word that was rejected. -/
theorem Sourced.fails_iff {s : Sequential} {v : View} (h : Sourced s v) (live : s.core.stop = none)
    (idle : s.core.reservations = []) (code : s.CodeUntouched) (refines : Refines s v) {e : Fetched}
    (he : e ∈ v.fetched) (inside : e.fault = none) (rejected : e.accept = .error err) :
    s.Fails err ↔ ∃ i, v.core.statistics.retired + v.accessed.length ≤ i ∧ s.Reaches i ∧
      (s.after i).core.pc = err.address := by
  constructor
  · rintro ⟨n, reaches, failed⟩
    have last := Sequential.rejected_of_step (Sequential.reservations_after idle n) failed
    refine ⟨n, Nat.le_of_not_lt fun early => ?_, reaches, ?_⟩
    · obtain ⟨_, r, result⟩ := (refines.agrees live idle).1 n early
      rw [failed] at result
      cases result
    · rw [Fetched.address_of_accept last, Sequential.pc_entry]
  · rintro ⟨n, late, reaches, arrives⟩
    rw [Fetched.address_of_accept rejected] at arrives
    obtain ⟨i, hi, source⟩ := h e he
    have entry : (s.after n).entry = e := by
      rw [← code.entryAt idle (Nat.le_trans hi late) reaches, arrives, source]
    refine ⟨n, reaches, congrArg Prod.snd (Sequential.step_of_rejected (reaches.stop idle live) ?_ ?_)⟩
    · rw [entry, inside]
    · rw [entry, rejected]

/-- The machine either runs straight into a rejected word, or an instruction in flight stops it or branches
elsewhere. -/
theorem Flowing.fails_or_diverts {s : Sequential} {v : View} (h : Flowing s v) {e : Fetched}
    {rest : List Fetched} (oldest : v.fetched = e :: rest) (inside : e.fault = none)
    (rejected : e.accept = .error err) :
    (s.Reaches v.words.length ∧ (s.after v.words.length).step.2 = .error err) ∨
      ∃ i < v.words.length, s.Reaches i ∧
        ((∃ reason, (s.after i).step.2 = .ok (some reason)) ∨
          (s.after i).step.2 = .ok none ∧
            (s.after (i + 1)).core.pc ≠ (s.after i).core.pc + 4) := by
  have slots : Tracks (Tracks (·.core.pc = v.core.pc) · (.fetched e :: rest.map .fetched)) s
      (v.front ++ v.issued.map .issued) := by
    rw [tracks_append]
    refine h.tracks.mono h.idle fun t _ at_ => ?_
    have behind := at_.tracks
    rwa [View.back, oldest, tracks_append] at behind
  have length : (v.front ++ v.issued.map Slot.issued).length = v.words.length := by
    simp only [View.front, View.words, List.length_append, List.length_map]
  rw [← length]
  rcases slots.outcome h.idle h.live with ⟨reaches, live, due⟩ | ⟨i, x, hx, reaches, live, agrees, ends⟩
  · refine .inl ⟨reaches, ?_⟩
    obtain ⟨entry, _⟩ := due live
    refine congrArg Prod.snd (Sequential.step_of_rejected live ?_ ?_)
    · rw [show _ = e from entry, inside]
    · rw [show _ = e from entry, rejected]
  · obtain ⟨bound, found⟩ := List.getElem?_eq_some_iff.mp hx
    have decoded : ∀ f, x ≠ .fetched f := by
      rintro f rfl
      have mem := List.mem_of_getElem? hx
      simp only [View.front, List.mem_append, List.mem_map] at mem
      rcases mem with (⟨_, _, h⟩ | ⟨_, _, h⟩) | ⟨_, _, h⟩ <;> cases h
    exact .inr ⟨i, bound, reaches,
      Slot.stops_or_branches (Sequential.reservations_after h.idle i) live agrees decoded ends⟩

/-- When a pulse fails. The sequential machine fails with the same error if and only if it still gets to the
rejected word. It does so at once, behind the instructions in flight, or one of these stops it or branches
elsewhere; then the word need not be executed at all. -/
theorem failed_pulse_iff_executed (start : Starts image pc p)
    (code : (Sequential.new (.new image pc tracing)).CodeUntouched) (n : Nat)
    (failed : (p.pulses n).pulse.2 = some err) :
    let s := Sequential.new (.new image pc tracing)
    let q := p.pulses (n + 1)
    let k := q.core.statistics.retired
    (∃ e, q.decode = some e ∧ e.accept = .error err) ∧
      (s.Fails err ↔ ∃ i, k + q.uncommitted ≤ i ∧ s.Reaches i ∧ (s.after i).core.pc = err.address) ∧
      (s.Reaches (k + q.pastDecode.length) ∧
          (s.after (k + q.pastDecode.length)).step.2 = .error err ∨
        ∃ i, k ≤ i ∧ i < k + q.pastDecode.length ∧ s.Reaches i ∧
          ((∃ reason, (s.after i).step.2 = .ok (some reason)) ∨
            (s.after i).step.2 = .ok none ∧
              (s.after (i + 1)).core.pc ≠ (s.after i).core.pc + 4)) := by
  intro s q k
  obtain ⟨reserved, _⟩ := refines_pulses start code n
  obtain ⟨e, rejects⟩ := (Pipeline.pulse_moves reserved).2.1 err failed
  replace rejects : q.Rejects e err := rejects
  obtain ⟨_, refines⟩ := refines_pulses start code (n + 1)
  obtain ⟨reaches, flows⟩ := refines.flowing_of_open rejects.isOpen.view
  have oldest : q.view.fetched = e :: q.latches.ifId.toList := by
    simp only [Pipeline.view, rejects.held, Option.toList_some, List.cons_append, List.nil_append]
  have held : e ∈ q.view.fetched := by
    rw [oldest]
    exact List.mem_cons_self
  refine ⟨⟨e, rejects.held, rejects.rejected⟩, ?_, ?_⟩
  · rw [← Pipeline.length_accessed]
    exact (sourced_pulses start code (n + 1)).fails_iff rfl rfl code refines held rejects.inside
      rejects.rejected
  · rw [← Pipeline.words_view]
    rcases flows.fails_or_diverts oldest rejects.inside rejects.rejected with
      ⟨later, fails⟩ | ⟨i, bound, later, ends⟩
    · rw [← Sequential.after_add] at fails
      exact .inl ⟨reaches.add later, fails⟩
    · simp only [← Sequential.after_add] at ends
      exact .inr ⟨k + i, Nat.le_add_right k i, Nat.add_lt_add_left bound k, reaches.add later, ends⟩

/-- A move, a halt, and a word that is no instruction. -/
def Pipeline.unknownBehindHalt : Memory := .ofWords [0xD2800001, 0, 0xFFFFFFFF]

/-- The eighth pulse fails at the word behind the halt, which the sequential machine never gets to. -/
theorem unknown_behind_halt_fails :
    ((Pipeline.new (.new Pipeline.unknownBehindHalt 0 false)).pulses 7).pulse.2 =
        some (.unknownOpcode .decode 0x7FF 0xFFFFFFFF 8) ∧
      ¬ (Sequential.new (.new Pipeline.unknownBehindHalt 0 false)).Fails
        (.unknownOpcode .decode 0x7FF 0xFFFFFFFF 8) := by
  have failed : ((Pipeline.new (.new Pipeline.unknownBehindHalt 0 false)).pulses 7).pulse.2 =
      some (.unknownOpcode .decode 0x7FF 0xFFFFFFFF 8) := by decide +kernel
  have code : (Sequential.new (.new Pipeline.unknownBehindHalt 0 false)).CodeUntouched :=
    Sequential.codeUntouched_of_noStore (n := 1) rfl (by decide +kernel) (by decide +kernel)
  have stopped : ((Sequential.new (.new Pipeline.unknownBehindHalt 0 false)).after 2).core.stop =
      some (.halted 4) := by decide +kernel
  have path : ∀ i < 2, ((Sequential.new (.new Pipeline.unknownBehindHalt 0 false)).after i).core.pc ≠
      8 := by decide +kernel
  obtain ⟨_, iff, _⟩ := failed_pulse_iff_executed (.fresh false) code 7 failed
  refine ⟨failed, fun fails => ?_⟩
  obtain ⟨i, _, reaches, arrives⟩ := iff.mp fails
  rcases Nat.lt_or_ge i 2 with early | late
  · exact path i early arrives
  · rw [(reaches.mono late).stop rfl rfl] at stopped
    cases stopped

end Legv8
