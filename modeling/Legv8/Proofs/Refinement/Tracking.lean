import Legv8.Proofs.Pipeline.Reservations
import Legv8.Proofs.Sequential.Run

/-! # Instructions in flight against the steps that execute them

The instructions in flight stand for the next steps of the sequential machine, one slot a step. A slot says
what has become of its instruction so far, and it can say so only as long as the machine gets there: it may
stop before, or branch elsewhere. `Tracks post s slots` is the weakest statement of that kind. Every slot
agrees with its step if the steps before it lead there, and `post` holds of the state behind the last. -/
namespace Legv8

/-- An instruction in flight, by how far it has come. -/
inductive Slot where
  | accessed (w : Accessed)
  | executed (x : Executed)
  | issued (y : Issued)
  | fetched (e : Fetched)

namespace Slot

/-- The word of the instruction, and the address behind it. -/
def toInFlight : Slot → InFlight
  | accessed w => w.toInFlight
  | executed x => x.toInFlight
  | issued y => y.toInFlight
  | fetched e => e.toInFlight

/-- What has become of the instruction is what the next step of `s` does to it. -/
def Agrees (s : Sequential) : Slot → Prop
  | accessed w => s.Accesses w
  | executed x => ∃ target alu, s.Executes x target alu
  | issued y => s.Issues { y with reserved := false }
  | fetched e => s.entry = e

/-- Branches are settled by execution: what follows in flight is what the machine goes on with. -/
def Settled : Slot → Prop
  | accessed _ | executed _ => True
  | issued _ | fetched _ => False

/-- The next step of `s` goes on with the instruction of the following slot. -/
def Leads (s : Sequential) (x : Slot) : Prop :=
  s.step.2 = .ok none ∧ (x.Settled ∨ s.step.1.core.pc = x.toInFlight.nextPc)

theorem Agrees.toInFlight {s : Sequential} {x : Slot} (h : x.Agrees s) :
    x.toInFlight = s.entry.toInFlight := by
  cases x with
  | accessed w => exact Sequential.Accesses.toInFlight h
  | executed x =>
    obtain ⟨_, _, hx⟩ := h
    exact hx.toInFlight
  | issued y =>
    have issues : s.Issues { y with reserved := false } := h
    exact issues.toInFlight
  | fetched e => exact congrArg Fetched.toInFlight h.symm

end Slot

variable {s t : Sequential} {post post' : Sequential → Prop} {l l' : List Slot}

/-- As long as the machine gets there, it executes what the slots hold, and `post` holds behind them. -/
def Tracks (post : Sequential → Prop) : Sequential → List Slot → Prop
  | s, [] => s.core.stop = none → post s
  | s, x :: rest => s.core.stop = none → x.Agrees s ∧ (x.Leads s → Tracks post s.step.1 rest)

/-- The machine gets from `s` to `t` by executing what the slots hold. -/
structure Follows (s : Sequential) (l : List Slot) (t : Sequential) : Prop where
  state : t = s.after l.length
  reaches : s.Reaches l.length
  live : t.core.stop = none
  registers : ∀ r, r ∉ Word.destinations (l.map (·.toInFlight.word)) →
    t.core.registers.read r = s.core.registers.read r

theorem tracks_append : Tracks post s (l ++ l') ↔ Tracks (Tracks post · l') s l := by
  induction l generalizing s with
  | nil =>
    -- a stopped machine is tracked by everything
    constructor
    · intro h _
      exact h
    · intro h
      cases l' with
      | nil => exact fun live => h live live
      | cons x rest => exact fun live => h live live
  | cons x rest ih =>
    simp only [List.cons_append, Tracks, ih]

/-- A step that goes on writes the destination of its slot only. -/
theorem Slot.registers_step {x : Slot} (hr : s.core.reservations = []) (agrees : x.Agrees s)
    (continues : s.step.2 = .ok none) {r : Nat} (h : r ∉ x.toInFlight.word.dest?.toList) :
    s.step.1.core.registers.read r = s.core.registers.read r := by
  obtain ⟨_, out, target, alu, _, hx, _, _⟩ := Sequential.executes_of_continues continues
  obtain ⟨_, _, _, _, core⟩ := Sequential.step_of_continues hr continues hx
  have word : out.word = x.toInFlight.word :=
    congrArg InFlight.word (hx.toInFlight.trans agrees.toInFlight.symm)
  rw [← word] at h
  simp only [core, Registers.read_put_of_ne h]

theorem Follows.cons {x : Slot} (hr : s.core.reservations = []) (agrees : x.Agrees s)
    (leads : x.Leads s) (h : Follows s.step.1 l t) : Follows s (x :: l) t where
  state := by rw [h.state, Sequential.after_step, List.length_cons]
  reaches := h.reaches.cons leads.1
  live := h.live
  registers r hd := by
    rw [List.map_cons, Word.destinations_cons, List.mem_append, not_or] at hd
    rw [h.registers r hd.2, Slot.registers_step hr agrees leads.1 hd.1]

/-- What holds behind the slots may use that the machine has got there. -/
theorem Tracks.mono (h : Tracks post s l) (hr : s.core.reservations = [])
    (imp : ∀ t, Follows s l t → post t → post' t) : Tracks post' s l := by
  induction l generalizing s with
  | nil => exact fun live => imp s ⟨rfl, s.reaches_zero, live, fun _ _ => rfl⟩ (h live)
  | cons x rest ih =>
    intro live
    obtain ⟨agrees, next⟩ := h live
    refine ⟨agrees, fun leads => ih (next leads) (Sequential.reservations_step hr) ?_⟩
    exact fun t follows => imp t (follows.cons hr agrees leads)

/-- The machine gets to the end of the slots, or one of them does not lead on. -/
theorem Tracks.outcome (h : Tracks post s l) (hr : s.core.reservations = []) (live : s.core.stop = none) :
    (s.Reaches l.length ∧ (s.after l.length).core.stop = none ∧ post (s.after l.length)) ∨
      ∃ i x, l[i]? = some x ∧ s.Reaches i ∧ (s.after i).core.stop = none ∧ x.Agrees (s.after i) ∧
        ¬ x.Leads (s.after i) := by
  induction l generalizing s with
  | nil => exact .inl ⟨s.reaches_zero, live, h live⟩
  | cons x rest ih =>
    obtain ⟨agrees, next⟩ := h live
    by_cases leads : x.Leads s
    · have running := Sequential.stop_step_of_ok hr leads.1
      rcases ih (next leads) (Sequential.reservations_step hr) running with
        ⟨reaches, last, holds⟩ | ⟨i, y, hy, reaches, last, agrees', ends⟩
      · rw [Sequential.after_step] at last holds
        exact .inl ⟨reaches.cons leads.1, last, holds⟩
      · rw [Sequential.after_step] at last agrees' ends
        exact .inr ⟨i + 1, y, hy, reaches.cons leads.1, last, agrees', ends⟩
    · exact .inr ⟨0, x, rfl, s.reaches_zero, live, agrees, leads⟩

/-- A slot past decode leads on unless its instruction stops the machine or takes a branch. -/
theorem Slot.stops_or_branches {x : Slot} (hr : s.core.reservations = []) (live : s.core.stop = none)
    (agrees : x.Agrees s) (decoded : ∀ e, x ≠ .fetched e) (ends : ¬ x.Leads s) :
    (∃ reason, s.step.2 = .ok (some reason)) ∨
      s.step.2 = .ok none ∧ s.step.1.core.pc ≠ s.core.pc + 4 := by
  have issues : ∃ y, s.Issues y := by
    cases x with
    | accessed w =>
      obtain ⟨_, _, _, ⟨y, hy, _⟩, _⟩ := id agrees
      exact ⟨y, hy⟩
    | executed x =>
      obtain ⟨_, _, y, hy, _⟩ := id agrees
      exact ⟨y, hy⟩
    | issued y => exact ⟨_, agrees⟩
    | fetched e => exact absurd rfl (decoded e)
  obtain ⟨y, hy⟩ := issues
  obtain ⟨r, result⟩ := Sequential.step_of_issues live hr hy
  cases r with
  | some reason => exact .inl ⟨reason, result⟩
  | none =>
    refine .inr ⟨result, fun falls => ends ⟨result, .inr ?_⟩⟩
    rw [falls, agrees.toInFlight, Sequential.nextPc_entry]

/-- A machine that goes on for as many steps as there are slots gets to their end, if it takes no branch at
a slot that is not settled. -/
theorem Tracks.behind (h : Tracks post s l) (reaches : s.Reaches l.length)
    (live : (s.after l.length).core.stop = none)
    (straight : ∀ i x, l[i]? = some x →
      x.Settled ∨ (s.after (i + 1)).core.pc = (s.after i).core.pc + 4) : post (s.after l.length) := by
  induction l generalizing s with
  | nil => exact h live
  | cons x rest ih =>
    have continues : s.step.2 = .ok none := reaches 0 (Nat.succ_pos _)
    obtain ⟨running, _⟩ := Sequential.executes_of_continues continues
    obtain ⟨agrees, next⟩ := h running
    have leads : x.Leads s := by
      refine ⟨continues, (straight 0 x rfl).imp_right fun falls => ?_⟩
      rw [agrees.toInFlight, Sequential.nextPc_entry]
      exact falls
    have later : s.step.1.Reaches rest.length := by
      rw [List.length_cons, Nat.add_comm] at reaches
      exact reaches.of_add
    rw [List.length_cons, ← Sequential.after_step] at live ⊢
    refine ih (next leads) later live fun i y hy => ?_
    rw [Sequential.after_step, Sequential.after_step]
    exact straight (i + 1) y hy

/-- The machine gets to the end of settled slots if it goes on for as many steps. -/
theorem Tracks.elim (h : Tracks post s l) (settled : ∀ x ∈ l, x.Settled) (reaches : s.Reaches l.length)
    (live : (s.after l.length).core.stop = none) : post (s.after l.length) :=
  h.behind reaches live fun _ _ hx => .inl (settled _ (List.mem_of_getElem? hx))

end Legv8
