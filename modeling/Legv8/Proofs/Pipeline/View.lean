import Legv8.Pipeline
import Legv8.Proofs.Datapath
import Mathlib.Logic.Relation

/-! # Instructions in flight

How far an instruction has come is all that its correctness depends on: it has been fetched, issued,
executed, or has made its memory access. The view of a pipeline keeps these four stretches, oldest
instruction first, and forgets which unit or latch holds an instruction. Nine moves are all that a pulse
does to a view. Unlike the phases of a pulse they name the instruction that moves and the condition under
which it does. -/
namespace Legv8

/-- The instructions in flight by how far they have come, oldest first. -/
structure View where
  core : Core
  alu : Alu
  /-- Instructions that have made their memory access. -/
  accessed : List Accessed
  /-- Instructions that have been executed. -/
  executed : List Executed
  /-- Instructions that have read their operands. -/
  issued : List Issued
  /-- Instructions that have been fetched. -/
  fetched : List Fetched

def Pipeline.view (p : Pipeline) : View :=
  { core := p.core
    alu := p.execute.alu
    accessed := p.writeback.toList ++ p.latches.memWb.toList
    executed := p.access.pending.toList ++ p.latches.exMem.toList
    issued := p.execute.pending.toList ++ p.latches.idEx.toList
    fetched := p.decode.toList ++ p.latches.ifId.toList }

namespace Pipeline

variable {p : Pipeline}

theorem accessed_of_writeback {w : Accessed} (h : p.writeback = some w) :
    p.view.accessed = w :: p.latches.memWb.toList := by
  simp only [view, h, Option.toList_some, List.cons_append, List.nil_append]

theorem executed_of_access {x : Executed} (h : p.access.pending = some x) :
    p.view.executed = x :: p.latches.exMem.toList := by
  simp only [view, h, Option.toList_some, List.cons_append, List.nil_append]

theorem issued_of_execute {y : Issued} (h : p.execute.pending = some y) :
    p.view.issued = y :: p.latches.idEx.toList := by
  simp only [view, h, Option.toList_some, List.cons_append, List.nil_append]

theorem fetched_of_decode {e : Fetched} (h : p.decode = some e) :
    p.view.fetched = e :: p.latches.ifId.toList := by
  simp only [view, h, Option.toList_some, List.cons_append, List.nil_append]

end Pipeline

namespace Core

/-- Only the cycle and stall counters differ. -/
def Paces (core next : Core) : Prop :=
  ∃ cycles dataStalls structuralStalls, next =
    { core with statistics := { core.statistics with cycles, dataStalls, structuralStalls } }

/-- The reservation of `newest` is taken back, and `held` discarded instructions are counted. -/
def discard (core : Core) (newest : Option Issued) (held : Nat) : Core :=
  { core with
    reservations := if newest.any (·.reserved) then core.reservations.retract else core.reservations
    statistics := { core.statistics with squashed := core.statistics.squashed + held } }

/-- Fetching goes on at `target`. -/
def divert (core : Core) (target : UInt64) : Core :=
  { core with
    pc := target
    statistics := { core.statistics with flushes := core.statistics.flushes + 1 } }

end Core

namespace View

/-- The words of the instructions past decode, oldest first. -/
def words (v : View) : List Word :=
  v.accessed.map (·.word) ++ v.executed.map (·.word) ++ v.issued.map (·.word)

/-- No stop is pending, or one was requested by an access that is still in flight. -/
def Open (v : View) : Prop := v.core.stop = none ∨ v.accessed ≠ []

/-- One thing that can happen to the instructions in flight. -/
inductive Move : View → View → Prop where
  /-- Time passes. -/
  | pace {v : View} {core : Core} (paces : v.core.Paces core) : Move v { v with core }
  /-- The oldest instruction commits. -/
  | retire {v : View} {w : Accessed} {rest : List Accessed} {core : Core} {written : Option Nat}
      (live : v.core.stop = none) (oldest : v.accessed = w :: rest)
      (commit : v.core.commit w = (core, .ok written)) : Move v { v with core, accessed := rest }
  /-- The oldest executed instruction makes its memory access. -/
  | access {v : View} {x : Executed} {rest : List Executed} {bus : Bus} {access : Access}
      (live : v.core.stop = none) (oldest : v.executed = x :: rest)
      (result : x.access bus v.core.memory = access) :
      Move v { v with
        core := v.core.settle access
        accessed := v.accessed ++ [access.out]
        executed := rest }
  /-- The oldest issued instruction executes and takes no branch. -/
  | execute {v : View} {y : Issued} {rest : List Issued} {out : Executed} {alu : Alu}
      (isOpen : v.Open) (oldest : v.issued = y :: rest)
      (result : v.alu.execute y = .ok (.forward out none, alu)) :
      Move v { v with alu, executed := v.executed ++ [out], issued := rest }
  /-- The oldest issued instruction takes a branch, and everything younger is discarded. -/
  | redirect {v : View} {y : Issued} {newest : Option Issued} {out : Executed} {target : UInt64}
      {alu : Alu} (held : Nat) (isOpen : v.Open) (oldest : v.issued = y :: newest.toList)
      (result : v.alu.execute y = .ok (.forward out (some target), alu)) :
      Move v { v with
        core := (v.core.countTaken.discard newest held).divert target
        alu
        executed := v.executed ++ [out]
        issued := []
        fetched := [] }
  /-- Alone past decode but for a younger instruction, a halt retires. -/
  | halt {v : View} {y : Issued} {newest : Option Issued} {alu : Alu} (held : Nat)
      (live : v.core.stop = none) (alone : v.accessed = [] ∧ v.executed = [])
      (oldest : v.issued = y :: newest.toList) (result : v.alu.execute y = .ok (.halt, alu)) :
      Move v { v with
        core := ((v.core.discard newest held).retire .hlt).requestStop (.halted y.pc)
        issued := []
        fetched := [] }
  /-- The oldest fetched instruction reads its operands, none of which has a pending write. -/
  | issue {v : View} {e : Fetched} {rest : List Fetched} {i : Instruction}
      (isOpen : v.Open) (oldest : v.fetched = e :: rest) (inside : e.fault = none)
      (accept : e.accept = .ok i) (ready : i.pendingSource? v.core.reservations = none) :
      Move v { v with
        core := v.core.reserve i.dest?
        issued := v.issued ++ [{ e.operands i v.core.registers with reserved := i.dest?.isSome }]
        fetched := rest }
  /-- With nothing older in flight, a fetch that ran outside memory is reported. -/
  | fault {v : View} {e : Fetched} {rest : List Fetched} {addr : UInt64}
      (live : v.core.stop = none) (alone : v.accessed = [] ∧ v.executed = [] ∧ v.issued = [])
      (oldest : v.fetched = e :: rest) (outside : e.fault = some addr) :
      Move v { v with core := v.core.reportFault addr, fetched := rest }
  /-- The next word is fetched. -/
  | fetch {v : View} {e : Fetched} (live : v.core.stop = none)
      (result : v.core.memory.entryAt v.core.pc = e) :
      Move v { v with core := { v.core with pc := e.nextPc }, fetched := v.fetched ++ [e] }

/-- Any number of moves. -/
abbrev Moves : View → View → Prop := Relation.ReflTransGen Move

end View

namespace Pipeline

/-- No stop is pending, or an access has requested it that has just been made. -/
def Open (p : Pipeline) : Prop := p.core.stop = none ∨ p.latches.memWb.isSome = true

/-- The machine has stopped with nothing left past execution, or at an access that has just been made. -/
def Resting (p : Pipeline) : Prop := p.view.accessed = [] ∨ p.latches.memWb.isSome = true

/-- Decode holds a word that it does not accept. -/
structure Rejects (p : Pipeline) (e : Fetched) (err : ExecutionError) : Prop where
  held : p.decode = some e
  inside : e.fault = none
  rejected : e.accept = .error err
  isOpen : p.Open

theorem Open.view {p : Pipeline} (h : p.Open) : p.view.Open := by
  rcases h with live | made
  · exact .inl live
  · refine .inr (List.append_ne_nil_of_right_ne_nil _ ?_)
    cases hm : p.latches.memWb with
    | none => rw [hm] at made; cases made
    | some w => exact List.cons_ne_nil _ _

end Pipeline

end Legv8
