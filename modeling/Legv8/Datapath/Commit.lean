import Legv8.Core
import Legv8.Datapath.InFlight
import Legv8.Event

/-!
# Commit

An instruction retires by committing: it is counted, and if it writes a register, the oldest reservation
is released and that register takes the value.
-/
namespace Legv8.Core

/-- Retires an instruction. The second result is the register written. -/
def commit (core : Core) (e : Accessed) : Core × Except ExecutionError (Option Nat) :=
  match Operation.ofWord? e.word with
  | none => (core, .error (.unknownOpcode .writeback e.word.opcodeField e.word e.pc))
  | some op =>
    let core := core.retire op
    if op.writesRegister then
      match core.reservations.release? with
      | none => (core, .error (.nothingReserved e.pc e.word))
      | some (r, rest) =>
        ({ core with reservations := rest, registers := core.registers.write r e.value }, .ok (some r))
    else (core, .ok none)

/-- The register that a commit writes: the oldest reserved one, if the operation writes a register. -/
def destination (core : Core) (e : Accessed) : Except ExecutionError (Option Nat) :=
  match Operation.ofWord? e.word with
  | none => .error (.unknownOpcode .writeback e.word.opcodeField e.word e.pc)
  | some op =>
    if op.writesRegister then
      match core.reservations.release? with
      | none => .error (.nothingReserved e.pc e.word)
      | some (r, _) => .ok (some r)
    else .ok none

def commitEvents (core : Core) (e : Accessed) : List Event :=
  match core.destination e with
  | .ok (some r) => [.committed e.pc r e.value e.word]
  | _ => []

def faultEvents (core : Core) (addrs : List UInt64) : List Event :=
  addrs.map (.outOfRange · core.memory.size)

theorem commit_snd (core : Core) (e : Accessed) : (core.commit e).2 = core.destination e := by
  unfold commit destination
  cases Operation.ofWord? e.word with
  | none => rfl
  | some op =>
    have kept : (core.retire op).reservations = core.reservations := rfl
    by_cases h : op.writesRegister = true
    · simp only [h, if_true, kept]
      cases core.reservations.release? <;> rfl
    · simp only [h, if_false, Bool.false_eq_true]

end Legv8.Core
