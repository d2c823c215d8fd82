import Legv8.Json.Printer
import Legv8.Pipeline.State

/-!
# Snapshots

The observable state of a machine as JSON, for viewers and for the command line.
-/
namespace Legv8

def Alu.Flags.members (f : Alu.Flags) : List (String × Json) :=
  [("negative", .bool f.negative), ("zero", .bool f.zero), ("carry", .bool f.carry),
    ("overflow", .bool f.overflow)]

def Statistics.members (s : Statistics) : List (String × Json) :=
  s.fields.map fun (name, n) => (name, .ofNat n)

def Statistics.toJson (s : Statistics) : Json := .ofMembers s.members

/-- A stop reason: the name of its kind, with its number if it has one. -/
def StopReason.toJson : StopReason → Json
  | .halted pc => .ofMembers [("Halted", .ofMembers [("pc", .ofNat pc.toNat)])]
  | .memoryFault addr => .ofMembers [("MemoryFault", .ofMembers [("addr", .ofNat addr.toNat)])]
  | .cycleLimit cycles => .ofMembers [("CycleLimit", .ofMembers [("cycles", .ofNat cycles)])]
  | .external => .ofString "External"

def Registers.toJson (r : Registers) : Json := .array (r.toList.map fun v => .ofNat v.toNat)

def Json.ofOption {α : Type} (toJson : α → Json) : Option α → Json
  | some a => toJson a
  | none => .null

/-- The members that every instruction in flight has. -/
def InFlight.members (e : InFlight) : List (String × Json) :=
  [("instr", .ofNat e.word.toNat), ("incremented_pc", .ofNat e.nextPc.toNat)]

def Fetched.toJson (e : Fetched) : Json :=
  .ofMembers (e.members ++ [("fault", .ofOptionNat (e.fault.map UInt64.toNat))])

def Issued.toJson (e : Issued) : Json :=
  .ofMembers (e.members ++
    [("read_data1", .ofNat e.first.toNat), ("read_data2", .ofNat e.second.toNat),
      ("sign_extended_imm", .ofNat e.imm.toNat), ("dest_reg", .ofOptionNat e.dest),
      ("added_lock", .bool e.reserved)])

def Executed.toJson (e : Executed) : Json :=
  .ofMembers (e.members ++
    [("write_val", .ofNat e.value.toNat), ("working_addr", .ofNat e.address.toNat)])

def Accessed.toJson (e : Accessed) : Json :=
  .ofMembers (e.members ++ [("write_val", .ofNat e.value.toNat)])

def Latches.toJson (l : Latches) : Json :=
  .ofMembers
    [("if_id", .ofOption Fetched.toJson l.ifId), ("id_ex", .ofOption Issued.toJson l.idEx),
      ("ex_mem", .ofOption Executed.toJson l.exMem),
      ("mem_wb", .ofOption Accessed.toJson l.memWb)]

/-- Which units hold an instruction, from fetch to writeback. -/
def Pipeline.busy (p : Pipeline) : List (String × Bool) :=
  [("fetch", p.fetch.pending), ("decode", p.decode.isSome), ("execute", p.execute.pending.isSome),
    ("memory", p.access.pending.isSome), ("writeback", p.writeback.isSome)]

def Pipeline.snapshot (p : Pipeline) : Json :=
  .ofMembers
    [("pc", .ofNat p.core.pc.toNat),
      ("registers", p.core.registers.toJson),
      ("flags", .ofMembers p.flags.members),
      ("lock_queue", .array (p.core.reservations.map .ofNat)),
      ("latches", p.latches.toJson),
      ("busy", .ofMembers (p.busy.map fun (name, b) => (name, .bool b))),
      ("stats", p.core.statistics.toJson),
      ("stop_reason", .ofOption StopReason.toJson p.core.stop)]

end Legv8
