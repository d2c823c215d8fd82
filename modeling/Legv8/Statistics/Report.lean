import Legv8.Statistics
import Legv8.Text.Fixed

/-!
# The statistics report
-/
namespace Legv8.Statistics

/-- A counter as a double. Counters stay below 2^64. -/
def toDouble (n : Nat) : Float := n.toUInt64.toFloat

/-- Cycles per retired instruction, or zero before anything has retired. -/
def cpi (s : Statistics) : Float :=
  if s.retired = 0 then 0.0 else toDouble s.cycles / toDouble s.retired

/-- The share of a class among the retired instructions, in percent. -/
def percentage (s : Statistics) (n : Nat) : Float :=
  toDouble n / toDouble (max s.retired 1) * 100.0

def heavyRule : String := String.ofList (List.replicate 58 '=')

def lightRule : String := String.ofList (List.replicate 58 '-')

/-- A name in its column, followed by a value. -/
def row (name value : String) : String := Text.padRight 25 name ++ value

def countRow (name : String) (n : Nat) : String := row name (Text.decimal n)

def shareRow (s : Statistics) (name : String) (n : Nat) : String :=
  row name (Text.decimal n ++ " (" ++ Text.fixed 2 (s.percentage n) ++ "%)")

def reportLines (s : Statistics) : List String :=
  [heavyRule, "LEGV8 PIPELINE SIMULATION STATISTICS", heavyRule,
    countRow "sim_cycles" s.cycles,
    countRow "sim_insts" s.retired,
    row "sim_cpi" (Text.fixed 4 s.cpi),
    lightRule, "INSTRUCTION MIX",
    s.shareRow "  op.alu" s.alu,
    s.shareRow "  op.load" s.loads,
    s.shareRow "  op.store" s.stores,
    s.shareRow "  op.branch" s.branches,
    s.shareRow "  op.system" s.system,
    lightRule, "CONTROL FLOW",
    countRow "  branch.taken" s.taken,
    countRow "  pipeline.flushes" s.flushes,
    countRow "  pipeline.squashed" s.squashed,
    lightRule, "STALLS",
    countRow "  stall.data" s.dataStalls,
    countRow "  stall.structural" s.structuralStalls,
    heavyRule]

def report (s : Statistics) : String := String.join (s.reportLines.map (· ++ "\n"))

end Legv8.Statistics
