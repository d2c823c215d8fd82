import Legv8.Isa.Register

/-!
# The register file

Only `X0` to `X30` have storage: the zero register, and any number past it, reads as zero and drops what
is written to it.
-/
namespace Legv8

/-- The values of `X0` to `X30`. -/
structure Registers where
  /-- One value per register below the zero register. -/
  values : Vector UInt64 Register.zero
  deriving DecidableEq

namespace Registers

def new : Registers := ⟨Vector.replicate _ 0⟩

/-- The value of register `r`. -/
def read (regs : Registers) (r : Nat) : UInt64 := regs.values[r]?.getD 0

/-- Sets register `r`. -/
def write (regs : Registers) (r : Nat) (value : UInt64) : Registers :=
  ⟨regs.values.setIfInBounds r value⟩

/-- Every register's value, the zero register included. -/
def toList (regs : Registers) : List UInt64 := (List.range Register.count).map regs.read

def cell (regs : Registers) (r : Nat) : String :=
  Text.padRight 3 (Register.name r) ++ "=" ++ Text.hexPadded 16 (regs.read r).toNat

/-- The register file in sixteen lines of two registers. -/
def table (regs : Registers) : String :=
  String.join ((List.range (Register.count / 2)).map fun k =>
    regs.cell (2 * k) ++ " " ++ regs.cell (2 * k + 1) ++ "\n")

/-- The register file on one line, with decimal values. -/
def inline (regs : Registers) : String :=
  "\x7b" ++ ", ".intercalate ((List.range Register.count).map fun r =>
    "\"" ++ Register.name r ++ "\": " ++ Text.decimal (regs.read r).toNat) ++ "\x7d"

theorem read_write (regs : Registers) (r q : Nat) (value : UInt64) :
    (regs.write r value).read q = if r = q ∧ r < Register.zero then value else regs.read q := by
  simp only [read, write, Vector.getElem?_setIfInBounds]
  by_cases h : r = q
  · subst h
    by_cases hr : r < Register.zero
    · simp [hr]
    · simp [hr]
  · simp [h]

theorem read_zero (regs : Registers) : regs.read Register.zero = 0 := by
  simp [read]

end Registers

end Legv8
