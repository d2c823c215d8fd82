import Legv8.Error

/-!
# Configuration

What a machine is built from, in three sections. Every section has its defaults, and a configuration by
default is made up of them.
-/
namespace Legv8

namespace Config

structure GeneralSection where
  tracing : Bool
  startPc : UInt64
  deriving DecidableEq

structure MemorySection where
  memorySize : UInt64
  deriving DecidableEq

structure ClockSection where
  intervalMs : UInt64
  maxCycles : Option UInt64
  deriving DecidableEq

/-- Nothing is traced, and the start is at address 0. -/
def GeneralSection.default : GeneralSection := { tracing := false, startPc := 0 }

/-- 64 KiB. -/
def MemorySection.default : MemorySection := { memorySize := 65536 }

/-- Without pause or budget. -/
def ClockSection.default : ClockSection := { intervalMs := 0, maxCycles := none }

end Config

structure Config extends Config.GeneralSection, Config.MemorySection, Config.ClockSection
  deriving DecidableEq

namespace Config

def default : Config where
  toGeneralSection := .default
  toMemorySection := .default
  toClockSection := .default

/-- The budget as a number of pulses. -/
def budget (c : Config) : Option Nat := c.maxCycles.map UInt64.toNat

/-- Accepts a configuration whose memory holds the first instruction. -/
def validate (c : Config) : Except ConfigError Unit :=
  if c.memorySize = 0 then .error .zeroMemory
  else if c.memorySize.toNat < c.startPc.toNat + Word.size then
    .error (.startPcOutOfRange c.startPc c.memorySize)
  else .ok ()

end Config

end Legv8
