import Legv8.Run

/-!
# The clock

A clock pulses a listener until a stop is requested, a pulse fails or the budget of the run is used up. A
request never interrupts a pulse; it takes effect at the next pulse boundary.
-/
namespace Legv8

structure Clock where
  intervalMs : UInt64
  /-- The pulses delivered so far, over all runs. This is a natural number; a count of 64 bits is the same
  for the first 2^64 - 1 pulses. -/
  cycles : Nat
  running : Bool
  deriving DecidableEq

/-- What a clock can drive: something that shows its pending stop, accepts a request for one, and can be
pulsed. A pulse may look at the clock, and may request a stop, withdraw one, or fail. -/
structure Listener (σ : Type) where
  stop : σ → Option StopReason
  requestStop : σ → StopReason → σ
  pulse : Clock → σ → σ × Option ExecutionError
  /-- A request takes effect when none is pending. -/
  stop_requestStop : ∀ s reason, stop s = none → stop (requestStop s reason) = some reason

namespace Clock

variable {σ : Type}

def new (intervalMs : UInt64) : Clock := { intervalMs, cycles := 0, running := false }

def tick (clock : Clock) : Clock := { clock with cycles := clock.cycles + 1 }

/-- Pulses a listener until the run ends; `delivered` counts the pulses of this run. -/
def drive (listener : Listener σ) (max : Option Nat) :
    (fuel delivered : Nat) → Clock → σ → Clock × σ × Ending
  | 0, _, clock, s => (clock, s, .unfinished)
  | fuel + 1, delivered, clock, s =>
    match listener.stop s with
    | some reason => (clock, s, .stopped reason)
    | none =>
      if exhausted max delivered then
        let reason := StopReason.cycleLimit delivered
        (clock, listener.requestStop s reason, .stopped reason)
      else
        match listener.pulse clock s with
        | (s, some err) => (clock, s, .failed err)
        | (s, none) => drive listener max fuel (delivered + 1) clock.tick s

/-- Pulses a listener until a stop is pending, a pulse fails, or `max` pulses have been delivered. The
clock runs during every pulse and stands still afterwards. -/
def run (clock : Clock) (listener : Listener σ) (max : Option Nat) (s : σ) : Clock × σ × Ending :=
  let (clock, s, ending) :=
    drive listener max (fuelFor max) 0 { clock with running := true } s
  ({ clock with running := false }, s, ending)

end Clock

end Legv8
