import Legv8.Clock

/-!
# Scripted listeners

A listener that plays a script, one action a pulse. It shows what a clock does with any succession of
requests, withdrawals and failures.
-/
namespace Legv8

/-- What a scripted listener does in one pulse. -/
inductive ScriptAction where
  | idle
  | request (reason : StopReason)
  | fail (error : ExecutionError)
  | clear
  deriving DecidableEq

/-- A listener in the middle of its script. -/
structure Script where
  stop : Option StopReason
  actions : List ScriptAction
  /-- For every pulse so far, latest first: whether the clock was running. -/
  seen : List Bool
  deriving DecidableEq

namespace Script

def requestStop (s : Script) (reason : StopReason) : Script :=
  { s with stop := StopReason.request s.stop reason }

/-- Performs the next action. Past the end of the script, a stop is requested from outside. -/
def pulse (clock : Clock) (s : Script) : Script × Option ExecutionError :=
  let s := { s with seen := clock.running :: s.seen }
  match s.actions with
  | [] => (s.requestStop .external, none)
  | action :: rest =>
    let s := { s with actions := rest }
    match action with
    | .idle => (s, none)
    | .request reason => (s.requestStop reason, none)
    | .fail err => (s, some err)
    | .clear => ({ s with stop := none }, none)

def listener : Listener Script where
  stop := Script.stop
  requestStop := requestStop
  pulse := pulse
  stop_requestStop s reason h := by simp [requestStop, StopReason.request, h]

end Script

end Legv8
