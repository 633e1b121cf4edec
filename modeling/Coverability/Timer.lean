import Coverability.Fault

/-! A budget of time. The timer reads no clock itself: callers pass the present moment, and all
times are in nanoseconds. -/

namespace Coverability

structure Timer where
  limit : Option Nat := none
  started : Option Nat := none
deriving DecidableEq, Inhabited

namespace Timer

/-- A budget of zero is no limit. -/
def new (limit : Option Nat) : Timer := { limit := limit.filter (· ≠ 0) }

def millisecond : Nat := 1000000

def ofMillis (budget : Nat) : Timer := new (some (budget * millisecond))

/-- Starting again starts over. -/
def start (timer : Timer) (now : Nat) : Timer := { timer with started := some now }

def isRunning (timer : Timer) : Bool := timer.started.isSome

def elapsed (timer : Timer) (now : Nat) : Except Fault Nat :=
  match timer.started with
  | some started => .ok (now - started)
  | none => .error .timerNotStarted

/-- Whether more time than the limit has passed. A timer that does not run, or has no limit, is
never out of time. -/
def outOfTime (timer : Timer) (now : Nat) : Bool :=
  match timer.limit, timer.elapsed now with
  | some limit, .ok elapsed => limit < elapsed
  | _, _ => false

end Timer

end Coverability
