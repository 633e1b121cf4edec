import Coverability.Order.Kind
import Coverability.Timer

/-! Settings of an analysis. -/

namespace Coverability

structure Config where
  /-- Stop as soon as an initial graph lies above a graph that was found. -/
  checkInitial : Bool := true
  /-- The budget in milliseconds, or zero for no limit. -/
  timeout : Nat := 0
  order : OrderKind := .minor
  /-- The largest number of copies in an instance of a quantified rule, or zero for no limit. -/
  maxInstances : Nat := 0
deriving DecidableEq, Inhabited

namespace Config

def timer (config : Config) : Timer := .ofMillis config.timeout

/-- The budget in milliseconds, if there is one. -/
def timeout? (config : Config) : Option Nat := some config.timeout |>.filter (0 < ·)

def debugText (config : Config) : String :=
  let order := match config.order with
    | .subgraph => "Subgraph"
    | .minor => "Minor"
    | .pathMinor => "PathMinor"
  s!"AnalysisConfig \x7b check_initial: {config.checkInitial}, timeout_ms: {config.timeout}, " ++
    s!"order: {order}, max_uq_instances: {config.maxInstances} \x7d"

end Config

end Coverability
