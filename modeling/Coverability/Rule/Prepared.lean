import Coverability.Order.Basic
import Coverability.Rule.System
import Coverability.Trace.Line

/-! Rules made ready for a search. All rules are validated first, so the search itself meets no
defective rule. Quantified rules are instantiated on demand, up to a bound that depends on the
graph at hand. -/

namespace Coverability

structure Prepared where
  name : String := ""
  rules : Table RuleId Rule := ∅
  quantifiedRules : Table RuleId QuantifiedRule := ∅
  /-- The largest number of copies in an instance, or zero for no limit. -/
  maxInstances : Nat := 0
deriving DecidableEq, Inhabited

/-- The instances of a quantified rule from `next` copies up to the bound. -/
structure Instances where
  rule : QuantifiedRule
  next : Nat
  bound : Nat
deriving DecidableEq

namespace Instances

/-- How many instances are left. -/
def remaining (instances : Instances) : Nat := instances.bound + 1 - instances.next

def next? (instances : Instances) : Option (Except Fault Rule × Instances) :=
  if instances.next > instances.bound then none
  else some (instances.rule.instantiate instances.next, { instances with next := instances.next + 1 })

def toList (instances : Instances) : List (Except Fault Rule) :=
  (List.range' instances.next instances.remaining).map instances.rule.instantiate

end Instances

namespace Prepared

/-- The instances worth trying against a graph. Their copies are bounded by the number of edges, for
each copy needs an edge of its own; a copy that makes do with an isolated vertex is not tried. -/
def instances (prepared : Prepared) (id : RuleId) (graph : Hypergraph) : Except Fault Instances :=
  match prepared.quantifiedRules.get? id with
  | none => .error (.unknownQuantifiedRule id)
  | some rule =>
    let edges := graph.edgeCount
    .ok ⟨rule, 0, if prepared.maxInstances = 0 then edges else min edges prepared.maxInstances⟩

/-- The rules to try against a graph: the plain ones and then the instances of the quantified
ones, both in the order of their identifiers. -/
def rulesFor (prepared : Prepared) (graph : Hypergraph) : List (Except Fault Rule) :=
  prepared.rules.values.map .ok ++ prepared.quantifiedRules.keys.flatMap fun id =>
    match prepared.instances id graph with
    | .ok instances => instances.toList
    | .error fault => [.error fault]

end Prepared

/-- The lines that preparing a system writes, and the prepared rules. -/
abbrev Preparer := TransformationSystem → Order → List Line × Except Fault Prepared

/-- The first fault among the plain rules and then the quantified ones, in the order of their
identifiers. -/
def TransformationSystem.validate (system : TransformationSystem) : Except Fault Unit := do
  system.rules.values.forM Rule.validate
  system.quantifiedRules.values.forM QuantifiedRule.validate

/-- Validates all rules and takes them over as they are. -/
def Preparer.validating (maxInstances : Nat) : Preparer := fun system order =>
  match system.validate with
  | .error fault => ([], .error fault)
  | .ok () =>
    ([⟨.debug, "rules validated",
      [("gts", system.name), ("order", order.name), ("standard", toString system.rules.size),
       ("quantified", toString system.quantifiedRules.size)]⟩],
      .ok ⟨system.name, system.rules, system.quantifiedRules, maxInstances⟩)

end Coverability
