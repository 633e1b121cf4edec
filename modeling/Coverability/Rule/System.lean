import Coverability.Rule.Quantified

/-! A transformation system: the graphs it may start from and its rules. Every rule, plain or
quantified, has an identifier of its own, and rules are used in the order of the identifiers. -/

namespace Coverability

structure TransformationSystem where
  name : String := ""
  initial : List Hypergraph := []
  rules : Table RuleId Rule := ∅
  quantifiedRules : Table RuleId QuantifiedRule := ∅
deriving DecidableEq, Inhabited

namespace TransformationSystem

def addInitial (system : TransformationSystem) (graph : Hypergraph) : TransformationSystem :=
  { system with initial := system.initial ++ [graph] }

def isTaken (system : TransformationSystem) (id : RuleId) : Bool :=
  system.rules.contains id || system.quantifiedRules.contains id

def addRule (system : TransformationSystem) (rule : Rule) : Except Fault TransformationSystem :=
  if system.isTaken rule.id then .error (.duplicateRule rule.id)
  else .ok { system with rules := system.rules.insert rule.id rule }

def addQuantifiedRule (system : TransformationSystem) (rule : QuantifiedRule) : Except Fault TransformationSystem :=
  if system.isTaken rule.id then .error (.duplicateRule rule.id)
  else .ok { system with quantifiedRules := system.quantifiedRules.insert rule.id rule }

end TransformationSystem

end Coverability
