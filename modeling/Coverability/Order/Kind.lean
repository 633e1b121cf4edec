import Coverability.Embedding.Isomorphism
import Coverability.Order.PathMinor

/-! The orders a configuration can name. -/

namespace Coverability

/-- One graph lies below another if it embeds into it. -/
def Order.subgraph : Order where
  name := "subgraph"
  le smaller bigger := mayFit smaller bigger && (findEmbedding smaller bigger).isSome

inductive OrderKind where
  | subgraph
  | minor
  | pathMinor
deriving DecidableEq, Inhabited

namespace OrderKind

def order : OrderKind → Order
  | subgraph => .subgraph
  | minor => .minor
  | pathMinor => .pathMinor

def all : List OrderKind := [subgraph, minor, pathMinor]

/-- How a kind is written in a configuration. -/
def key : OrderKind → String
  | subgraph => "subgraph"
  | minor => "minor"
  | pathMinor => "path_minor"

def text (kind : OrderKind) : String := kind.order.name

end OrderKind

end Coverability
