import Segmentation.Node

/-! Paths through a lattice and their ends. Nodes are listed from the start. -/
namespace Segmentation

variable {σ ν : Type}

structure Path (σ ν : Type) where
  nodes : List (Node σ ν) := []
  cost : Cost := 0
deriving BEq

/-- The end of a path that has still to be completed toward the start. -/
structure Tail (σ ν : Type) where
  nodes : List (Node σ ν)
  /-- The cost of the nodes and of the edges between them. -/
  cost : Cost
  /-- The cost of the cheapest path with this end. -/
  wholeCost : Cost
deriving BEq

namespace Tail

/-- The step in which the first node stands: the one that the second follows. -/
def place (t : Tail σ ν) : Nat :=
  match t.nodes with
  | _ :: next :: _ => (next.origin.map Origin.step).getD 0
  | _ => 0

/-- The end of a path with one more node in front, reached over an edge; none if
no path has this end. -/
def grown? (nodes : List (Node σ ν)) (cost : Cost) (pred : Node σ ν × Cost) :
    Option (Tail σ ν) :=
  let base := cost + pred.2
  let wholeCost := base + pred.1.pathCost
  if wholeCost = .infinite then none
  else some ⟨pred.1 :: nodes, base + pred.1.entry.cost, wholeCost⟩

end Tail

end Segmentation
