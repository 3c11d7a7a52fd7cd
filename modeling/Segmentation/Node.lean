import Segmentation.Cost
import Segmentation.Fragment

/-! Words and their occurrences in a lattice.
A node is an occurrence of an entry: it knows the step that it follows, what the
edges from the nodes of that step cost, and the cost of the cheapest way from the
start up to and including itself. -/
namespace Segmentation

variable {σ ν : Type}

/-- A word: the key under which connections know it, a value of the caller's, and
its cost. The start and the end of the input have neither key nor value. -/
structure Entry (σ ν : Type) where
  key : Option (Fragment σ)
  value : Option ν
  cost : Cost

namespace Entry

/-- The word that stands for the start and for the end of the input. -/
def sentinel : Entry σ ν := ⟨none, none, 0⟩

def isSentinel (e : Entry σ ν) : Bool :=
  e.key.isNone

instance [BEq σ] [BEq ν] : BEq (Entry σ ν) where
  beq a b := a.key == b.key && a.value == b.value && a.cost == b.cost

end Entry

/-- The step that a node follows, and the index of the best node there. -/
structure Origin where
  step : Nat
  best : Nat
deriving DecidableEq

structure Node (σ ν : Type) where
  entry : Entry σ ν
  /-- The position of the node in its own step. -/
  index : Nat
  /-- The start of the input has no origin. -/
  origin : Option Origin
  /-- One cost for each node of the step that is followed. -/
  edgeCosts : List Cost
  /-- The cost of the cheapest way from the start, this node included. -/
  pathCost : Cost

namespace Node

/-- The start of the input. -/
def start (edgeCosts : List Cost) : Node σ ν :=
  ⟨.sentinel, 0, none, edgeCosts, 0⟩

/-- The end of the input. -/
def finish (origin : Origin) (edgeCosts : List Cost) (pathCost : Cost) : Node σ ν :=
  ⟨.sentinel, 0, some origin, edgeCosts, pathCost⟩

def isStart (n : Node σ ν) : Bool :=
  n.entry.isSentinel && n.origin.isNone

instance [BEq σ] [BEq ν] : BEq (Node σ ν) where
  beq a b :=
    a.entry == b.entry && a.index == b.index && a.origin == b.origin &&
      a.edgeCosts == b.edgeCosts && a.pathCost == b.pathCost

end Node

end Segmentation
