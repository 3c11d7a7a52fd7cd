import Segmentation.Lattice
import Segmentation.Path
import Segmentation.Pattern

/-! Completing a tail along the best predecessors.
On the way each other predecessor is the beginning of a tail of its own. What
comes out depends on the lattice, the pattern and the tail alone. -/
namespace Segmentation

variable {σ ν : Type}

/-- The nodes that a node follows, each with what its edge costs. -/
def Lattice.predecessors (l : Lattice σ ν) (step : Nat) (edgeCosts : List Cost) :
    Except Failure (List (Node σ ν × Cost)) := do
  let nodes ← l.nodesAt step
  if nodes.length = edgeCosts.length then return nodes.zip edgeCosts
  else throw (.invalid (.edgeCount edgeCosts.length nodes.length))

/-- The greatest number of nodes in a step. -/
def Lattice.width (l : Lattice σ ν) : Nat :=
  l.steps.foldr (fun s n => max s.nodes.length n) 0

/-- What comes out of a tail. -/
structure Expansion (σ ν : Type) where
  /-- The tails passed on the way, in this order. -/
  tails : List (Tail σ ν)
  /-- The nodes of the cheapest path with the tail, unless it fails to match. -/
  nodes : Option (List (Node σ ν))

variable [BEq σ] [BEq ν]

/-- Completes the tail of a node and the nodes `rest` after it, whose cost so far is
`cost`. The node stands in the step `place`, and what it follows comes before. -/
def Lattice.retrace (l : Lattice σ ν) (p : Pattern σ ν) (place : Nat) (node : Node σ ν)
    (rest : List (Node σ ν)) (cost : Cost) : Except Failure (Expansion σ ν) :=
  match node.origin with
  | none => .ok ⟨[], some (node :: rest)⟩
  | some origin =>
    if origin.step < place then do
      let preds ← l.predecessors origin.step node.edgeCosts
      match preds[origin.best]? with
      | none => throw (.outOfRange origin.best preds.length)
      | some (best, edge) =>
        let tails := (preds.eraseIdx origin.best).filterMap (Tail.grown? (node :: rest) cost)
        if p.admits (best :: node :: rest) then
          let further ← l.retrace p origin.step best (node :: rest)
            (cost + edge + best.entry.cost)
          return ⟨tails ++ further.tails, further.nodes⟩
        else return ⟨tails, none⟩
    else throw (.outOfRange origin.step place)
termination_by place

/-- A tail without nodes leads nowhere. -/
def Lattice.expand (l : Lattice σ ν) (p : Pattern σ ν) (t : Tail σ ν) :
    Except Failure (Expansion σ ν) :=
  match t.nodes with
  | [] => .ok ⟨[], none⟩
  | node :: rest => l.retrace p t.place node rest t.cost

end Segmentation
