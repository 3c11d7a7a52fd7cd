import Segmentation.Node

/-! What a lattice asks about words: which words are written in a given way, and
what it costs that one follows another. -/
namespace Segmentation

variable {σ ν : Type}

structure Vocabulary (σ ν : Type) where
  /-- The words written so, in a fixed order. -/
  entries : Fragment σ → List (Entry σ ν)
  /-- The cost of a word right after a node, if it may stand there. -/
  connection : Node σ ν → Entry σ ν → Option Cost

/-- What becomes of a word that may not stand after a node. -/
inductive Policy where
  /-- The edge stays, at an infinite cost. -/
  | unreachable
  /-- The input is refused. -/
  | reject
deriving DecidableEq

end Segmentation
