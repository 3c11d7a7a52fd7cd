import Segmentation.Cost

/-! What happens in a lattice and in an enumeration, for a log. -/
namespace Segmentation

inductive Level where
  | trace
  | debug
  | warn
deriving DecidableEq

inductive Event where
  /-- A step of so many nodes has been added; the input now has this length. -/
  | pushed (step nodes inputTail : Nat)
  /-- No node of the step that is to be added can be reached. -/
  | noWay (step : Nat)
  /-- There is no node for the step that is to be added. -/
  | noNode (step : Nat)
  | settled (step best : Nat) (cost : Cost)
  | queued (wholeCost : Cost) (nodes : Nat)
  | discarded (wholeCost : Cost)
  /-- The path of this number, from one on, has been reached. -/
  | yielded (number : Nat) (cost : Cost)
deriving DecidableEq

namespace Event

def level : Event → Level
  | .pushed .. | .settled .. => .debug
  | .noWay _ | .noNode _ => .warn
  | .queued .. | .discarded _ | .yielded .. => .trace

def message : Event → String
  | .pushed .. => "pushed input fragment"
  | .noWay _ => "no reachable node for the input"
  | .noNode _ => "no node is found for the input"
  | .settled .. => "settled lattice"
  | .queued .. => "queued cap"
  | .discarded _ => "discarded cap"
  | .yielded .. => "yielded path"

end Event

end Segmentation
