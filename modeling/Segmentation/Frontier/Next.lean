import Segmentation.Frontier.Weight

/-! The way from one path to the next.
Tails are taken from the queue, and what comes out of each is queued in turn, until
one completes to a path. The weight of all that waits falls with each tail taken. -/
namespace Segmentation.Frontier

variable {σ ν : Type} [BEq σ] [BEq ν]

set_option linter.unusedVariables false in
/-- Takes tails from the queue until one completes to a path that matches. -/
def next (l : Lattice σ ν) (p : Pattern σ ν) (f : Frontier σ ν) :
    Except Failure (Option (Path σ ν)) × Frontier σ ν :=
  match hq : f.queue with
  | [] => (.ok none, f)
  | ⟨_, t⟩ :: queue =>
    match hx : l.expand p t with
    | .error failure => (.error failure, { f with queue := queue })
    | .ok x =>
      let rest := { f with queue := queue }.enqueueAll p x.tails
      match x.nodes with
      | some nodes => (.ok (some ⟨nodes, t.wholeCost⟩), rest)
      | none => (rest.discard t).next l p
termination_by f.weight l.base
decreasing_by exact weight_enqueueAll_lt hq hx

end Segmentation.Frontier
