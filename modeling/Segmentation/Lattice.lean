import Segmentation.Event
import Segmentation.Vocabulary

/-! The word lattice of an input that grows at its end.
The first step holds the start of the input. Each fragment that is pushed adds a
step, with a node for each word that ends with the fragment and begins where an
earlier step ends. The cheapest way to a node is known when it is made, because
the steps before it do not change any more. -/
namespace Segmentation

variable {σ ν : Type}

structure Step (σ ν : Type) where
  /-- How much of the input has been read at the end of the step. -/
  inputTail : Nat
  nodes : List (Node σ ν)

def Step.start : Step σ ν := ⟨0, [.start []]⟩

structure Lattice (σ ν : Type) where
  vocabulary : Vocabulary σ ν
  policy : Policy
  /-- The fragments pushed so far, in one piece. -/
  buffer : Option (Fragment σ)
  steps : List (Step σ ν)
  /-- Whether an end has been found, after which nothing can be pushed. -/
  settled : Bool

/-- What an operation on a lattice leads to. -/
structure Outcome (σ ν α : Type) where
  result : Except Failure α
  lattice : Lattice σ ν
  events : List Event

/-- The first index of a least cost, with this cost. -/
def leastIndex : List Cost → Nat × Cost
  | [] => (0, .infinite)
  | c :: cs =>
    let (i, least) := leastIndex cs
    if least < c then (i + 1, least) else (0, c)

namespace Step

/-- The costs of coming from each node of the step over an edge. -/
def arrivals (s : Step σ ν) (edgeCosts : List Cost) : List Cost :=
  List.zipWith (fun n edge => n.pathCost + edge) s.nodes edgeCosts

/-- The node of an entry after this step, which has the number `step`. -/
def follower (s : Step σ ν) (step : Nat) (edgeCosts : List Cost) (e : Entry σ ν) : Node σ ν :=
  let (best, arrival) := leastIndex (s.arrivals edgeCosts)
  ⟨e, 0, some ⟨step, best⟩, edgeCosts, arrival + e.cost⟩

end Step

namespace Lattice

/-- A lattice that has read nothing. -/
def empty (vocabulary : Vocabulary σ ν) (policy : Policy) : Lattice σ ν :=
  ⟨vocabulary, policy, none, [.start], false⟩

def stepCount (l : Lattice σ ν) : Nat :=
  l.steps.length

def nodesAt (l : Lattice σ ν) (step : Nat) : Except Failure (List (Node σ ν)) :=
  match l.steps[step]? with
  | some s => .ok s.nodes
  | none => .error (.outOfRange step l.stepCount)

/-- What the edges from the nodes of a step to an entry cost. -/
def edgeCosts (l : Lattice σ ν) (s : Step σ ν) (e : Entry σ ν) : Except Failure (List Cost) :=
  s.nodes.mapM fun n =>
    match l.vocabulary.connection n e, l.policy with
    | some cost, _ => .ok cost
    | none, .unreachable => .ok .infinite
    | none, .reject => .error (.invalid (.noConnection n.index s.inputTail))

/-- Closes the lattice with a node for the end of the input. It can be closed
again, with the same result. -/
def settle (l : Lattice σ ν) : Outcome σ ν (Node σ ν) :=
  let last := l.steps.getLastD .start
  match l.edgeCosts last .sentinel with
  | .error failure => ⟨.error failure, l, []⟩
  | .ok edgeCosts =>
    let (best, arrival) := leastIndex (last.arrivals edgeCosts)
    if arrival = .infinite then ⟨.error (.invalid .noEnd), l, []⟩
    else
      let origin := ⟨l.stepCount - 1, best⟩
      let cost := arrival + (Entry.sentinel : Entry σ ν).cost
      ⟨.ok (.finish origin edgeCosts cost), { l with settled := true },
        [.settled origin.step origin.best cost]⟩

variable [Sequence σ]

/-- The nodes of the words that begin after a step and end with the input. -/
def followers (l : Lattice σ ν) (input : Fragment σ) (s : Step σ ν) (step : Nat) :
    Except Failure (List (Node σ ν)) := do
  let key ← input.slice s.inputTail (input.length - s.inputTail)
  (l.vocabulary.entries key).mapM fun e => do
    return s.follower step (← l.edgeCosts s e) e

/-- The nodes of the words that end with the input, numbered through. -/
def arriving (l : Lattice σ ν) (input : Fragment σ) : Except Failure (List (Node σ ν)) := do
  let groups ← l.steps.zipIdx.mapM fun (s, step) => l.followers input s step
  return groups.flatten.mapIdx fun i n => { n with index := i }

/-- The input with a fragment at its end. -/
def extended (l : Lattice σ ν) (fragment : Fragment σ) : Except Failure (Fragment σ) :=
  match l.buffer with
  | some buffer => buffer.append fragment
  | none => .ok fragment

/-- Gives up a push of which only the extended input is left: the input is cut
back to its old length. An input that cannot be cut is lost, and the refusal to
cut it is what is reported. -/
def undo (l : Lattice σ ν) (extended : Fragment σ) (failure : Failure) (events : List Event) :
    Outcome σ ν Unit :=
  match l.buffer with
  | none => ⟨.error failure, l, events⟩
  | some old =>
    match extended.slice 0 old.length with
    | .ok buffer => ⟨.error failure, { l with buffer := some buffer }, events⟩
    | .error refusal => ⟨.error refusal, { l with buffer := none }, events⟩

/-- Adds the step of the words that end with a new fragment. -/
def push (l : Lattice σ ν) (fragment : Fragment σ) : Outcome σ ν Unit :=
  if l.settled then ⟨.error (.misuse .settled), l, []⟩
  else
    match l.extended fragment with
    | .error failure => ⟨.error failure, l, []⟩
    | .ok input =>
      match l.arriving input with
      | .error failure => l.undo input failure []
      | .ok [] => l.undo input (.invalid .noNode) [.noNode l.stepCount]
      | .ok nodes =>
        let warning := if nodes.all (·.pathCost = .infinite) then [.noWay l.stepCount] else []
        let step := ⟨input.length, nodes⟩
        ⟨.ok (), { l with buffer := some input, steps := l.steps ++ [step] },
          warning ++ [.pushed l.stepCount nodes.length input.length]⟩

end Lattice

end Segmentation
