import Segmentation.Frontier.Next

/-! Enumerating the paths that match a pattern, the cheapest first.
The path that comes next is worked out ahead, so that it is always known whether
there is one. -/
namespace Segmentation

variable {σ ν : Type}

/-- A lattice to search, told apart from others by a number, and the node that the
paths have to end with. -/
structure Scope (σ ν : Type) where
  identity : Nat
  lattice : Lattice σ ν
  finish : Node σ ν

/-- Where an enumeration has come to: before the first path, at one, or past the
last. -/
inductive Cursor (σ ν : Type) where
  | before
  | at (path : Path σ ν)
  | past

/-- An enumeration without a scope has nothing to enumerate. -/
structure Enumeration (σ ν : Type) where
  scope : Option (Scope σ ν) := none
  pattern : Pattern σ ν := .empty
  frontier : Frontier σ ν := {}
  cursor : Cursor σ ν := .past
  /-- The path that comes next. -/
  ahead : Option (Path σ ν) := none
  /-- How many paths have been reached. -/
  index : Nat := 0

namespace Enumeration

def hasNext (e : Enumeration σ ν) : Bool :=
  e.ahead.isSome

/-- Whether there is neither a path here nor one to come. -/
def isExhausted (e : Enumeration σ ν) : Bool :=
  match e.cursor with
  | .at _ => false
  | _ => e.ahead.isNone

/-- The path reached last. -/
def current (e : Enumeration σ ν) : Except Failure (Path σ ν) :=
  match e.cursor with
  | .at path => .ok path
  | .before => .error (.misuse .notAdvanced)
  | .past => .error (.misuse .exhausted)

/-- The path that comes next, without going there. -/
def peek (e : Enumeration σ ν) : Except Failure (Path σ ν) :=
  match e.ahead with
  | some path => .ok path
  | none => .error (.misuse .noneFollows)

variable [BEq σ] [BEq ν]

/-- Starts to enumerate the paths of a lattice that end with a node. -/
def start (identity : Nat) (l : Lattice σ ν) (finish : Node σ ν) (p : Pattern σ ν) :
    Except Failure (Enumeration σ ν) :=
  match finish.origin with
  | none => .error (.invalid .noOrigin)
  | some origin => do
    let preds ← l.predecessors origin.step finish.edgeCosts
    let tails := preds.filterMap (Tail.grown? [finish] finish.entry.cost)
    let (found, frontier) := Frontier.next l p (Frontier.enqueueAll p {} tails)
    return {
      scope := some ⟨identity, l, finish⟩
      pattern := p
      frontier := frontier
      cursor := .before
      ahead := ← found }

/-- Works out the path that comes next. -/
def search (e : Enumeration σ ν) : Except Failure (Option (Path σ ν)) × Frontier σ ν :=
  match e.scope with
  | none => (.ok none, e.frontier)
  | some scope => e.frontier.next scope.lattice e.pattern

/-- Goes to the next path. Any failure leaves the enumeration exhausted. -/
def advance (e : Enumeration σ ν) : Except Failure (Path σ ν) × Enumeration σ ν :=
  match e.ahead with
  | none => (.error (.misuse .pastLast), { e with cursor := .past })
  | some path =>
    match e.search with
    | (.error failure, frontier) =>
      (.error failure,
        { e with
          frontier := { frontier with queue := [] }
          cursor := .past
          ahead := none })
    | (.ok ahead, frontier) =>
      let index := e.index + 1
      (.ok path,
        { e with
          frontier := { frontier with
            tally := { frontier.tally with yielded := frontier.tally.yielded + 1 }
            events := frontier.events.push (.yielded index path.cost) }
          cursor := .at path
          ahead := ahead
          index := index })

/-- The next path, if there is one, and the enumeration after it. -/
def next (e : Enumeration σ ν) : Option (Path σ ν) × Enumeration σ ν :=
  let (result, after) := e.advance
  (result.toOption, after)

/-- Up to so many paths, and the enumeration after them. -/
def take : Nat → Enumeration σ ν → List (Path σ ν) × Enumeration σ ν
  | 0, e => ([], e)
  | n + 1, e =>
    match e.next with
    | (none, after) => ([], after)
    | (some path, after) =>
      let (paths, last) := take n after
      (path :: paths, last)

/-- Exhausted enumerations are equal. Others are if they have come equally far in
enumerating the same paths. -/
instance : BEq (Enumeration σ ν) where
  beq a b :=
    match a.isExhausted, b.isExhausted with
    | true, true => true
    | false, false =>
      match a.scope, b.scope with
      | some s, some t =>
        s.identity == t.identity && s.finish == t.finish && a.pattern == b.pattern &&
          a.index == b.index
      | _, _ => false
    | _, _ => false

end Enumeration

end Segmentation
