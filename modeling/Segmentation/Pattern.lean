import Segmentation.Node

/-! Patterns that a path has to match.
A pattern is read from the start of the input. A path is looked through from its
end, as a search builds it, so that a part of it at the end can be told to fit no
path at all. -/
namespace Segmentation

variable {σ ν : Type}

/-- What takes its share of the nodes of a path. -/
inductive Element (σ ν : Type) where
  /-- One node that equals this one. -/
  | node (n : Node σ ν)
  /-- So many nodes, whatever they are. -/
  | exactly (count : Nat)
  /-- Any number of nodes, none included. -/
  | any

namespace Element

/-- A run of so many nodes; the greatest count stands for any number. -/
def wildcard (count : Nat) : Element σ ν :=
  if count = maxOffset then .any else .exactly count

/-- Whether an element needs more nodes than are left, or is content with more. -/
def outruns : Element σ ν → List (Node σ ν) → Bool
  | .node _, rest => rest.isEmpty
  | .exactly count, rest => rest.length < count
  | .any, _ => true

end Element

/-- All that can be left of a list when something is taken from its front, longest
first. -/
def suffixes {α : Type} : List α → List (List α)
  | [] => [[]]
  | a :: l => (a :: l) :: suffixes l

section

variable [BEq σ] [BEq ν]

instance : BEq (Element σ ν) where
  beq
    | .node n, .node m => n == m
    | .exactly k, .exactly l => k == l
    | .any, .any => true
    | _, _ => false

/-- What can be left when an element takes its share from the front of one of
several lists. They are suffixes of one list, longest first, and remain so. -/
def Element.take : Element σ ν → List (List (Node σ ν)) → List (List (Node σ ν))
  | .node n, rests => rests.filterMap fun
    | x :: rest => if n == x then some rest else none
    | [] => none
  | .exactly count, rests => rests.filterMap fun rest =>
    if count ≤ rest.length then some (rest.drop count) else none
  | .any, [] => []
  | .any, rest :: _ => suffixes rest

end

structure Pattern (σ ν : Type) where
  elements : List (Element σ ν)

namespace Pattern

/-- The pattern that every path matches. -/
def empty : Pattern σ ν := ⟨[]⟩

def isEmpty (p : Pattern σ ν) : Bool :=
  p.elements.isEmpty

variable [BEq σ] [BEq ν]

instance : BEq (Pattern σ ν) where
  beq p q := p.elements == q.elements

/-- Whether the elements can share out all the nodes of one of the lists. -/
def takeAll : List (Element σ ν) → List (List (Node σ ν)) → Bool
  | [], rests => rests.any List.isEmpty
  | e :: es, rests => takeAll es (e.take rests)

/-- Whether the elements can share out all the nodes of one of the lists and at
least one node more. -/
def takeBeyond : List (Element σ ν) → List (List (Node σ ν)) → Bool
  | [], _ => false
  | e :: es, rests => rests.any e.outruns || takeBeyond es (e.take rests)

/-- Whether a complete path, given from the start, matches. -/
def accepts (p : Pattern σ ν) (path : List (Node σ ν)) : Bool :=
  p.isEmpty || takeAll p.elements.reverse [path.reverse]

/-- Whether nodes, given from the start, can be the end of a path that matches.
With the start of the input in front they are a path already. -/
def admits (p : Pattern σ ν) (tail : List (Node σ ν)) : Bool :=
  p.isEmpty ||
    if tail.head?.any Node.isStart then takeAll p.elements.reverse [tail.reverse]
    else takeBeyond p.elements.reverse [tail.reverse]

end Pattern

end Segmentation
