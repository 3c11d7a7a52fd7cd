import Std.Data.HashMap
import Segmentation.Vocabulary

/-! Vocabularies given by two tables.
Words are looked up by the way that they are written, connections by the keys of
the two words; the start and the end of the input are the pair's absent keys. A
later row of a table replaces an earlier one for the same keys. The keys of the
connections are numbered as they come up, and a pair of them is kept as a pair of
numbers. -/
namespace Segmentation

variable {σ ν : Type} [BEq σ] [Hashable σ]

structure Lexicon (σ ν : Type) [BEq σ] [Hashable σ] where
  entries : Std.HashMap (Fragment σ) (List (Entry σ ν))
  /-- The numbers of the keys, from one on. -/
  numbers : Std.HashMap (Fragment σ) Nat
  connections : Std.HashMap (Nat × Nat) Cost

namespace Lexicon

/-- The number of a key, if it has one. An absent key has the number zero. -/
def number? (x : Lexicon σ ν) : Option (Fragment σ) → Option Nat
  | none => some 0
  | some key => x.numbers[key]?

/-- The number of a key, which is given the next one if it has none. -/
def intern (x : Lexicon σ ν) : Option (Fragment σ) → Nat × Lexicon σ ν
  | none => (0, x)
  | some key =>
    let next := x.numbers.size + 1
    (x.numbers.getD key next, { x with numbers := x.numbers.insertIfNew key next })

/-- Takes in the cost of a connection between two keys. -/
def addConnection (x : Lexicon σ ν) (row : (Option (Fragment σ) × Option (Fragment σ)) × Cost) :
    Lexicon σ ν :=
  let (before, x) := x.intern row.1.1
  let (after, x) := x.intern row.1.2
  { x with connections := x.connections.insert (before, after) row.2 }

def ofLists (entries : List (Fragment σ × List (Entry σ ν)))
    (connections : List ((Option (Fragment σ) × Option (Fragment σ)) × Cost)) : Lexicon σ ν :=
  connections.foldl addConnection ⟨.ofList entries, ∅, ∅⟩

/-- How many ways of writing have words. -/
def keyCount (x : Lexicon σ ν) : Nat :=
  x.entries.size

/-- How many pairs of keys are connected. -/
def connectionCount (x : Lexicon σ ν) : Nat :=
  x.connections.size

def find (x : Lexicon σ ν) (key : Fragment σ) : List (Entry σ ν) :=
  x.entries.getD key []

/-- The cost of a connection between two keys. -/
def link (x : Lexicon σ ν) (before after : Option (Fragment σ)) : Option Cost := do
  let i ← x.number? before
  let j ← x.number? after
  x.connections[(i, j)]?

def connect (x : Lexicon σ ν) (before after : Entry σ ν) : Option Cost :=
  x.link before.key after.key

def toVocabulary (x : Lexicon σ ν) : Vocabulary σ ν where
  entries := x.find
  connection before after := x.connect before.entry after

end Lexicon

end Segmentation
