import Segmentation.Expansion
import Segmentation.Queue

/-! The state of a search between two paths: the tails that wait, and what has
been counted and logged so far. -/
namespace Segmentation

variable {σ ν : Type}

structure Tally where
  queued : Nat := 0
  /-- Tails that were not queued, because no path with them matches. -/
  pruned : Nat := 0
  /-- Tails whose completion turned out not to match. -/
  discarded : Nat := 0
  yielded : Nat := 0
deriving DecidableEq

structure Frontier (σ ν : Type) where
  queue : List (Ticket σ ν) := []
  /-- The number of the next ticket. -/
  nextNumber : Nat := 0
  tally : Tally := {}
  /-- What has happened, the latest last. -/
  events : Array Event := #[]

namespace Frontier

def discard (f : Frontier σ ν) (t : Tail σ ν) : Frontier σ ν :=
  { f with
    tally := { f.tally with discarded := f.tally.discarded + 1 }
    events := f.events.push (.discarded t.wholeCost) }

variable [BEq σ] [BEq ν]

/-- Queues a tail, unless no path with it matches. -/
def enqueue (p : Pattern σ ν) (f : Frontier σ ν) (t : Tail σ ν) : Frontier σ ν :=
  if p.admits t.nodes then
    { queue := Ticket.insert ⟨f.nextNumber, t⟩ f.queue
      nextNumber := f.nextNumber + 1
      tally := { f.tally with queued := f.tally.queued + 1 }
      events := f.events.push (.queued t.wholeCost t.nodes.length) }
  else { f with tally := { f.tally with pruned := f.tally.pruned + 1 } }

def enqueueAll (p : Pattern σ ν) (f : Frontier σ ν) (tails : List (Tail σ ν)) : Frontier σ ν :=
  tails.foldl (enqueue p) f

end Frontier

end Segmentation
