import Segmentation.Path

/-! The tails that wait for their completion, the next one first.
The cheapest comes first, and of equal ones the one that has waited longest. -/
namespace Segmentation

variable {σ ν : Type}

structure Ticket (σ ν : Type) where
  /-- Counts the tails queued before. -/
  number : Nat
  tail : Tail σ ν

namespace Ticket

def Precedes (a b : Ticket σ ν) : Prop :=
  a.tail.wholeCost < b.tail.wholeCost ∨
    a.tail.wholeCost = b.tail.wholeCost ∧ a.number < b.number

instance (a b : Ticket σ ν) : Decidable (a.Precedes b) :=
  inferInstanceAs (Decidable (_ ∨ _ ∧ _))

/-- Puts a ticket into an ordered queue. -/
def insert (a : Ticket σ ν) : List (Ticket σ ν) → List (Ticket σ ν)
  | [] => [a]
  | b :: queue => if a.Precedes b then a :: b :: queue else b :: a.insert queue

theorem insert_perm (a : Ticket σ ν) (queue : List (Ticket σ ν)) :
    (a.insert queue).Perm (a :: queue) := by
  induction queue with
  | nil => exact .refl _
  | cons b queue ih =>
    rw [insert]
    split
    · exact .refl _
    · exact (ih.cons b).trans (.swap a b queue)

end Ticket

end Segmentation
