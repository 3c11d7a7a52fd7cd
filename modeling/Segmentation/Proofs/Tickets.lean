import Segmentation.Proofs.Waiting
import Mathlib.Data.List.Nodup

/-! Tickets compared.
The cheapest ticket is the greatest, and of equally cheap ones the one with the least number. As no
number is given twice, there is never a choice between two greatest tickets, and where tickets
stand in line in the order of their numbers the greatest is the first of the cheapest. -/
namespace Segmentation.Ticket

variable {σ ν : Type}

/-- Compares two tickets, so that the one to be taken first is the greater one. -/
def order (a b : Ticket σ ν) : Ordering :=
  (compare b.tail.wholeCost.val a.tail.wholeCost.val).then (compare b.number a.number)

/-- One of the tickets, and none of them is greater. -/
def Greatest (tickets : List (Ticket σ ν)) (a : Ticket σ ν) : Prop :=
  a ∈ tickets ∧ ∀ b ∈ tickets, a.order b ≠ .lt

/-- The first of the cheapest tickets in a line. -/
def Foremost (line : List (Ticket σ ν)) (a : Ticket σ ν) : Prop :=
  ∃ earlier later, line = earlier ++ a :: later ∧
    (∀ b ∈ earlier, a.tail.wholeCost < b.tail.wholeCost) ∧
    ∀ b ∈ later, a.tail.wholeCost ≤ b.tail.wholeCost

variable {a b c : Ticket σ ν} {queue line tickets : List (Ticket σ ν)}

theorem precedes_iff : a.Precedes b ↔ a.tail.wholeCost.val < b.tail.wholeCost.val ∨
    a.tail.wholeCost.val = b.tail.wholeCost.val ∧ a.number < b.number :=
  or_congr_right (and_congr_left fun _ => ⟨congrArg Cost.val, Cost.ext_val⟩)

theorem order_eq_lt_iff : a.order b = .lt ↔ b.Precedes a := by
  rw [order, Ordering.then_eq_lt, Int.compare_eq_lt, Int.compare_eq_eq, Nat.compare_eq_lt,
    precedes_iff]

theorem number_of_order_eq (same : a.order b = .eq) : a.number = b.number := by
  rw [order, Ordering.then_eq_eq, Nat.compare_eq_eq] at same
  exact same.2.symm

theorem Precedes.trans (first : a.Precedes b) (second : b.Precedes c) : a.Precedes c := by
  rw [precedes_iff] at first second ⊢
  omega

theorem Precedes.asymm (first : a.Precedes b) : ¬ b.Precedes a := by
  rw [precedes_iff] at first ⊢
  omega

theorem Precedes.of_not (apart : a.number ≠ b.number) (behind : ¬ a.Precedes b) :
    b.Precedes a := by
  rw [precedes_iff] at behind ⊢
  omega

theorem greatest_iff : a.Greatest tickets ↔ a ∈ tickets ∧ ∀ b ∈ tickets, ¬ b.Precedes a := by
  simp only [Greatest, ne_eq, order_eq_lt_iff]

theorem Greatest.of_perm (greatest : a.Greatest tickets) (same : tickets.Perm line) :
    a.Greatest line :=
  ⟨same.mem_iff.mp greatest.1, fun b member => greatest.2 b (same.mem_iff.mpr member)⟩

theorem Greatest.unique
    (increasing : line.Pairwise fun first second => first.number < second.number)
    (first : a.Greatest line) (second : b.Greatest line) : a = b := by
  have distinct : (line.map Ticket.number).Nodup :=
    List.pairwise_map.mpr (increasing.imp Nat.ne_of_lt)
  obtain ⟨here, notAfter⟩ := greatest_iff.mp first
  obtain ⟨there, notBefore⟩ := greatest_iff.mp second
  refine List.inj_on_of_nodup_map distinct here there ?_
  by_contra apart
  exact notAfter b there (.of_not apart (notBefore a here))

theorem Greatest.foremost
    (increasing : line.Pairwise fun first second => first.number < second.number)
    (greatest : a.Greatest line) : a.Foremost line := by
  obtain ⟨here, notAfter⟩ := greatest_iff.mp greatest
  obtain ⟨earlier, later, rfl⟩ := List.append_of_mem here
  obtain ⟨_, _, across⟩ := List.pairwise_append.mp increasing
  refine ⟨earlier, later, rfl, ?_, ?_⟩
  · intro b member
    have before := notAfter b (List.mem_append_left _ member)
    have older := across b member a List.mem_cons_self
    rw [precedes_iff] at before
    rw [Cost.lt_iff]
    omega
  · intro b member
    have before := notAfter b (List.mem_append_right _ (List.mem_cons_of_mem a member))
    rw [precedes_iff] at before
    rw [Cost.le_iff]
    omega

/-- In a queue that is kept in order the first ticket is the greatest. -/
theorem greatest_head (ordered : (a :: queue).Pairwise Precedes) : a.Greatest (a :: queue) := by
  obtain ⟨first, _⟩ := List.pairwise_cons.mp ordered
  refine greatest_iff.mpr ⟨List.mem_cons_self, List.forall_mem_cons.mpr ⟨?_, ?_⟩⟩
  · exact fun precedes => precedes.asymm precedes
  · exact fun b member => (first b member).asymm

/-- A ticket with a number of its own takes its place in an ordered queue. -/
theorem ordered_insert (ordered : queue.Pairwise Precedes)
    (apart : ∀ b ∈ queue, a.number ≠ b.number) : (a.insert queue).Pairwise Precedes := by
  induction queue with
  | nil => exact List.pairwise_singleton _ _
  | cons b queue ih =>
    obtain ⟨first, rest⟩ := List.pairwise_cons.mp ordered
    obtain ⟨here, others⟩ := List.forall_mem_cons.mp apart
    rw [insert]
    split
    next before =>
      refine .cons ?_ ordered
      intro c member
      rcases List.mem_cons.mp member with rfl | member
      · exact before
      · exact before.trans (first c member)
    next behind =>
      refine .cons ?_ (ih rest others)
      intro c member
      rcases List.mem_cons.mp ((insert_perm a queue).mem_iff.mp member) with rfl | member
      · exact .of_not here behind
      · exact first c member

end Segmentation.Ticket
