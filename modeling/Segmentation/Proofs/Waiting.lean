import Segmentation.Frontier.Next
import Segmentation.Proofs.CostSums

/-! The tails that wait, without their numbers.
As each number is greater than all before it, a new tail takes its place behind those
that are not dearer, and this place does not depend on the tails that are left out. -/
namespace Segmentation

variable {σ ν : Type}

namespace Tail

/-- Puts a tail before the first dearer one. -/
def enter (t : Tail σ ν) : List (Tail σ ν) → List (Tail σ ν)
  | [] => [t]
  | u :: us => if t.wholeCost < u.wholeCost then t :: u :: us else u :: t.enter us

def enterAll (ts us : List (Tail σ ν)) : List (Tail σ ν) :=
  ts.foldl (fun us t => t.enter us) us

/-- No tail is cheaper than one before it. -/
def Sorted (us : List (Tail σ ν)) : Prop :=
  us.Pairwise fun t u => t.wholeCost ≤ u.wholeCost

variable {t : Tail σ ν} {ts us : List (Tail σ ν)}

theorem enter_perm (t : Tail σ ν) (us : List (Tail σ ν)) : (t.enter us).Perm (t :: us) := by
  induction us with
  | nil => exact .refl _
  | cons u us ih =>
    rw [enter]
    split
    · exact .refl _
    · exact (ih.cons u).trans (.swap t u us)

theorem enterAll_perm (ts us : List (Tail σ ν)) : (enterAll ts us).Perm (ts ++ us) := by
  induction ts generalizing us with
  | nil => exact .refl _
  | cons t ts ih =>
    rw [enterAll, List.foldl_cons, ← enterAll]
    calc (enterAll ts (t.enter us)).Perm (ts ++ t.enter us) := ih _
      List.Perm _ (ts ++ t :: us) := (enter_perm t us).append_left ts
      List.Perm _ (t :: ts ++ us) := List.perm_middle

theorem sorted_enter (sorted : Sorted us) : Sorted (t.enter us) := by
  induction us with
  | nil => exact List.pairwise_singleton _ _
  | cons u us ih =>
    obtain ⟨first, rest⟩ := List.pairwise_cons.mp sorted
    rw [enter]
    split
    next below =>
      refine .cons ?_ sorted
      intro v member
      rcases List.mem_cons.mp member with rfl | member
      · exact Int.le_of_lt below
      · exact Cost.le_trans (Int.le_of_lt below) (first v member)
    next above =>
      refine .cons ?_ (ih rest)
      intro v member
      rcases List.mem_cons.mp ((enter_perm t us).mem_iff.mp member) with rfl | member
      · exact Int.not_lt.mp above
      · exact first v member

theorem sorted_enterAll (sorted : Sorted us) : Sorted (enterAll ts us) := by
  induction ts generalizing us with
  | nil => exact sorted
  | cons t ts ih => exact ih (sorted_enter sorted)

theorem enter_of_lt (dearer : ∀ u ∈ us, t.wholeCost < u.wholeCost) : t.enter us = t :: us := by
  cases us with
  | nil => rfl
  | cons u us => rw [enter, if_pos (dearer u List.mem_cons_self)]

theorem filter_enter (keep : Tail σ ν → Bool) (sorted : Sorted us) :
    (t.enter us).filter keep =
      if keep t then t.enter (us.filter keep) else us.filter keep := by
  induction us with
  | nil => cases kept : keep t <;> simp [enter, kept]
  | cons u us ih =>
    obtain ⟨first, rest⟩ := List.pairwise_cons.mp sorted
    rw [enter]
    split
    next below =>
      have dearer : ∀ v ∈ (u :: us).filter keep, t.wholeCost < v.wholeCost := by
        intro v member
        rcases List.mem_cons.mp (List.mem_filter.mp member).1 with rfl | member
        · exact below
        · exact Int.lt_of_lt_of_le below (first v member)
      rw [enter_of_lt dearer, List.filter_cons]
    next above =>
      rw [List.filter_cons, List.filter_cons, ih rest]
      cases keep u with
      | false => rfl
      | true =>
        rw [if_pos rfl, if_pos rfl]
        split
        · rw [enter, if_neg above]
        · rfl

theorem filter_enterAll (keep : Tail σ ν → Bool) (sorted : Sorted us) :
    (enterAll ts us).filter keep = enterAll (ts.filter keep) (us.filter keep) := by
  induction ts generalizing us with
  | nil => rfl
  | cons t ts ih =>
    rw [enterAll, List.foldl_cons, ← enterAll, ih (sorted_enter sorted), filter_enter keep sorted,
      List.filter_cons]
    split
    · rw [enterAll, enterAll, List.foldl_cons]
    · rfl

end Tail

namespace Frontier

variable {f : Frontier σ ν} {t : Tail σ ν}

def tails (f : Frontier σ ν) : List (Tail σ ν) := f.queue.map Ticket.tail

/-- The next number is greater than all that wait. -/
def Fresh (f : Frontier σ ν) : Prop := ∀ ticket ∈ f.queue, ticket.number < f.nextNumber

theorem insert_tails {number : Nat} {queue : List (Ticket σ ν)}
    (fresh : ∀ ticket ∈ queue, ticket.number < number) :
    (Ticket.insert ⟨number, t⟩ queue).map Ticket.tail = t.enter (queue.map Ticket.tail) := by
  induction queue with
  | nil => rfl
  | cons b queue ih =>
    have later : b.number < number := fresh b List.mem_cons_self
    have precedes : Ticket.Precedes ⟨number, t⟩ b ↔ t.wholeCost < b.tail.wholeCost := by
      constructor
      · rintro (below | ⟨_, earlier⟩)
        · exact below
        · exact absurd earlier (Nat.lt_asymm later)
      · exact .inl
    rw [Ticket.insert, List.map_cons, Tail.enter]
    by_cases below : t.wholeCost < b.tail.wholeCost
    · rw [if_pos (precedes.mpr below), if_pos below, List.map_cons, List.map_cons]
    · rw [if_neg (mt precedes.mp below), if_neg below, List.map_cons,
        ih fun ticket member => fresh ticket (List.mem_cons_of_mem _ member)]

variable [BEq σ] [BEq ν] {p : Pattern σ ν}

theorem Fresh.enqueue (fresh : f.Fresh) : (f.enqueue p t).Fresh := by
  unfold Frontier.enqueue
  split
  · intro ticket member
    rcases List.mem_cons.mp ((Ticket.insert_perm _ _).mem_iff.mp member) with rfl | member
    · exact Nat.lt_succ_self _
    · exact Nat.lt_succ_of_lt (fresh ticket member)
  · exact fresh

theorem tails_enqueue (fresh : f.Fresh) :
    (f.enqueue p t).tails = if p.admits t.nodes then t.enter f.tails else f.tails := by
  unfold Frontier.enqueue
  split
  · exact insert_tails fresh
  · rfl

theorem enqueueAll_spec (ts : List (Tail σ ν)) (fresh : f.Fresh) :
    (f.enqueueAll p ts).Fresh ∧
      (f.enqueueAll p ts).tails = Tail.enterAll (ts.filter fun t => p.admits t.nodes) f.tails := by
  induction ts generalizing f with
  | nil => exact ⟨fresh, rfl⟩
  | cons t ts ih =>
    obtain ⟨still, tails⟩ := ih fresh.enqueue
    refine ⟨still, ?_⟩
    rw [enqueueAll, List.foldl_cons, ← enqueueAll, tails, tails_enqueue fresh, List.filter_cons]
    split
    · rw [Tail.enterAll, Tail.enterAll, List.foldl_cons]
    · rfl

/-- A tail is counted once, as one that waits or as one that no path matches with. -/
theorem enqueue_tally (f : Frontier σ ν) (p : Pattern σ ν) (t : Tail σ ν) :
    (f.enqueue p t).tally.yielded = f.tally.yielded ∧
    (f.enqueue p t).tally.discarded = f.tally.discarded ∧
    (f.enqueue p t).tally.queued + f.queue.length =
      f.tally.queued + (f.enqueue p t).queue.length ∧
    (p.admits t.nodes = true → (f.enqueue p t).tally.pruned = f.tally.pruned) := by
  unfold Frontier.enqueue
  split
  · have longer := (Ticket.insert_perm ⟨f.nextNumber, t⟩ f.queue).length_eq
    rw [List.length_cons] at longer
    refine ⟨rfl, rfl, ?_, fun _ => rfl⟩
    dsimp only
    omega
  next rejected => exact ⟨rfl, rfl, rfl, fun admitted => absurd admitted rejected⟩

theorem enqueueAll_tally (f : Frontier σ ν) (p : Pattern σ ν) (ts : List (Tail σ ν)) :
    (f.enqueueAll p ts).tally.yielded = f.tally.yielded ∧
    (f.enqueueAll p ts).tally.discarded = f.tally.discarded ∧
    (f.enqueueAll p ts).tally.queued + f.queue.length =
      f.tally.queued + (f.enqueueAll p ts).queue.length ∧
    ((∀ t ∈ ts, p.admits t.nodes = true) →
      (f.enqueueAll p ts).tally.pruned = f.tally.pruned) := by
  induction ts generalizing f with
  | nil => exact ⟨rfl, rfl, rfl, fun _ => rfl⟩
  | cons t ts ih =>
    obtain ⟨yielded, discarded, queued, pruned⟩ := f.enqueue_tally p t
    obtain ⟨yielded', discarded', queued', pruned'⟩ := ih (f.enqueue p t)
    rw [enqueueAll, List.foldl_cons, ← enqueueAll]
    refine ⟨yielded'.trans yielded, discarded'.trans discarded, by omega, ?_⟩
    intro all
    obtain ⟨admitted, others⟩ := List.forall_mem_cons.mp all
    exact (pruned' others).trans (pruned admitted)

end Frontier

end Segmentation
