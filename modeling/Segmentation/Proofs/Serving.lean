import Segmentation.Proofs.Counting
import Segmentation.Proofs.Tickets

/-! In which order the tails that wait are taken.
Each tail that is queued gets a ticket, numbered in the order in which they are queued. A queue that
gives a greatest ticket, in whatever order it keeps them, gives the first of the cheapest, and
until it is taken a ticket stays there. That holds however tails that are queued and tickets that
are taken follow each other, and a search does nothing else with its queue. -/
namespace Segmentation

variable {σ ν : Type}

/-- What is done with a ticket: it is put into the queue, or taken from it. -/
inductive Handling (σ ν : Type) where
  | put (ticket : Ticket σ ν)
  | take (ticket : Ticket σ ν)

namespace Handling

def put? : Handling σ ν → Option (Ticket σ ν)
  | put ticket => some ticket
  | take _ => none

def take? : Handling σ ν → Option (Ticket σ ν)
  | put _ => none
  | take ticket => some ticket

/-- The tickets that are put into the queue, in this order. -/
def puts (history : List (Handling σ ν)) : List (Ticket σ ν) := history.filterMap put?

/-- The tickets that are taken from the queue, in this order. -/
def takes (history : List (Handling σ ν)) : List (Ticket σ ν) := history.filterMap take?

/-- The tickets that have not been taken, in the order in which they were put into the queue. -/
def waiting (history : List (Handling σ ν)) : List (Ticket σ ν) :=
  (puts history).filter fun ticket => ticket.number ∉ (takes history).map Ticket.number

variable {history : List (Handling σ ν)} {ticket : Ticket σ ν}

theorem puts_put : puts (history ++ [put ticket]) = puts history ++ [ticket] :=
  List.filterMap_append

theorem puts_take : puts (history ++ [take ticket]) = puts history := by
  rw [puts, List.filterMap_append]
  exact List.append_nil _

theorem takes_put : takes (history ++ [put ticket]) = takes history := by
  rw [takes, List.filterMap_append]
  exact List.append_nil _

theorem takes_take : takes (history ++ [take ticket]) = takes history ++ [ticket] :=
  List.filterMap_append

end Handling

open Handling

namespace Frontier

/-- What holds of a queue after a history. Of the line that was waiting when a ticket was taken, it
was the first of the cheapest and the only greatest. -/
structure Serves (history : List (Handling σ ν)) (f : Frontier σ ν) : Prop where
  counted : f.tally.queued = f.nextNumber
  numbered : (puts history).map Ticket.number = List.range f.nextNumber
  kept : (puts history).Perm (takes history ++ f.queue)
  served : ∀ before ticket, before ++ [.take ticket] <+: history →
    ticket.Foremost (waiting before) ∧ ∀ other, other.Greatest (waiting before) ↔ other = ticket

variable {f g : Frontier σ ν} {history : List (Handling σ ν)} {ticket : Ticket σ ν}
  {rest : List (Ticket σ ν)}

theorem serves_empty : ({} : Frontier σ ν).Serves [] where
  counted := rfl
  numbered := rfl
  kept := .refl _
  served before ticket reached := by simp at reached

namespace Serves

variable (serves : f.Serves history)

include serves

theorem increasing :
    (puts history).Pairwise fun first second => first.number < second.number := by
  have range : ((puts history).map Ticket.number).Pairwise (· < ·) :=
    serves.numbered ▸ List.pairwise_lt_range
  exact List.pairwise_map.mp range

theorem fresh : f.Fresh := by
  intro ticket member
  have present : ticket ∈ puts history :=
    serves.kept.mem_iff.mpr (List.mem_append_right (takes history) member)
  have listed := List.mem_map_of_mem (f := Ticket.number) present
  rw [serves.numbered] at listed
  exact List.mem_range.mp listed

theorem nodup_numbers :
    ((takes history).map Ticket.number ++ f.queue.map Ticket.number).Nodup := by
  rw [← List.map_append, ← (serves.kept.map Ticket.number).nodup_iff, serves.numbered]
  exact List.nodup_range

/-- The tickets that have not been taken are those in the queue. -/
theorem waiting_perm : (waiting history).Perm f.queue := by
  -- a ticket in the queue has the number of none that was taken
  have apart := List.disjoint_of_nodup_append serves.nodup_numbers
  have gone : (takes history).filter
      (fun ticket => ticket.number ∉ (takes history).map Ticket.number) = [] := by
    refine List.filter_eq_nil_iff.mpr ?_
    intro ticket member
    simpa using ⟨ticket, member, rfl⟩
  have left : f.queue.filter
      (fun ticket => ticket.number ∉ (takes history).map Ticket.number) = f.queue := by
    refine List.filter_eq_self.mpr ?_
    intro ticket member
    simpa only [decide_eq_true_eq] using fun taken => apart taken (List.mem_map_of_mem member)
  have split := serves.kept.filter
    fun ticket => ticket.number ∉ (takes history).map Ticket.number
  rw [List.filter_append, gone, left] at split
  exact split

/-- Only the queue and the numbers matter. -/
theorem of_same (queue : g.queue = f.queue)
    (nextNumber : g.nextNumber = f.nextNumber) (queued : g.tally.queued = f.tally.queued) :
    g.Serves history := by
  obtain ⟨counted, numbered, kept, served⟩ := serves
  exact ⟨by rw [queued, nextNumber, counted], nextNumber ▸ numbered, queue ▸ kept, served⟩

/-- Taking a greatest ticket, whatever becomes of the order of the others. -/
theorem take (greatest : ticket.Greatest f.queue) (left : f.queue.Perm (ticket :: rest)) :
    ({ f with queue := rest } : Frontier σ ν).Serves (history ++ [.take ticket]) := by
  have increasing : (waiting history).Pairwise fun first second => first.number < second.number :=
    serves.increasing.filter _
  have chosen : ticket.Greatest (waiting history) := greatest.of_perm serves.waiting_perm.symm
  refine ⟨serves.counted, ?numbered, ?kept, ?served⟩
  case numbered =>
    rw [puts_take]
    exact serves.numbered
  case kept =>
    rw [puts_take, takes_take, List.append_assoc, List.singleton_append]
    exact serves.kept.trans (left.append_left _)
  case served =>
    -- what was taken before was taken from a line that this taking does not change
    intro before other reached
    obtain now | earlier := List.prefix_concat_iff.mp reached
    · obtain ⟨rfl, taken⟩ := List.append_singleton_inj.mp now
      obtain rfl := Handling.take.inj taken
      refine ⟨chosen.foremost increasing, fun another => ⟨fun greatest' => ?_, ?_⟩⟩
      · exact greatest'.unique increasing chosen
      · rintro rfl
        exact chosen
    · exact serves.served before other earlier

/-- Giving the next number to a tail, whatever tail it is. -/
theorem put (t : Tail σ ν) (tally : Tally) (queued : tally.queued = f.tally.queued + 1)
    (events : Array Event) :
    Serves (history ++ [.put ⟨f.nextNumber, t⟩])
      ⟨Ticket.insert ⟨f.nextNumber, t⟩ f.queue, f.nextNumber + 1, tally, events⟩ := by
  refine ⟨?counted, ?numbered, ?kept, ?served⟩
  case counted => rw [queued, serves.counted]
  case numbered =>
    rw [puts_put, List.map_append, serves.numbered]
    exact List.range_succ.symm
  case kept =>
    rw [puts_put, takes_put]
    calc List.Perm (puts history ++ [_]) (⟨f.nextNumber, t⟩ :: puts history) :=
        List.perm_append_singleton _ _
      List.Perm _ (⟨f.nextNumber, t⟩ :: (takes history ++ f.queue)) := serves.kept.cons _
      List.Perm _ (takes history ++ ⟨f.nextNumber, t⟩ :: f.queue) := List.perm_middle.symm
      List.Perm _ _ := (Ticket.insert_perm _ _).symm.append_left _
  case served =>
    intro before ticket reached
    obtain now | earlier := List.prefix_concat_iff.mp reached
    · cases (List.append_singleton_inj.mp now).2
    · exact serves.served before ticket earlier

end Serves

/-- The queue of a search is kept in order besides, so that the first ticket is the greatest. -/
structure Orderly (history : List (Handling σ ν)) (f : Frontier σ ν) : Prop
    extends f.Serves history where
  ordered : f.queue.Pairwise Ticket.Precedes

theorem orderly_empty : ({} : Frontier σ ν).Orderly [] := ⟨serves_empty, .nil⟩

theorem Orderly.of_same (orderly : f.Orderly history) (queue : g.queue = f.queue)
    (nextNumber : g.nextNumber = f.nextNumber) (queued : g.tally.queued = f.tally.queued) :
    g.Orderly history :=
  ⟨orderly.toServes.of_same queue nextNumber queued, queue ▸ orderly.ordered⟩

variable [BEq σ] [BEq ν] {l : Lattice σ ν} {p : Pattern σ ν}

/-- What is done when a tail is offered: it gets the next ticket, unless no path with it
matches. -/
def admission (p : Pattern σ ν) (f : Frontier σ ν) (t : Tail σ ν) : List (Handling σ ν) :=
  if p.admits t.nodes then [.put ⟨f.nextNumber, t⟩] else []

def admissions (p : Pattern σ ν) (f : Frontier σ ν) : List (Tail σ ν) → List (Handling σ ν)
  | [] => []
  | t :: ts => f.admission p t ++ (f.enqueue p t).admissions p ts

theorem Serves.enqueue (serves : f.Serves history) (p : Pattern σ ν) (t : Tail σ ν) :
    (f.enqueue p t).Serves (history ++ f.admission p t) := by
  unfold Frontier.enqueue admission
  split
  next => exact serves.put t _ rfl _
  next =>
    rw [List.append_nil]
    exact serves.of_same rfl rfl rfl

theorem Orderly.enqueue (orderly : f.Orderly history) (p : Pattern σ ν) (t : Tail σ ν) :
    (f.enqueue p t).Orderly (history ++ f.admission p t) := by
  refine ⟨orderly.toServes.enqueue p t, ?_⟩
  unfold Frontier.enqueue
  split
  next =>
    exact Ticket.ordered_insert orderly.ordered fun b member =>
      Nat.ne_of_gt (orderly.fresh b member)
  next => exact orderly.ordered

theorem Orderly.enqueueAll (orderly : f.Orderly history) (p : Pattern σ ν)
    (ts : List (Tail σ ν)) : (f.enqueueAll p ts).Orderly (history ++ f.admissions p ts) := by
  induction ts generalizing f history with
  | nil =>
    rw [admissions, List.append_nil]
    exact orderly
  | cons t ts ih =>
    rw [admissions, ← List.append_assoc]
    exact ih (orderly.enqueue p t)

/-- Any tails offered and any greatest tickets taken, one after the other and in any order, with
what has been done before them. -/
inductive Works (history : List (Handling σ ν)) (f : Frontier σ ν) :
    List (Handling σ ν) → Frontier σ ν → Prop where
  | rest : Works history f history f
  | offer (p : Pattern σ ν) (t : Tail σ ν) : Works history f whole now →
      Works history f (whole ++ now.admission p t) (now.enqueue p t)
  | take {ticket : Ticket σ ν} {rest : List (Ticket σ ν)} : Works history f whole now →
      ticket.Greatest now.queue → now.queue.Perm (ticket :: rest) →
      Works history f (whole ++ [.take ticket]) { now with queue := rest }

theorem Works.serves {whole : List (Handling σ ν)} (works : Works history f whole g)
    (serves : f.Serves history) : g.Serves whole := by
  induction works with
  | rest => exact serves
  | offer p t _ ih => exact ih.enqueue p t
  | take _ greatest left ih => exact ih.take greatest left

set_option linter.unusedVariables false in
/-- What the search for the next path does with the queue. -/
def searching (l : Lattice σ ν) (p : Pattern σ ν) (f : Frontier σ ν) : List (Handling σ ν) :=
  match waits : f.queue with
  | [] => []
  | ticket :: queue =>
    match expanded : l.expand p ticket.tail with
    | .error _ => [.take ticket]
    | .ok x =>
      let taken : Frontier σ ν := { f with queue := queue }
      .take ticket :: taken.admissions p x.tails ++
        match x.nodes with
        | some _ => []
        | none => ((taken.enqueueAll p x.tails).discard ticket.tail).searching l p
termination_by f.weight l.base
decreasing_by exact weight_enqueueAll_lt waits expanded

theorem searching_of_nil (empty : f.queue = []) : f.searching l p = [] := by
  rw [searching]
  split
  next => rfl
  next waits =>
    rw [empty] at waits
    contradiction

theorem searching_of_cons {x : Expansion σ ν} (waits : f.queue = ticket :: rest)
    (expanded : l.expand p ticket.tail = .ok x) : f.searching l p =
      .take ticket :: ({ f with queue := rest } : Frontier σ ν).admissions p x.tails ++
        match x.nodes with
        | some _ => []
        | none =>
          (({ f with queue := rest }.enqueueAll p x.tails).discard ticket.tail).searching l p := by
  rw [searching]
  split
  next empty =>
    rw [empty] at waits
    contradiction
  next waits' =>
    obtain ⟨rfl, rfl⟩ := List.cons.inj (waits.symm.trans waits')
    split
    next failed =>
      rw [expanded] at failed
      contradiction
    next expanded' =>
      obtain rfl := Except.ok.inj (expanded.symm.trans expanded')
      rfl

/-- Taking the first ticket, and offering what comes out of it. -/
theorem Orderly.pop (orderly : f.Orderly history) (waits : f.queue = ticket :: rest)
    (p : Pattern σ ν) (ts : List (Tail σ ν)) :
    ({ f with queue := rest }.enqueueAll p ts).Orderly
      (history ++ Handling.take ticket ::
        ({ f with queue := rest } : Frontier σ ν).admissions p ts) := by
  have sorted : (ticket :: rest).Pairwise Ticket.Precedes := waits ▸ orderly.ordered
  have first : ticket.Greatest f.queue := waits ▸ Ticket.greatest_head sorted
  have taken : ({ f with queue := rest } : Frontier σ ν).Orderly _ :=
    ⟨orderly.toServes.take first (.of_eq waits), sorted.of_cons⟩
  rw [List.append_cons]
  exact taken.enqueueAll p ts

theorem Orderly.next {later : Option (Path σ ν)} (orderly : f.Orderly history)
    (searched : f.next l p = (.ok later, g)) : g.Orderly (history ++ f.searching l p) := by
  revert history
  fun_induction Frontier.next l p f with
  | case1 f empty =>
    intro history orderly
    obtain ⟨rfl, rfl⟩ : none = later ∧ f = g := by simpa using searched
    rw [searching_of_nil empty, List.append_nil]
    exact orderly
  | case2 => simp at searched
  | case3 f number t queue waiting x expanded onward nodes complete =>
    intro history orderly
    obtain ⟨rfl, rfl⟩ : some ⟨nodes, t.wholeCost⟩ = later ∧ onward = g := by simpa using searched
    rw [searching_of_cons waiting expanded, complete, List.append_nil]
    exact orderly.pop waiting p x.tails
  | case4 f number t queue waiting x expanded onward incomplete ih =>
    intro history orderly
    -- the search goes on, with a history that is longer by this ticket and what came out of it
    have discarded : (onward.discard t).Orderly _ :=
      (orderly.pop waiting p x.tails).of_same rfl rfl rfl
    rw [searching_of_cons waiting expanded, incomplete, ← List.append_assoc]
    exact ih searched discarded

end Frontier

namespace Enumeration

variable [BEq σ] [BEq ν] {l : Lattice σ ν}

/-- What is done with the queue when an enumeration starts. -/
def opening (l : Lattice σ ν) (finish : Node σ ν) (p : Pattern σ ν) : List (Handling σ ν) :=
  match finish.origin with
  | none => []
  | some origin =>
    match l.predecessors origin.step finish.edgeCosts with
    | .error _ => []
    | .ok preds =>
      let seeds := preds.filterMap (Tail.grown? [finish] finish.entry.cost)
      ({} : Frontier σ ν).admissions p seeds ++ (Frontier.enqueueAll p {} seeds).searching l p

/-- What is done with the queue when an enumeration is advanced. -/
def handlings (e : Enumeration σ ν) : List (Handling σ ν) :=
  match e.ahead, e.scope with
  | some _, some scope => e.frontier.searching scope.lattice e.pattern
  | _, _ => []

/-- All that has been done with the queue of an enumeration: of nothing, or of the paths of a
lattice, and advanced any number of times since. -/
inductive Recorded (l : Lattice σ ν) : List (Handling σ ν) → Enumeration σ ν → Prop where
  | nothing : Recorded l [] {}
  | start : Enumeration.start identity l finish p = .ok e → Recorded l (opening l finish p) e
  | advance : Recorded l history e → Recorded l (history ++ e.handlings) e.advance.2

variable {finish : Node σ ν} {p : Pattern σ ν} {e : Enumeration σ ν} {seeds : List (Tail σ ν)}
  {paths : List (Path σ ν)} {identity : Nat} {history whole : List (Handling σ ν)}
  {f : Frontier σ ν}

theorem Recorded.reaches (recorded : Recorded l history e) :
    ∃ first paths, New l first ∧ first.Reaches paths e := by
  induction recorded with
  | nothing => exact ⟨{}, [], .inl rfl, .stay⟩
  | start accepted => exact ⟨_, [], .inr ⟨_, _, _, accepted⟩, .stay⟩
  | @advance _ e _ ih =>
    obtain ⟨first, paths, new, reaches⟩ := ih
    rcases advanced : e.advance with ⟨cause | path, after⟩
    · exact ⟨first, _, new, .fail reaches advanced⟩
    · exact ⟨first, _, new, .reach reaches advanced⟩

theorem orderly_of_start (accepted : start identity l finish p = .ok e) :
    e.frontier.Orderly (opening l finish p) := by
  obtain ⟨origin, preds, later, g, follows, known, searched, rfl⟩ := start_ok accepted
  simp only [opening, follows, known]
  have seeded := Frontier.orderly_empty.enqueueAll p
    (preds.filterMap (Tail.grown? [finish] finish.entry.cost))
  exact seeded.next searched

theorem orderly_of_ended (ended : e.ahead = none) (orderly : e.frontier.Orderly history) :
    e.advance.2.frontier.Orderly (history ++ e.handlings) := by
  simpa only [advance_of_none ended, handlings, ended, List.append_nil] using orderly

theorem Underway.orderly (wf : l.WellFormed) (underway : Underway l finish p seeds paths e)
    (begins : Begins l finish p seeds) (orderly : e.frontier.Orderly history) :
    e.advance.2.frontier.Orderly (history ++ e.handlings) := by
  obtain ⟨later, g, _, searched, _⟩ := underway.search wf begins
  obtain ⟨identity, within⟩ := underway.scope
  have next : e.frontier.next l e.pattern = (.ok later, g) := by
    simpa only [Enumeration.search, within] using searched
  cases ahead : e.ahead with
  | none => exact orderly_of_ended ahead orderly
  | some path =>
    simp only [Enumeration.advance, handlings, ahead, searched, within]
    exact (orderly.next next).of_same rfl rfl rfl

theorem Recorded.orderly (wf : l.WellFormed) (recorded : Recorded l history e) :
    e.frontier.Orderly history := by
  induction recorded with
  | nothing => exact Frontier.orderly_empty
  | start accepted => exact orderly_of_start accepted
  | advance recorded ih =>
    obtain ⟨first, paths, new, reaches⟩ := recorded.reaches
    obtain rfl | ⟨_, _, _, accepted⟩ := new
    · exact orderly_of_ended (reaches.ahead_none rfl) ih
    · obtain ⟨seeds, begins, begun⟩ := underway_of_start accepted
      exact (reaches.underway wf begins begun).orderly wf begins ih

/-- After any run of advances, and whatever is offered and taken after it: the tickets are numbered
from zero on, in the order in which they were put into the queue, and no two of them compare
equal. A ticket that was taken was the first of the cheapest in the line of those that waited, and
the only one of them that none compared greater than. None is taken twice, and those that have
not been taken are in the queue. -/
theorem queue_in_order [Sequence σ] (reachable : l.Reachable) (recorded : Recorded l history e)
    (works : e.frontier.Works history whole f) :
    (puts whole).map Ticket.number = List.range f.tally.queued ∧
    ((puts whole).Pairwise fun first second =>
      first.number < second.number ∧ first.order second ≠ .eq) ∧
    (∀ before ticket, before ++ [.take ticket] <+: whole →
      ticket.Foremost (waiting before) ∧
      ∀ other, other.Greatest (waiting before) ↔ other = ticket) ∧
    (takes whole).Nodup ∧
    (puts whole).Perm (takes whole ++ f.queue) := by
  have serves := works.serves (recorded.orderly reachable.wellFormed).toServes
  refine ⟨serves.counted ▸ serves.numbered, ?compared, serves.served, ?once, serves.kept⟩
  case compared =>
    refine serves.increasing.imp ?_
    intro first second older
    exact ⟨older, fun same => Nat.ne_of_lt older (Ticket.number_of_order_eq same)⟩
  case once => exact .of_map Ticket.number (List.nodup_append.mp serves.nodup_numbers).1

end Enumeration

namespace Tied

/-- Both letters have two readings, and all readings cost the same. -/
def vocabulary : Vocabulary Empty Nat where
  entries
    | .text "a" => [⟨some (.text "a"), some 0, 1⟩, ⟨some (.text "a"), some 1, 1⟩]
    | .text "b" => [⟨some (.text "b"), some 2, 1⟩, ⟨some (.text "b"), some 3, 1⟩]
    | _ => []
  connection _ _ := some 0

def lattice : Lattice Empty Nat := .ofTexts vocabulary ["a", "b"]

/-- The tickets of the four paths of "ab" cost the same. When one path has been reached, the two
that are left are those that were put into the queue last, and the earlier one of them is next. -/
theorem queue_in_order_tied : lattice.Reachable ∧ ∃ history e ticket f,
    Enumeration.Recorded lattice history e ∧
    e.frontier.Works history (history ++ [.take ticket]) f ∧
    (puts history).map (fun ticket => (ticket.number, ticket.tail.wholeCost)) =
      [(0, 2), (1, 2), (2, 2), (3, 2)] ∧
    (takes history).map Ticket.number = [0, 1] ∧ ticket.number = 2 ∧
    ticket.Foremost (waiting history) ∧
    (∀ other, other.Greatest (waiting history) ↔ other = ticket) ∧
    (puts (history ++ [.take ticket])).Perm (takes (history ++ [.take ticket]) ++ f.queue) := by
  have reachable : lattice.Reachable := .ofTexts _ _
  have reported : (fun e =>
      ((puts (Enumeration.opening lattice lattice.ending .empty ++ e.handlings)).map
        (fun ticket => (ticket.number, ticket.tail.wholeCost)),
      (takes (Enumeration.opening lattice lattice.ending .empty ++ e.handlings)).map Ticket.number,
      e.advance.2.frontier.queue.map Ticket.number)) <$>
        Enumeration.start 0 lattice lattice.ending .empty =
      .ok ([(0, 2), (1, 2), (2, 2), (3, 2)], [0, 1], [2, 3]) := by
    decide +kernel
  obtain ⟨first, accepted, known⟩ := map_ok_iff.mp reported
  simp only [Prod.mk.injEq] at known
  obtain ⟨queued, taken, numbers⟩ := known
  obtain ⟨ticket, queue, waits, number, _⟩ := List.map_eq_cons_iff.mp numbers
  have recorded : Enumeration.Recorded lattice _ first.advance.2 := .advance (.start accepted)
  have sorted : (ticket :: queue).Pairwise Ticket.Precedes :=
    waits ▸ (recorded.orderly reachable.wellFormed).ordered
  have greatest : ticket.Greatest first.advance.2.frontier.queue :=
    waits ▸ Ticket.greatest_head sorted
  obtain ⟨_, _, served, _, kept⟩ :=
    Enumeration.queue_in_order reachable recorded (.take .rest greatest (.of_eq waits))
  obtain ⟨foremost, unique⟩ := served _ ticket (List.prefix_refl _)
  exact ⟨reachable, _, _, ticket, _, recorded, .take .rest greatest (.of_eq waits), queued, taken,
    number, foremost, unique, kept⟩

end Tied

end Segmentation
