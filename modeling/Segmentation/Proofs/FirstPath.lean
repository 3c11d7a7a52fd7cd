import Segmentation.Proofs.Advancing
import Segmentation.Proofs.CheapestFirst
import Segmentation.Proofs.Settling

/-! The first path of a settled lattice, at any costs.
From the start the costs to a node are compared in the order of the nodes before it, from the
end the tails in the order in which they were queued. Both orders are the same, so that the
search begins with the way that the path costs have been made of. -/
namespace Segmentation

variable {σ ν : Type}

namespace Tail

variable {t : Tail σ ν} {front back us : List (Tail σ ν)}

/-- A tail that comes first stays so, as long as nothing cheaper is queued. -/
theorem enterAll_cons_of_le (least : ∀ u ∈ back, t.wholeCost ≤ u.wholeCost) :
    enterAll back (t :: us) = t :: enterAll back us := by
  induction back generalizing us with
  | nil => rfl
  | cons u back ih =>
    obtain ⟨above, others⟩ := List.forall_mem_cons.mp least
    have second : u.enter (t :: us) = t :: u.enter us :=
      if_neg (Cost.lt_iff.not.mpr (Int.not_lt.mpr above))
    rw [enterAll, List.foldl_cons, second, ← enterAll, ih others, enterAll, enterAll,
      List.foldl_cons]

/-- The first of the cheapest tails is the first in the queue. -/
theorem head?_enterAll (dearer : ∀ u ∈ front, t.wholeCost < u.wholeCost)
    (least : ∀ u ∈ back, t.wholeCost ≤ u.wholeCost) :
    (enterAll (front ++ t :: back) []).head? = some t := by
  have before : ∀ u ∈ enterAll front [], t.wholeCost < u.wholeCost := by
    intro u member
    rw [(enterAll_perm front []).mem_iff, List.append_nil] at member
    exact dearer u member
  have split : enterAll (front ++ t :: back) [] = enterAll back (t.enter (enterAll front [])) := by
    simp only [enterAll, List.foldl_append, List.foldl_cons]
  rw [split, enter_of_lt before, enterAll_cons_of_le least]
  rfl

end Tail

/-- Where each node has one predecessor, there is one chain to a node. -/
theorem Chain.unique {joins : Node σ ν → Cost → Node σ ν → Prop} {nodes nodes' : List (Node σ ν)}
    {costs costs' : List Cost} {n : Node σ ν}
    (single : ∀ m edge m' edge' n, joins m edge n → joins m' edge' n → m = m' ∧ edge = edge')
    (first : ∀ m edge, ¬joins m edge (.start [])) (chain : Chain joins nodes costs n)
    (chain' : Chain joins nodes' costs' n) : nodes = nodes' ∧ costs = costs' := by
  induction chain generalizing nodes' costs' with
  | start =>
    obtain ⟨rfl, rfl, _⟩ | ⟨_, _, _, _, _, joined, _⟩ := chain'.invert
    · exact ⟨rfl, rfl⟩
    · exact absurd joined (first _ _)
  | next _ joined ih =>
    obtain ⟨_, _, rfl⟩ | ⟨_, _, _, _, further, joined', rfl, rfl⟩ := chain'.invert
    · exact absurd joined (first _ _)
    · obtain ⟨rfl, rfl⟩ := single _ _ _ _ _ joined joined'
      obtain ⟨rfl, rfl⟩ := ih further
      exact ⟨rfl, rfl⟩

namespace Step.Best

variable {before : Step σ ν} {m n : Node σ ν} {edge : Cost}

theorem firstLeast (best : before.Best n m edge) :
    FirstLeast (before.arrivals n.edgeCosts) (leastIndex (before.arrivals n.edgeCosts)).1
      (m.pathCost + edge) := by
  have get : (before.arrivals n.edgeCosts)[(leastIndex (before.arrivals n.edgeCosts)).1]? =
      some (m.pathCost + edge) := by
    have found := congrArg (Option.map fun pred => pred.1.pathCost + pred.2) best.get
    rwa [← List.getElem?_map, ← arrivals_eq_map] at found
  have first := firstLeast_leastIndex (List.ne_nil_of_mem (List.mem_of_getElem? get))
  rwa [Option.some.inj (first.get.symm.trans get)] at first

/-- Before the best of all nodes that are followed come dearer ones only. -/
theorem split (best : before.Best n m edge) :
    ∃ front back, before.nodes.zip n.edgeCosts = front ++ (m, edge) :: back ∧
      ∀ pred ∈ front, m.pathCost + edge < pred.1.pathCost + pred.2 := by
  obtain ⟨bound, same⟩ := List.getElem?_eq_some_iff.mp best.get
  have parts := List.take_append_drop (leastIndex (before.arrivals n.edgeCosts)).1
    (before.nodes.zip n.edgeCosts)
  rw [← List.getElem_cons_drop bound, same] at parts
  refine ⟨_, _, parts.symm, ?_⟩
  intro pred member
  obtain ⟨j, found⟩ := List.mem_iff_getElem?.mp member
  rw [List.getElem?_take] at found
  split at found
  next earlier =>
    refine best.firstLeast.first j _ ?_ earlier
    rw [arrivals_eq_map, List.getElem?_map, found]
    rfl
  next => contradiction

/-- Of the tails that a search for a last node begins with, that of the best node comes first,
and it has the path cost of the last node. -/
theorem head?_seeds (best : before.Best n m edge) (free : n.entry.cost = 0)
    (reached : n.pathCost ≠ .infinite) :
    ∃ t, Tail.grown? [n] n.entry.cost (m, edge) = some t ∧ t.wholeCost = n.pathCost ∧
      (Tail.enterAll ((before.nodes.zip n.edgeCosts).filterMap
        (Tail.grown? [n] n.entry.cost)) []).head? = some t := by
  have whole (pred : Node σ ν × Cost) :
      n.entry.cost + pred.2 + pred.1.pathCost = pred.1.pathCost + pred.2 := by
    rw [free, Cost.zero_add, Cost.add_comm]
  have costs {pred : Node σ ν × Cost} {u : Tail σ ν}
      (known : Tail.grown? [n] n.entry.cost pred = some u) :
      u.wholeCost = pred.1.pathCost + pred.2 := by
    obtain ⟨_, rfl⟩ := Tail.grown?_eq_some_iff.mp known
    exact whole pred
  have same : n.pathCost = m.pathCost + edge := by rw [best.cost, free, Cost.add_zero]
  rw [same] at reached ⊢
  obtain ⟨t, grown⟩ : ∃ t, Tail.grown? [n] n.entry.cost (m, edge) = some t :=
    ⟨_, Tail.grown?_eq_some_iff.mpr ⟨(whole (m, edge)).trans_ne reached, rfl⟩⟩
  obtain ⟨front, back, parts, dearer⟩ := best.split
  refine ⟨t, grown, costs grown, ?_⟩
  rw [parts, List.filterMap_append, List.filterMap_cons_some grown]
  apply Tail.head?_enterAll
  · intro u member
    obtain ⟨pred, inside, known⟩ := List.mem_filterMap.mp member
    rw [costs grown, costs known]
    exact dearer pred inside
  · intro u member
    obtain ⟨pred, inside, known⟩ := List.mem_filterMap.mp member
    rw [costs grown, costs known]
    refine best.least pred ?_
    rw [parts]
    exact List.mem_append_right _ (List.mem_cons_of_mem _ inside)

end Step.Best

namespace Lattice

variable {l : Lattice σ ν} {step place : Nat} {before : Step σ ν} {m n : Node σ ν} {edge : Cost}

/-- The first node is the best one that the second follows: the first of those over which it
is reached at the least cost. -/
def JoinsFirst (l : Lattice σ ν) (m : Node σ ν) (edge : Cost) (n : Node σ ν) : Prop :=
  ∃ origin before, n.origin = some origin ∧ l.steps[origin.step]? = some before ∧
    (before.nodes.zip n.edgeCosts)[origin.best]? = some (m, edge) ∧
    FirstLeast (before.arrivals n.edgeCosts) origin.best (m.pathCost + edge)

theorem JoinsFirst.joinsBest (first : l.JoinsFirst m edge n) : l.JoinsBest m edge n := by
  obtain ⟨origin, before, follows, present, get, _⟩ := first
  exact ⟨origin, before.nodes, follows, nodesAt_of_get present, get⟩

theorem Relaxed.joinsFirst (relaxed : l.Relaxed step before n) (best : before.Best n m edge) :
    l.JoinsFirst m edge n :=
  ⟨_, before, relaxed.origin, relaxed.present, best.get, best.firstLeast⟩

theorem JoinsBest.unique {m' : Node σ ν} {edge' : Cost} (best : l.JoinsBest m edge n)
    (best' : l.JoinsBest m' edge' n) : m = m' ∧ edge = edge' := by
  obtain ⟨origin, nodes, follows, there, get⟩ := best
  obtain ⟨origin', nodes', follows', there', get'⟩ := best'
  obtain rfl := Option.some.inj (follows.symm.trans follows')
  obtain rfl := Except.ok.inj (there.symm.trans there')
  exact Prod.mk.inj (Option.some.inj (get.symm.trans get'))

variable [BEq σ] [BEq ν]

/-- Without a pattern a tail is completed along the best predecessors, to the very start. -/
theorem WellFormed.retrace_best (wf : l.WellFormed) (present : l.steps[place]? = some before)
    (member : n ∈ before.nodes) (rest : List (Node σ ν)) (cost : Cost) :
    ∃ x nodes costs, l.retrace .empty place n rest cost = .ok x ∧
      x.nodes = some (nodes ++ rest) ∧ Chain l.JoinsFirst nodes costs n := by
  refine wf.node_induction (motive := fun place n => ∀ rest cost,
    ∃ x nodes costs, l.retrace .empty place n rest cost = .ok x ∧
      x.nodes = some (nodes ++ rest) ∧ Chain l.JoinsFirst nodes costs n)
    ?start ?follow present member rest cost
  case start =>
    intro rest cost
    exact ⟨_, _, _, retrace_start l .empty 0 rest cost, rfl, .start⟩
  case follow =>
    intro place n step before earlier relaxed onward rest cost
    obtain ⟨m, edge, best⟩ := relaxed.best (wf.filled_of_get relaxed.present)
    obtain ⟨x, nodes, costs, retraced, complete, chain⟩ :=
      onward m best.inside (n :: rest) (cost + edge + m.entry.cost)
    rw [relaxed.retrace earlier best, Pattern.empty_admits, if_pos rfl, retraced]
    refine ⟨_, nodes ++ [n], _, rfl, ?_, chain.next (relaxed.joinsFirst best)⟩
    rw [List.append_assoc]
    exact complete

theorem WellFormed.expand_best (wf : l.WellFormed) (relaxed : l.Relaxed step before n)
    (best : before.Best n m edge) {t : Tail σ ν} {cost : Cost}
    (grown : Tail.grown? [n] cost (m, edge) = some t) :
    ∃ x nodes costs, l.expand .empty t = .ok x ∧ x.nodes = some nodes ∧
      Chain l.JoinsFirst nodes costs n := by
  have place := Tail.place_of_grown? relaxed.origin grown
  obtain ⟨_, rfl⟩ := Tail.grown?_eq_some_iff.mp grown
  obtain ⟨x, nodes, costs, retraced, complete, chain⟩ :=
    wf.retrace_best relaxed.present best.inside [n] (cost + edge + m.entry.cost)
  refine ⟨x, _, _, ?_, complete, chain.next (relaxed.joinsFirst best)⟩
  rw [expand, place]
  exact retraced

end Lattice

namespace Enumeration

variable [BEq σ] [BEq ν] {l : Lattice σ ν} {p : Pattern σ ν} {step : Nat} {before : Step σ ν}
  {finish : Node σ ν} {identity : Nat} {e : Enumeration σ ν}

/-- The path ahead of a new enumeration is the first that its tails lead to. -/
theorem ahead_of_start (wf : l.WellFormed) (relaxed : l.Relaxed step before finish)
    (accepted : start identity l finish p = .ok e) :
    e.ahead = (l.outcomes p (Tail.enterAll (((before.nodes.zip finish.edgeCosts).filterMap
      (Tail.grown? [finish] finish.entry.cost)).filter fun t => p.admits t.nodes) [])).head? := by
  have known := Lattice.predecessors_of_get relaxed.present relaxed.edges
  obtain ⟨_, _, later, g, follows, known', searched, rfl⟩ := start_ok accepted
  obtain rfl := Option.some.inj (relaxed.origin.symm.trans follows)
  obtain rfl := Except.ok.inj (known.symm.trans known')
  have sound := (Frontier.sound_empty l).enqueueAll (p := p) (Tail.standing_seeds follows known)
  have tails := (Frontier.enqueueAll_spec (p := p) ((before.nodes.zip finish.edgeCosts).filterMap
    (Tail.grown? [finish] finish.entry.cost)) (Frontier.sound_empty l).fresh).2
  change later = (l.outcomes p (Tail.enterAll _ (Frontier.tails {}))).head?
  rw [← tails]
  obtain ⟨_, searched', none⟩ | ⟨path, _, searched', _, more⟩ := sound.next_spec (p := p) wf
  · rw [none]
    cases searched.symm.trans searched'
    rfl
  · rw [more]
    cases searched.symm.trans searched'
    rfl

end Enumeration

namespace Lattice

variable [BEq σ] [BEq ν] {l : Lattice σ ν} {step : Nat} {before : Step σ ν} {eos : Node σ ν}
  {identity : Nat} {e : Enumeration σ ν}

theorem WellFormed.ahead_best (wf : l.WellFormed) (relaxed : l.Relaxed step before eos)
    (free : eos.entry.cost = 0) (reached : eos.pathCost ≠ .infinite)
    (accepted : Enumeration.start identity l eos .empty = .ok e) :
    ∃ path costs, e.ahead = some path ∧ path.cost = eos.pathCost ∧
      Chain l.JoinsFirst path.nodes costs eos := by
  obtain ⟨m, edge, best⟩ := relaxed.best (wf.filled_of_get relaxed.present)
  obtain ⟨t, grown, whole, first⟩ := best.head?_seeds free reached
  obtain ⟨ts, waiting⟩ := List.head?_eq_some_iff.mp first
  obtain ⟨x, nodes, costs, expanded, complete, chain⟩ := wf.expand_best relaxed best grown
  refine ⟨⟨nodes, t.wholeCost⟩, costs, ?_, whole, chain⟩
  rw [Enumeration.ahead_of_start wf relaxed accepted, Tail.filter_empty_admits, waiting,
    outcomes_cons expanded, complete]
  rfl

/-- A search without a pattern in a settled lattice has a path to begin with, whatever the
costs are. This is the path that one finds going back from the end over the best nodes, the
first ones of equal ones, and it has the cost of the end. -/
theorem first_path_best [Sequence σ] (reachable : l.Reachable)
    (settled : l.settle.result = .ok eos) (identity : Nat) :
    ∃ e path costs, Enumeration.start identity l.settle.lattice eos .empty = .ok e ∧
      e.hasNext = true ∧ e.peek = .ok path ∧ path.cost = eos.pathCost ∧
      Chain l.JoinsFirst path.nodes costs eos ∧
      ∀ nodes costs', Chain l.JoinsBest nodes costs' eos → nodes = path.nodes := by
  have wf := reachable.settle.wellFormed
  obtain ⟨relaxed, sentinel, reached⟩ := reachable.wellFormed.relaxed_settled settled
  have relaxed' : l.settle.lattice.Relaxed _ _ eos :=
    relaxed.grow (settle_steps l ▸ List.prefix_rfl)
  obtain ⟨e, accepted⟩ := Enumeration.start_accepts wf identity .empty relaxed'.origin
    (predecessors_of_get relaxed'.present relaxed'.edges)
  obtain ⟨path, costs, ahead, cost, chain⟩ :=
    wf.ahead_best relaxed' (by rw [sentinel]; rfl) reached accepted
  replace chain : Chain l.JoinsFirst path.nodes costs eos := by
    rw [settle_of_ok settled] at chain
    exact chain
  refine ⟨e, path, costs, accepted, ?_, ?_, cost, chain, ?_⟩
  · rw [Enumeration.hasNext, ahead]
    rfl
  · rw [Enumeration.peek, ahead]
  · intro nodes costs' best
    have single (m : Node σ ν) (edge : Cost) (m' : Node σ ν) (edge' : Cost) (n : Node σ ν)
        (joined : l.JoinsBest m edge n) (joined' : l.JoinsBest m' edge' n) :
        m = m' ∧ edge = edge' := joined.unique joined'
    have first (m : Node σ ν) (edge : Cost) : ¬l.JoinsBest m edge (.start []) :=
      fun joined => not_joins_start [] joined.joins
    exact (best.unique single first (chain.mono fun _ _ _ join => join.joinsBest)).1

end Lattice

/-- The two words lead equally far out of the range. The first path has the first of them,
at the cost of the end, though the other is cheaper when its costs are added up from the end. -/
theorem Sinking.first_path_best_tied : lattice.Reachable ∧
    lattice.settle.result = .ok lattice.ending ∧ lattice.ending.pathCost = .clamp (-2147483647) ∧
    ∃ e path costs, Enumeration.start 0 lattice.settle.lattice lattice.ending .empty = .ok e ∧
      e.hasNext = true ∧ e.peek = .ok path ∧ path.cost = lattice.ending.pathCost ∧
      Chain lattice.JoinsFirst path.nodes costs lattice.ending ∧
      ∀ nodes costs', Chain lattice.JoinsBest nodes costs' lattice.ending → nodes = path.nodes := by
  have reachable : lattice.Reachable := .ofTexts _ _
  have settled : lattice.settle.result = .ok lattice.ending := rfl
  exact ⟨reachable, settled, by decide, Lattice.first_path_best reachable settled 0⟩

end Segmentation
