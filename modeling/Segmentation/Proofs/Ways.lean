import Segmentation.Proofs.Chain
import Mathlib.Data.List.Nodup

/-! The chains to a node on which nothing is out of reach, as a list.
It has each of them once, for the nodes of a step are told apart by their numbers. -/
namespace Segmentation

variable {σ ν : Type}

namespace Lattice

/-- The first node is one that the second follows, and neither the edge nor the second
node is out of reach. -/
def Passes (l : Lattice σ ν) (m : Node σ ν) (edge : Cost) (n : Node σ ν) : Prop :=
  l.Joins m edge n ∧ edge ≠ .infinite ∧ n.entry.cost ≠ .infinite

end Lattice

namespace Chain

variable {l : Lattice σ ν} {n : Node σ ν} {nodes : List (Node σ ν)} {costs : List Cost}

theorem joins (chain : Chain l.Passes nodes costs n) : Chain l.Joins nodes costs n :=
  chain.mono fun _ _ _ passes => passes.1

theorem passes (chain : Chain l.Joins nodes costs n) (finite : .infinite ∉ costs) :
    Chain l.Passes nodes costs n := by
  induction chain with
  | start => exact .start
  | next _ joined ih =>
    simp only [List.mem_append, List.mem_cons, List.not_mem_nil, or_false, not_or] at finite
    obtain ⟨met, edge, entry⟩ := finite
    exact .next (ih met) ⟨joined, Ne.symm edge, Ne.symm entry⟩

theorem finite (chain : Chain l.Passes nodes costs n) : .infinite ∉ costs := by
  induction chain with
  | start => exact List.not_mem_nil
  | next _ passes ih =>
    obtain ⟨_, edge, entry⟩ := passes
    simp only [List.mem_append, List.mem_cons, List.not_mem_nil, or_false, not_or]
    exact ⟨ih, Ne.symm edge, Ne.symm entry⟩

end Chain

namespace Lattice

/-- The chains of such nodes to a node that follows a step before `place`. -/
def ways (l : Lattice σ ν) (place : Nat) (n : Node σ ν) : List (List (Node σ ν)) :=
  if n.entry.cost = .infinite then []
  else
    match n.origin with
    | none => [[n]]
    | some origin =>
      if origin.step < place then
        (((l.steps[origin.step]?.map Step.nodes).getD []).zip n.edgeCosts).flatMap fun pred =>
          if pred.2 = .infinite then [] else (l.ways origin.step pred.1).map (· ++ [n])
      else []
termination_by place

/-- Those among them that come from one node of the step. -/
def waysOver (l : Lattice σ ν) (step : Nat) (n : Node σ ν) (pred : Node σ ν × Cost) :
    List (List (Node σ ν)) :=
  if pred.2 = .infinite then [] else (l.ways step pred.1).map (· ++ [n])

variable {l : Lattice σ ν} {step place : Nat} {before : Step σ ν} {m n : Node σ ν}
  {edge edge' : Cost} {nodes : List (Node σ ν)} {costs costs' : List Cost} {origin : Origin}

theorem ways_start (l : Lattice σ ν) (place : Nat) :
    l.ways place (.start []) = [[.start []]] := by
  rw [ways, if_neg (show (Node.start [] : Node σ ν).entry.cost ≠ .infinite from
    Cost.zero_ne_infinite)]
  rfl

theorem ways_of_follows (follows : n.origin = some origin)
    (present : l.steps[origin.step]? = some before) (earlier : origin.step < place)
    (passable : n.entry.cost ≠ .infinite) :
    l.ways place n = (before.nodes.zip n.edgeCosts).flatMap (l.waysOver origin.step n) := by
  rw [ways, if_neg passable, follows]
  dsimp only
  rw [if_pos earlier, present]
  rfl

theorem ways_of_infinite (blocked : n.entry.cost = .infinite) : l.ways place n = [] := by
  rw [ways, if_pos blocked]

theorem mem_waysOver {pred : Node σ ν × Cost} : nodes ∈ l.waysOver step n pred ↔
    pred.2 ≠ .infinite ∧ ∃ earlier ∈ l.ways step pred.1, nodes = earlier ++ [n] := by
  unfold waysOver
  split
  next infinite => simp [infinite]
  next finite => simp [finite, eq_comm]

/-- A list of chains that is right for the nodes of a step is right for a node after it. -/
theorem mem_ways_of_follows (follows : n.origin = some origin)
    (present : l.steps[origin.step]? = some before) (earlier : origin.step < place)
    (right : ∀ m ∈ before.nodes, ∀ nodes, nodes ∈ l.ways origin.step m ↔
      ∃ costs, Chain l.Passes nodes costs m) :
    nodes ∈ l.ways place n ↔ ∃ costs, Chain l.Passes nodes costs n := by
  constructor
  · intro listed
    by_cases blocked : n.entry.cost = .infinite
    · rw [ways_of_infinite blocked] at listed
      contradiction
    rw [ways_of_follows follows present earlier blocked] at listed
    obtain ⟨⟨m, edge⟩, member, along⟩ := List.mem_flatMap.mp listed
    obtain ⟨finite, front, known, rfl⟩ := mem_waysOver.mp along
    obtain ⟨costs, chain⟩ := (right m (List.of_mem_zip member).1 front).mp known
    exact ⟨_, .next chain ⟨(joins_iff follows present).mpr member, finite, blocked⟩⟩
  · rintro ⟨_, chain⟩
    cases chain with
    | start => contradiction
    | @next front costs m edge _ chain passes =>
      obtain ⟨joined, finite, passable⟩ := passes
      have member := (joins_iff follows present).mp joined
      rw [ways_of_follows follows present earlier passable]
      refine List.mem_flatMap.mpr ⟨(m, edge), member, mem_waysOver.mpr ⟨finite, front, ?_, rfl⟩⟩
      exact (right m (List.of_mem_zip member).1 front).mpr ⟨costs, chain⟩

theorem WellFormed.mem_ways (wf : l.WellFormed) (present : l.steps[place]? = some before)
    (member : n ∈ before.nodes) (nodes : List (Node σ ν)) :
    nodes ∈ l.ways place n ↔ ∃ costs, Chain l.Passes nodes costs n := by
  refine wf.node_induction (motive := fun place n => ∀ nodes, nodes ∈ l.ways place n ↔
    ∃ costs, Chain l.Passes nodes costs n) ?start ?follow present member nodes
  case start =>
    intro nodes
    rw [ways_start, List.mem_singleton]
    constructor
    · rintro rfl
      exact ⟨[], .start⟩
    · rintro ⟨_, chain⟩
      exact (start_chain chain.joins).1
  case follow =>
    intro place n step before earlier relaxed right nodes
    exact mem_ways_of_follows relaxed.origin relaxed.present earlier right

theorem WellFormed.index_of_get (wf : l.WellFormed) (present : l.steps[step]? = some before)
    {edgeCosts : List Cost} {i : Nat} {pred : Node σ ν × Cost}
    (get : (before.nodes.zip edgeCosts)[i]? = some pred) : pred.1.index = i :=
  wf.numbered before (List.mem_of_getElem? present) i pred.1 (List.getElem?_zip_eq_some.mp get).1

/-- What a node follows are different nodes. -/
theorem WellFormed.pairwise_preds (wf : l.WellFormed) (present : l.steps[step]? = some before)
    (edgeCosts : List Cost) :
    (before.nodes.zip edgeCosts).Pairwise fun first second => first.1 ≠ second.1 := by
  rw [List.pairwise_iff_getElem]
  intro i j first second below same
  have index := wf.index_of_get present (List.getElem?_eq_getElem first)
  have index' := wf.index_of_get present (List.getElem?_eq_getElem second)
  rw [same] at index
  omega

theorem nodup_ways_of_follows (wf : l.WellFormed) (follows : n.origin = some origin)
    (present : l.steps[origin.step]? = some before) (earlier : origin.step < place)
    (once : ∀ m ∈ before.nodes, (l.ways origin.step m).Nodup) : (l.ways place n).Nodup := by
  by_cases blocked : n.entry.cost = .infinite
  · rw [ways_of_infinite blocked]
    exact List.nodup_nil
  rw [ways_of_follows follows present earlier blocked, List.nodup_flatMap]
  constructor
  · rintro ⟨m, edge⟩ member
    unfold waysOver
    split
    · exact List.nodup_nil
    · exact (once m (List.of_mem_zip member).1).map (List.append_left_injective [n])
  · refine (wf.pairwise_preds present n.edgeCosts).imp_of_mem ?_
    intro first second first_member second_member different nodes along along'
    obtain ⟨_, front, listed, rfl⟩ := mem_waysOver.mp along
    obtain ⟨_, front', listed', same⟩ := mem_waysOver.mp along'
    obtain rfl := List.append_cancel_right same
    obtain ⟨_, chain⟩ := (wf.mem_ways present (List.of_mem_zip first_member).1 front).mp listed
    obtain ⟨_, chain'⟩ := (wf.mem_ways present (List.of_mem_zip second_member).1 front).mp listed'
    exact different (Option.some.inj (chain.getLast?.symm.trans chain'.getLast?))

theorem WellFormed.nodup_ways (wf : l.WellFormed) (present : l.steps[place]? = some before)
    (member : n ∈ before.nodes) : (l.ways place n).Nodup := by
  refine wf.node_induction (motive := fun place n => (l.ways place n).Nodup)
    ?start ?follow present member
  case start =>
    rw [ways_start]
    exact List.nodup_singleton _
  case follow =>
    intro place n step before earlier relaxed once
    exact nodup_ways_of_follows wf relaxed.origin relaxed.present earlier once

/-- The nodes that one node follows are told apart by their numbers, and so are the edges. -/
theorem WellFormed.joins_unique (wf : l.WellFormed) {m' : Node σ ν} (joined : l.Joins m edge n)
    (joined' : l.Joins m' edge' n) (same : m.index = m'.index) : m = m' ∧ edge = edge' := by
  obtain ⟨origin, _, follows, there, member⟩ := joined
  obtain ⟨before, present, rfl⟩ := nodesAt_eq_ok_iff.mp there
  have member' := (joins_iff follows present).mp joined'
  obtain ⟨i, get⟩ := List.mem_iff_getElem?.mp member
  obtain ⟨j, get'⟩ := List.mem_iff_getElem?.mp member'
  have index := wf.index_of_get present get
  have index' := wf.index_of_get present get'
  obtain rfl : i = j := index.symm.trans (same.trans index')
  exact Prod.mk.inj (Option.some.inj (get.symm.trans get'))

/-- The nodes of a chain determine what is met on the way. -/
theorem WellFormed.costs_unique (wf : l.WellFormed) (chain : Chain l.Passes nodes costs n)
    (chain' : Chain l.Passes nodes costs' n) : costs = costs' := by
  induction chain generalizing costs' with
  | start =>
    exact (start_chain chain'.joins).2.symm
  | next chain passes ih =>
    obtain ⟨_, _, rfl⟩ | ⟨front, costs', m, edge, chain', passes', same, rfl⟩ := chain'.invert
    · exact absurd passes.1 (not_joins_start [])
    · obtain rfl := List.append_cancel_right same
      obtain rfl := Option.some.inj (chain.getLast?.symm.trans chain'.getLast?)
      rw [ih chain', (wf.joins_unique passes.1 passes'.1 rfl).2]

end Lattice

end Segmentation
