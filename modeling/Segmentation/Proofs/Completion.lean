import Segmentation.Proofs.Bounds
import Segmentation.Proofs.Retrace

/-! The chains that a tail can be completed to, and the cheapest of them.
As long as no complete chain leaves the range, the cost of a tail is exact, and a tail
is given up only if there is no way to its first node. -/
namespace Segmentation

variable {σ ν : Type}

/-- The nodes from one on up to the last, that one left out, and what is met on the way. -/
inductive Onward (joins : Node σ ν → Cost → Node σ ν → Prop) (finish : Node σ ν) :
    Node σ ν → List (Node σ ν) → List Cost → Prop where
  | done : Onward joins finish finish [] []
  | step : joins m edge n → Onward joins finish n rest costs →
      Onward joins finish m (n :: rest) (edge :: n.entry.cost :: costs)

variable {l : Lattice σ ν} {step place : Nat} {before : Step σ ν} {finish m n : Node σ ν}
  {edge cost : Cost} {nodes rest : List (Node σ ν)} {costs : List Cost} {origin : Origin}

theorem Chain.onward {joins : Node σ ν → Cost → Node σ ν → Prop} {met : List Cost}
    (chain : Chain joins nodes met n) (onward : Onward joins finish n rest costs) :
    Chain joins (nodes ++ rest) (met ++ costs) finish := by
  induction onward generalizing nodes met with
  | done =>
    rw [List.append_nil, List.append_nil]
    exact chain
  | step joined _ ih =>
    have further := ih (chain.next joined)
    rw [List.append_assoc, List.append_assoc] at further
    exact further

namespace Lattice

/-- The nodes after `n` lead to the last one, and `cost` is what they and `n` cost. -/
structure Ends (l : Lattice σ ν) (finish n : Node σ ν) (rest : List (Node σ ν))
    (costs : List Cost) (cost : Cost) : Prop where
  onward : Onward l.Passes finish n rest costs
  passable : n.entry.cost ≠ .infinite
  value : cost.val = n.entry.cost.val + Cost.exact costs

/-- A node within reach has a chain that comes to its cost. -/
theorem WellFormed.finite_chain (wf : l.WellFormed) (present : l.steps[step]? = some before)
    (member : n ∈ before.nodes) (finite : n.pathCost ≠ .infinite) :
    ∃ nodes costs, Chain l.Passes nodes costs n ∧ Cost.total costs = n.pathCost := by
  obtain ⟨nodes, costs, chain, total⟩ := wf.best_chain present member
  have joins : Chain l.Joins nodes costs n := chain.mono fun _ _ _ => JoinsBest.joins
  exact ⟨nodes, costs, joins.passes (Cost.infinite_not_mem (total ▸ finite)), total⟩

namespace Ends

variable (wf : l.WellFormed) (bounded : l.Bounded finish) (follows : n.origin = some origin)
  (present : l.steps[origin.step]? = some before)

theorem short (bounded : l.Bounded finish) (ends : l.Ends finish n rest costs cost)
    {met : List Cost} (chain : Chain l.Passes nodes met m) (passes : l.Passes m edge n) :
    Cost.size met + (edge.val.natAbs + (n.entry.cost.val.natAbs + Cost.size costs)) <
      2147483647 := by
  have whole := bounded _ _ (chain.onward (.step passes ends.onward))
  rw [Cost.size_append, Cost.size_cons, Cost.size_cons] at whole
  exact whole

include wf bounded follows present in
/-- A tail that would come to "no way" stands for no chain. -/
theorem grown_none (ends : l.Ends finish n rest costs cost)
    (member : (m, edge) ∈ before.nodes.zip n.edgeCosts)
    (out : edge = .infinite ∨ m.pathCost = .infinite) :
    Tail.grown? (n :: rest) cost (m, edge) = none ∧ l.waysOver origin.step n (m, edge) = [] := by
  constructor
  · rw [Tail.grown?_eq_none_iff]
    rcases out with same | same
    · rw [same, Cost.add_infinite, Cost.infinite_add]
    · rw [same, Cost.add_infinite]
  · rw [List.eq_nil_iff_forall_not_mem]
    intro nodes along
    obtain ⟨finite, front, listed, rfl⟩ := mem_waysOver.mp along
    have inside := (List.of_mem_zip member).1
    obtain ⟨met, chain⟩ := (wf.mem_ways present inside front).mp listed
    have passes : l.Passes m edge n :=
      ⟨(joins_iff follows present).mpr member, finite, ends.passable⟩
    have short := ends.short bounded chain passes
    have lower := wf.pathCost_le chain.joins (wf.start_or_relaxed present inside)
    rw [out.resolve_left finite, Cost.infinite_le] at lower
    exact (Cost.total_exact (by omega)).1 lower

include wf bounded follows present in
/-- Any other tail has exact costs. -/
theorem grown_some (ends : l.Ends finish n rest costs cost)
    (member : (m, edge) ∈ before.nodes.zip n.edgeCosts) (finite : edge ≠ .infinite)
    (reached : m.pathCost ≠ .infinite) :
    Tail.grown? (n :: rest) cost (m, edge) =
        some ⟨m :: n :: rest, cost + edge + m.entry.cost, cost + edge + m.pathCost⟩ ∧
      l.Ends finish m (n :: rest) (edge :: n.entry.cost :: costs)
        (cost + edge + m.entry.cost) ∧
      (cost + edge + m.pathCost).val =
        m.pathCost.val + Cost.exact (edge :: n.entry.cost :: costs) ∧
      (m.pathCost + edge + n.entry.cost).val =
        m.pathCost.val + edge.val + n.entry.cost.val := by
  have inside := (List.of_mem_zip member).1
  obtain ⟨nodes, met, chain, total⟩ := wf.finite_chain present inside reached
  have passes : l.Passes m edge n :=
    ⟨(joins_iff follows present).mpr member, finite, ends.passable⟩
  have short := ends.short bounded chain passes
  have first : Cost.size met < 2147483647 := by omega
  have path := (Cost.total_exact first).2
  have before_le := Cost.exact_natAbs_le met
  have after_le := Cost.exact_natAbs_le costs
  rw [← path, total] at before_le
  have entry_le : m.entry.cost.val.natAbs ≤ Cost.size met := by
    rcases chain.entry_cost_mem with zero | member
    · rw [zero]
      exact Nat.zero_le _
    · exact Cost.size_mem_le member
  have cost_le : cost.val.natAbs ≤ n.entry.cost.val.natAbs + Cost.size costs := by
    rw [ends.value]
    omega
  -- Everything added up below belongs to one chain, whose size is within the range.
  obtain ⟨base, base_le⟩ := Cost.add_small cost_le (Nat.le_refl edge.val.natAbs) (by omega)
  obtain ⟨own, own_le⟩ := Cost.add_small base_le entry_le (by omega)
  obtain ⟨whole, whole_le⟩ := Cost.add_small base_le before_le (by omega)
  obtain ⟨arrival, arrival_le⟩ :=
    Cost.add_small before_le (Nat.le_refl edge.val.natAbs) (by omega)
  obtain ⟨arrived, _⟩ :=
    Cost.add_small arrival_le (Nat.le_refl n.entry.cost.val.natAbs) (by omega)
  have value := ends.value
  refine ⟨?_, ⟨.step passes ends.onward, ?_, ?_⟩, ?_, ?_⟩
  · refine Tail.grown?_eq_some_iff.mpr ⟨?_, rfl⟩
    exact Cost.ne_infinite_of_small (Nat.lt_of_le_of_lt whole_le (by omega))
  · exact Cost.ne_infinite_of_small (Nat.lt_of_le_of_lt entry_le (by omega))
  · rw [own, base, value, Cost.exact_cons, Cost.exact_cons]
    omega
  · rw [whole, base, value, Cost.exact_cons, Cost.exact_cons]
    omega
  · rw [arrived, arrival]

end Ends

/-- The complete chains with a tail. -/
def completions (l : Lattice σ ν) (t : Tail σ ν) : List (List (Node σ ν)) :=
  match t.nodes with
  | [] => []
  | n :: rest => (l.ways t.place n).map (· ++ rest)

end Lattice

/-- The cost of a tail is exact, and so is the one of its cheapest completion. -/
def Tail.Exact (l : Lattice σ ν) (finish : Node σ ν) (t : Tail σ ν) : Prop :=
  ∃ n rest costs, t.nodes = n :: rest ∧ l.Ends finish n rest costs t.cost ∧
    n.pathCost ≠ .infinite ∧ t.wholeCost.val = n.pathCost.val + Cost.exact costs

namespace Lattice

theorem completions_of_grown? {pred : Node σ ν × Cost} {t : Tail σ ν}
    (follows : n.origin = some origin) (grown : Tail.grown? (n :: rest) cost pred = some t) :
    l.completions t = (l.ways origin.step pred.1).map (· ++ n :: rest) := by
  have place := Tail.place_of_grown? follows grown
  obtain ⟨_, rfl⟩ := Tail.grown?_eq_some_iff.mp grown
  rw [completions, place]

namespace Ends

variable (wf : l.WellFormed) (bounded : l.Bounded finish) (follows : n.origin = some origin)
  (present : l.steps[origin.step]? = some before)

include wf bounded follows present

theorem grown (ends : l.Ends finish n rest costs cost) {pred : Node σ ν × Cost} {t : Tail σ ν}
    (member : pred ∈ before.nodes.zip n.edgeCosts)
    (grown : Tail.grown? (n :: rest) cost pred = some t) :
    t.Exact l finish ∧ pred.2 ≠ .infinite ∧
      t.wholeCost.val = (pred.1.pathCost + pred.2 + n.entry.cost).val + Cost.exact costs := by
  obtain ⟨m, edge⟩ := pred
  by_cases out : edge = .infinite ∨ m.pathCost = .infinite
  · rw [(ends.grown_none wf bounded follows present member out).1] at grown
    contradiction
  obtain ⟨finite, reached⟩ := not_or.mp out
  obtain ⟨found, further, whole, arrived⟩ :=
    ends.grown_some wf bounded follows present member finite reached
  obtain rfl := Option.some.inj (found.symm.trans grown)
  refine ⟨⟨m, n :: rest, _, rfl, further, reached, whole⟩, finite, ?_⟩
  rw [whole, arrived, Cost.exact_cons, Cost.exact_cons]
  omega

/-- The tails that grow from a node share out the chains to it. -/
theorem completions (ends : l.Ends finish n rest costs cost) (earlier : origin.step < place) :
    (l.ways place n).map (· ++ rest) =
      ((before.nodes.zip n.edgeCosts).filterMap (Tail.grown? (n :: rest) cost)).flatMap
        l.completions := by
  rw [ways_of_follows follows present earlier ends.passable, List.map_flatMap,
    List.filterMap_eq_flatMap_toList, List.flatMap_assoc]
  apply List.flatMap_congr
  intro pred member
  cases known : Tail.grown? (n :: rest) cost pred with
  | some t =>
    have finite := (ends.grown wf bounded follows present member known).2.1
    rw [Option.toList_some, List.flatMap_singleton, completions_of_grown? follows known, waysOver,
      if_neg finite, List.map_map]
    apply List.map_congr_left
    intro front _
    exact (List.append_cons front n rest).symm
  | none =>
    obtain ⟨m, edge⟩ := pred
    have out : edge = .infinite ∨ m.pathCost = .infinite := by
      by_contra within
      obtain ⟨finite, reached⟩ := not_or.mp within
      have found := (ends.grown_some wf bounded follows present member finite reached).1
      rw [known] at found
      contradiction
    rw [(ends.grown_none wf bounded follows present member out).2]
    rfl

end Ends

end Lattice

end Segmentation
