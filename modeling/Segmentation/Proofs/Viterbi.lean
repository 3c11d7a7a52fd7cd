import Segmentation.Proofs.Chain
import Mathlib.Order.Bounds.Defs

/-! The cost that a node is given when it is made is the least cost of all chains to
it, at any costs: negative ones, infinite ones and sums beyond the range included. -/
namespace Segmentation.Lattice

variable {σ ν : Type} {l : Lattice σ ν} {step : Nat} {before : Step σ ν} {n eos : Node σ ν}

/-- What the chains to a node come to, each added up from the start on. -/
def chainTotals (l : Lattice σ ν) (n : Node σ ν) : Set Cost :=
  {c | ∃ nodes costs, Chain l.Joins nodes costs n ∧ Cost.total costs = c}

/-- The best of all chains to a node has the node's path cost. -/
structure Optimal (l : Lattice σ ν) (n : Node σ ν) : Prop where
  least : IsLeast (l.chainTotals n) n.pathCost
  best : ∃ nodes costs, Chain l.JoinsBest nodes costs n ∧ Cost.total costs = n.pathCost
  infinite : n.pathCost = .infinite ↔ ∀ nodes costs, Chain l.Joins nodes costs n →
    .infinite ∈ costs ∨ Cost.Overruns costs

/-- The end of the input, with an infinite edge from each node that is not connected. -/
def ending (l : Lattice σ ν) : Node σ ν :=
  let last := l.steps.getLastD .start
  last.follower (l.stepCount - 1)
    (last.nodes.map fun n => (l.vocabulary.connection n .sentinel).getD .infinite) .sentinel

theorem WellFormed.optimal (wf : l.WellFormed) (relaxed : l.Relaxed step before n) :
    l.Optimal n := by
  have filled := wf.filled_of_get relaxed.present
  obtain ⟨nodes, costs, chain, total⟩ :=
    relaxed.best_chain filled fun m member => wf.best_chain relaxed.present member
  have attained : n.pathCost ∈ l.chainTotals n :=
    ⟨nodes, costs, chain.mono fun _ _ _ => JoinsBest.joins, total⟩
  have lower : ∀ nodes costs, Chain l.Joins nodes costs n → n.pathCost ≤ Cost.total costs :=
    fun _ _ chain => wf.pathCost_le chain (.inr ⟨step, before, relaxed⟩)
  refine ⟨⟨attained, ?_⟩, ⟨nodes, costs, chain, total⟩, ?_⟩
  · rintro _ ⟨nodes, costs, chain, rfl⟩
    exact lower nodes costs chain
  · constructor
    · intro unreachable nodes costs chain
      have above := lower nodes costs chain
      rw [unreachable, Cost.infinite_le] at above
      exact Cost.total_eq_infinite_iff.mp above
    · intro blocked
      obtain ⟨nodes, costs, chain, same⟩ := attained
      rw [← same]
      exact Cost.total_eq_infinite_iff.mpr (blocked nodes costs chain)

theorem WellFormed.last_present (wf : l.WellFormed) :
    l.steps[l.stepCount - 1]? = some (l.steps.getLastD .start) := by
  have bound := (List.getElem?_eq_some_iff.mp wf.first).1
  rw [List.getLastD_eq_getLast?, List.getLast?_eq_getElem?, stepCount,
    List.getElem?_eq_getElem (by omega)]
  rfl

theorem settle_eq_ok_iff : l.settle.result = .ok eos ↔
    ∃ edgeCosts, l.edgeCosts (l.steps.getLastD .start) .sentinel = .ok edgeCosts ∧
      eos = (l.steps.getLastD .start).follower (l.stepCount - 1) edgeCosts .sentinel ∧
      eos.pathCost ≠ .infinite := by
  unfold settle
  dsimp only
  cases l.edgeCosts (l.steps.getLastD .start) .sentinel with
  | error failure => simp
  | ok edgeCosts =>
    simp only [Step.follower, Except.ok.injEq, exists_eq_left']
    generalize leastIndex _ = found
    obtain ⟨best, arrival⟩ := found
    have same : arrival + (Entry.sentinel : Entry σ ν).cost = arrival := Cost.add_zero arrival
    dsimp only
    rw [same]
    split
    next unreachable =>
      constructor
      · intro
        contradiction
      · rintro ⟨rfl, finite⟩
        exact absurd unreachable finite
    next finite =>
      constructor
      · intro settled
        cases settled
        exact ⟨rfl, finite⟩
      · rintro ⟨rfl, _⟩
        rfl

theorem WellFormed.relaxed_last (wf : l.WellFormed) {edgeCosts : List Cost}
    (edges : edgeCosts.length = (l.steps.getLastD .start).nodes.length) (e : Entry σ ν) :
    l.Relaxed (l.stepCount - 1) (l.steps.getLastD .start)
      ((l.steps.getLastD .start).follower (l.stepCount - 1) edgeCosts e) :=
  relaxed_follower wf.last_present edges e 0

/-- The end of a settled lattice is relaxed against the last step. -/
theorem WellFormed.relaxed_settled (wf : l.WellFormed) (settled : l.settle.result = .ok eos) :
    l.Relaxed (l.stepCount - 1) (l.steps.getLastD .start) eos ∧ eos.entry = .sentinel ∧
      eos.pathCost ≠ .infinite := by
  obtain ⟨_, found, rfl, finite⟩ := settle_eq_ok_iff.mp settled
  exact ⟨wf.relaxed_last (edgeCosts_length found) .sentinel, rfl, finite⟩

theorem edgeCosts_of_unreachable (unreachable : l.policy = .unreachable) (s : Step σ ν)
    (e : Entry σ ν) : l.edgeCosts s e =
      .ok (s.nodes.map fun n => (l.vocabulary.connection n e).getD .infinite) := by
  unfold edgeCosts
  rw [unreachable, mapM_ok_iff, List.forall₂_map_right_iff, List.forall₂_same]
  intro n _
  cases l.vocabulary.connection n e <;> rfl

theorem settle_fails_iff (unreachable : l.policy = .unreachable) :
    (∃ failure, l.settle.result = .error failure) ↔ l.ending.pathCost = .infinite := by
  have edges := edgeCosts_of_unreachable unreachable (l.steps.getLastD .start) .sentinel
  constructor
  · rintro ⟨failure, failed⟩
    by_contra finite
    have settled := settle_eq_ok_iff.mpr ⟨_, edges, rfl, finite⟩
    rw [failed] at settled
    contradiction
  · intro infinite
    cases settled : l.settle.result with
    | error failure => exact ⟨failure, rfl⟩
    | ok eos =>
      obtain ⟨edgeCosts, found, rfl, finite⟩ := settle_eq_ok_iff.mp settled
      obtain rfl := Except.ok.inj (edges.symm.trans found)
      exact absurd infinite finite

/-- In a lattice that pushes lead to, every node after the start has the least cost
of all chains to it, and so has the end of the input. If unconnected words are only
out of reach, the lattice cannot be closed exactly when every chain to its end is. -/
theorem path_costs_optimal [Sequence σ] (reachable : l.Reachable) :
    (∀ k nodes, 0 < k → l.nodesAt k = .ok nodes → ∀ n ∈ nodes, l.Optimal n) ∧
    (∀ eos, l.settle.result = .ok eos → l.Optimal eos) ∧
    (l.policy = .unreachable → ((∃ failure, l.settle.result = .error failure) ↔
      IsLeast (l.chainTotals l.ending) .infinite)) := by
  have wf := reachable.wellFormed
  refine ⟨?_, ?_, ?_⟩
  · intro k nodes positive there n member
    obtain ⟨s, present, rfl⟩ := nodesAt_eq_ok_iff.mp there
    obtain ⟨k, rfl⟩ := Nat.exists_eq_succ_of_ne_zero (Nat.ne_of_gt positive)
    obtain ⟨step, before, _, relaxed⟩ := wf.relaxed k s present n member
    exact wf.optimal relaxed
  · intro eos settled
    obtain ⟨edgeCosts, found, rfl, _⟩ := settle_eq_ok_iff.mp settled
    exact wf.optimal (wf.relaxed_last (edgeCosts_length found) .sentinel)
  · intro unreachable
    have optimal : l.Optimal l.ending :=
      wf.optimal (wf.relaxed_last (List.length_map _) .sentinel)
    rw [settle_fails_iff unreachable]
    constructor
    · intro infinite
      exact infinite ▸ optimal.least
    · intro infinite
      exact Cost.infinite_le.mp (infinite.2 optimal.least.1)

end Segmentation.Lattice

namespace Segmentation

/-- Inputs that are texts only have no sequences. -/
instance : Sequence Empty where
  sameKind := nofun
  length := nofun
  slice := nofun
  append := nofun

namespace Overlap

/-- "ab" is one word or two, the first of them with two readings. One of these may not
stand before the second word. -/
def vocabulary : Vocabulary Empty Nat where
  entries
    | .text "a" => [⟨some (.text "a"), some 0, 5⟩, ⟨some (.text "a"), some 1, 3⟩]
    | .text "b" => [⟨some (.text "b"), some 2, .clamp (-4)⟩]
    | .text "ab" => [⟨some (.text "ab"), some 3, 8⟩]
    | _ => []
  connection before after :=
    if before.entry.value = some 1 ∧ after.value = some 2 then none else some 1

def lattice : Lattice Empty Nat := .ofTexts vocabulary ["a", "b"]

/-- The words that end with the input. -/
def last : List (Node Empty Nat) := (lattice.steps[2]?.map Step.nodes).getD []

theorem reachable : lattice.Reachable := .ofTexts _ _

/-- The second word costs three, by way of the dearer reading of the first. -/
theorem path_costs_optimal_second_word : lattice.Reachable ∧
    ∃ nodes n, lattice.nodesAt 2 = .ok nodes ∧ nodes[1]? = some n ∧ n.pathCost = 3 ∧
      lattice.Optimal n := by
  refine ⟨reachable, last, last.get ⟨1, by decide⟩, rfl, rfl, rfl, ?_⟩
  exact (Lattice.path_costs_optimal reachable).1 2 last (by decide) rfl _ (List.get_mem _ _)

end Overlap

end Segmentation
