import Segmentation.Proofs.Partition

/-! What a tail that waits tells of itself.
It runs along edges up to the last node of the search, its cost is what its nodes and edges come
to, and the cost of the whole is that of the cheapest chain which ends with it, whether or not
this chain matches. -/
namespace Segmentation

variable {σ ν : Type}

namespace Lattice

variable {l : Lattice σ ν} {finish : Node σ ν} {t : Tail σ ν}

/-- Of all chains with a tail on which nothing is out of reach, the cheapest ones come to the
cost that the tail has for the whole. -/
theorem WellFormed.least_passage (wf : l.WellFormed) (bounded : l.Bounded finish)
    (standing : t.Standing l) (exact : t.Exact l finish) :
    IsLeast {cost | ∃ nodes costs, Chain l.Passes nodes costs finish ∧ t.nodes <:+ nodes ∧
      Cost.exact costs = cost} t.wholeCost.val := by
  obtain ⟨n, rest, before, same, present, member⟩ := standing
  obtain ⟨_, _, costs, same', ends, reached, value⟩ := exact
  obtain ⟨rfl, rfl⟩ := List.cons.inj (same.symm.trans same')
  -- what is in front of the tail leads to its first node and is counted exactly
  have complete {front : List (Node σ ν)} {met : List Cost} (chain : Chain l.Passes front met n) :
      Chain l.Passes (front ++ rest) (met ++ costs) finish ∧
        (Cost.total met).val = Cost.exact met := by
    have whole := chain.onward ends.onward
    have short := bounded _ _ whole
    rw [Cost.size_append] at short
    exact ⟨whole, (Cost.total_exact (by omega)).2⟩
  rw [same, value]
  constructor
  · obtain ⟨front, met, chain, total⟩ := wf.finite_chain present member reached
    obtain ⟨whole, sum⟩ := complete chain
    obtain ⟨first, rfl⟩ := List.getLast?_eq_some_iff.mp chain.getLast?
    refine ⟨_, _, whole, ⟨first, List.append_cons first n rest⟩, ?_⟩
    rw [Cost.exact_append, ← sum, total]
  · rintro _ ⟨_, all, chain, ⟨first, rfl⟩, rfl⟩
    obtain ⟨met, before⟩ := chain.front rfl
    obtain ⟨whole, sum⟩ := complete before
    rw [← List.append_cons] at whole
    obtain rfl := wf.costs_unique chain whole
    have lower := wf.pathCost_le before.joins (wf.start_or_relaxed present member)
    rw [Cost.le_iff, sum] at lower
    rw [Cost.exact_append]
    omega

/-- So do the cheapest of all chains with the tail, as what is out of reach costs more. -/
theorem WellFormed.least_chain (wf : l.WellFormed) (bounded : l.Bounded finish)
    (standing : t.Standing l) (exact : t.Exact l finish) :
    IsLeast {cost | ∃ nodes costs, Chain l.Joins nodes costs finish ∧ t.nodes <:+ nodes ∧
      Cost.total costs = cost} t.wholeCost := by
  obtain ⟨⟨nodes, costs, chain, suffix, sum⟩, least⟩ :=
    wf.least_passage bounded standing exact
  constructor
  · have total := (Cost.total_exact (bounded _ _ chain)).2
    exact ⟨nodes, costs, chain.joins, suffix, Cost.ext_val (total.trans sum)⟩
  · rintro _ ⟨nodes, costs, chain, suffix, rfl⟩
    by_cases out : .infinite ∈ costs
    · rw [Cost.total_eq_infinite_iff.mpr (.inl out)]
      exact Cost.le_infinite _
    · have passage := chain.passes out
      rw [Cost.le_iff, (Cost.total_exact (bounded _ _ passage)).2]
      exact least ⟨nodes, costs, passage, suffix, rfl⟩

end Lattice

variable [BEq σ] [BEq ν] {l : Lattice σ ν} {finish : Node σ ν} {p : Pattern σ ν}

/-- A tail of at least two nodes up to the last one, along edges that are not out of reach, which
can be the end of a path that matches. Both of its costs are exact, the one of the nodes and the
edges between them and the one of the cheapest chain with this end. -/
structure Tail.Faithful (l : Lattice σ ν) (finish : Node σ ν) (p : Pattern σ ν) (t : Tail σ ν) :
    Prop where
  long : 2 ≤ t.nodes.length
  last : t.nodes.getLast? = some finish
  admitted : p.admits t.nodes = true
  cost : ∃ n rest costs, t.nodes = n :: rest ∧ Onward l.Passes finish n rest costs ∧
    t.cost.val = n.entry.cost.val + Cost.exact costs
  finite : t.wholeCost ≠ .infinite
  least : IsLeast {cost | ∃ nodes costs, Chain l.Joins nodes costs finish ∧ t.nodes <:+ nodes ∧
    Cost.total costs = cost} t.wholeCost
  leastExact : IsLeast {cost | ∃ nodes costs, Chain l.Passes nodes costs finish ∧
    t.nodes <:+ nodes ∧ Cost.exact costs = cost} t.wholeCost.val

theorem Tail.Reliable.faithful {t : Tail σ ν} (wf : l.WellFormed) (bounded : l.Bounded finish)
    (reliable : t.Reliable l finish p) (approaches : Approaches finish t.nodes) :
    t.Faithful l finish p := by
  obtain ⟨⟨standing, priced, admitted⟩, exact⟩ := reliable
  obtain ⟨_, front, nodes, _⟩ := approaches
  refine ⟨?long, ?last, admitted, ?cost, ?finite, wf.least_chain bounded standing exact,
    wf.least_passage bounded standing exact⟩
  case long => simp [nodes]
  case last =>
    rw [nodes]
    exact List.getLast?_concat
  case cost =>
    obtain ⟨n, rest, costs, same, ends, _⟩ := exact
    exact ⟨n, rest, costs, same, ends.onward, ends.value⟩
  case finite =>
    obtain ⟨_, _, _, _, _, _, finite⟩ := priced
    exact finite

namespace Enumeration

variable {e after : Enumeration σ ν} {paths : List (Path σ ν)} {identity : Nat}

/-- Whatever an enumeration has reached, every tail in its queue tells its costs exactly. -/
theorem waiting_tails_faithful [Sequence σ] (reachable : l.Reachable)
    (bounded : l.Bounded finish) (accepted : start identity l finish p = .ok e)
    (reaches : e.Reaches paths after) :
    ∀ ticket ∈ after.frontier.queue, ticket.tail.Faithful l finish p := by
  have wf := reachable.wellFormed
  obtain ⟨seeds, begins, begun⟩ := underway_of_start accepted
  have underway := reaches.underway wf begins begun
  have reliable := underway.reliable wf begins bounded
  obtain ⟨_, approaches⟩ := underway.approaches wf begins
  intro ticket member
  have waits : ticket.tail ∈ after.frontier.tails := List.mem_map_of_mem member
  exact (reliable _ waits).faithful wf bounded (approaches _ waits)

end Enumeration

namespace Overlap

/-- When one path of "aba" has been reached, two tails of three nodes wait, each for the one path
that goes on over "ab" as a word. -/
theorem waiting_tails_faithful_two : longer.Reachable ∧ longer.Bounded longer.ending ∧
    ∃ e paths after, Enumeration.start 0 longer longer.ending .empty = .ok e ∧
      e.Reaches paths after ∧ paths.length = 1 ∧
      after.frontier.queue.map (fun ticket => ticket.tail.nodes.length) = [3, 3] ∧
      after.frontier.queue.map (fun ticket => ticket.tail.cost) = [13, 15] ∧
      after.frontier.queue.map (fun ticket => ticket.tail.wholeCost) = [14, 16] ∧
      ∀ ticket ∈ after.frontier.queue, ticket.tail.Faithful longer longer.ending .empty := by
  have reported : (fun e => ((e.take 1).1.length,
      (e.take 1).2.frontier.queue.map (fun ticket => ticket.tail.nodes.length),
      (e.take 1).2.frontier.queue.map (fun ticket => ticket.tail.cost),
      (e.take 1).2.frontier.queue.map (fun ticket => ticket.tail.wholeCost))) <$>
        Enumeration.start 0 longer longer.ending .empty =
      .ok (1, [3, 3], [13, 15], [14, 16]) := by
    decide +kernel
  obtain ⟨e, accepted, known⟩ := map_ok_iff.mp reported
  simp only [Prod.mk.injEq] at known
  obtain ⟨reached, lengths, costs, wholes⟩ := known
  have reaches := e.reaches_take 1
  exact ⟨longer_reachable, longer_bounded, e, _, _, accepted, reaches, reached, lengths, costs,
    wholes, Enumeration.waiting_tails_faithful longer_reachable longer_bounded accepted reaches⟩

end Overlap

end Segmentation
