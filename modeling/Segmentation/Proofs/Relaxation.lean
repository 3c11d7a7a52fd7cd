import Segmentation.Expansion
import Segmentation.Proofs.CostSums

/-! The local rule for the cost of a node: it follows a step, has an edge from each
of its nodes, and takes over the first of the cheapest arrivals. -/
namespace Segmentation

variable {σ ν : Type}

theorem leastIndex_cons (c : Cost) (costs : List Cost) : leastIndex (c :: costs) =
    if (leastIndex costs).2 < c then ((leastIndex costs).1 + 1, (leastIndex costs).2)
    else (0, c) := rfl

theorem leastIndex_le {costs : List Cost} {c : Cost} (member : c ∈ costs) :
    (leastIndex costs).2 ≤ c := by
  induction costs with
  | nil => contradiction
  | cons d costs ih =>
    rw [leastIndex_cons]
    rcases List.mem_cons.mp member with rfl | member
    · split
      next below => exact Int.le_of_lt below
      next => exact Cost.le_refl _
    · have least := ih member
      split
      next => exact least
      next above => exact Cost.le_trans (Int.not_lt.mp above) least

theorem leastIndex_get {costs : List Cost} (nonempty : costs ≠ []) :
    costs[(leastIndex costs).1]? = some (leastIndex costs).2 := by
  induction costs with
  | nil => contradiction
  | cons d costs ih =>
    rw [leastIndex_cons]
    split
    next below =>
      have nonempty : costs ≠ [] := by
        rintro rfl
        exact absurd below (Int.not_lt.mpr d.upper)
      rw [List.getElem?_cons_succ]
      exact ih nonempty
    next => rfl

/-- Where a least cost stands for the first time. -/
structure FirstLeast (costs : List Cost) (i : Nat) (cost : Cost) : Prop where
  get : costs[i]? = some cost
  least : ∀ c ∈ costs, cost ≤ c
  first : ∀ j c, costs[j]? = some c → j < i → cost < c

theorem leastIndex_lt {costs : List Cost} {j : Nat} {c : Cost} (get : costs[j]? = some c)
    (earlier : j < (leastIndex costs).1) : (leastIndex costs).2 < c := by
  induction costs generalizing j with
  | nil => contradiction
  | cons d costs ih =>
    rw [leastIndex_cons] at earlier ⊢
    split
    next below =>
      rw [if_pos below] at earlier
      cases j with
      | zero =>
        rw [List.getElem?_cons_zero, Option.some.injEq] at get
        exact get ▸ below
      | succ j =>
        rw [List.getElem?_cons_succ] at get
        exact ih get (Nat.lt_of_succ_lt_succ earlier)
    next above =>
      rw [if_neg above] at earlier
      exact absurd earlier (Nat.not_lt_zero j)

theorem firstLeast_leastIndex {costs : List Cost} (nonempty : costs ≠ []) :
    FirstLeast costs (leastIndex costs).1 (leastIndex costs).2 :=
  ⟨leastIndex_get nonempty, fun _ => leastIndex_le, fun _ _ => leastIndex_lt⟩

theorem Step.arrivals_eq_map (s : Step σ ν) (edgeCosts : List Cost) :
    s.arrivals edgeCosts = (s.nodes.zip edgeCosts).map fun pred => pred.1.pathCost + pred.2 := by
  rw [Step.arrivals, List.zip, List.map_zipWith]

theorem Step.arrivals_ne_nil {s : Step σ ν} {edgeCosts : List Cost} (filled : s.nodes ≠ [])
    (edges : edgeCosts.length = s.nodes.length) : s.arrivals edgeCosts ≠ [] := by
  rw [arrivals_eq_map, Ne, List.map_eq_nil_iff, List.zip_eq_nil_iff, not_or]
  refine ⟨filled, ?_⟩
  rintro rfl
  exact filled (List.length_eq_zero_iff.mp edges.symm)

/-- The first of the cheapest nodes that a node follows, with its edge. -/
structure Step.Best (before : Step σ ν) (node m : Node σ ν) (edge : Cost) : Prop where
  get : (before.nodes.zip node.edgeCosts)[(leastIndex (before.arrivals node.edgeCosts)).1]? =
    some (m, edge)
  cost : node.pathCost = m.pathCost + edge + node.entry.cost
  least : ∀ pred ∈ before.nodes.zip node.edgeCosts, m.pathCost + edge ≤ pred.1.pathCost + pred.2

namespace Step.Best

variable {before : Step σ ν} {node m : Node σ ν} {edge : Cost}

theorem member (best : before.Best node m edge) : (m, edge) ∈ before.nodes.zip node.edgeCosts :=
  List.mem_of_getElem? best.get

theorem inside (best : before.Best node m edge) : m ∈ before.nodes :=
  (List.of_mem_zip best.member).1

/-- If a node is within reach, so is the best one that it follows, along the edge to it. -/
theorem reached (best : before.Best node m edge) (reached : node.pathCost ≠ .infinite) :
    m.pathCost ≠ .infinite ∧ edge ≠ .infinite := by
  rw [best.cost] at reached
  have arrival := Cost.add_left_ne_infinite reached
  exact ⟨Cost.add_left_ne_infinite arrival, Cost.add_right_ne_infinite arrival⟩

end Step.Best

namespace Lattice

/-- A node knows all edges from a step and has its cost from the best of them. -/
structure Relaxed (l : Lattice σ ν) (step : Nat) (before : Step σ ν) (node : Node σ ν) : Prop where
  present : l.steps[step]? = some before
  edges : node.edgeCosts.length = before.nodes.length
  origin : node.origin = some ⟨step, (leastIndex (before.arrivals node.edgeCosts)).1⟩
  cost : node.pathCost = (leastIndex (before.arrivals node.edgeCosts)).2 + node.entry.cost

variable {l : Lattice σ ν} {step : Nat} {before : Step σ ν} {node : Node σ ν}

theorem nodesAt_eq_ok_iff {nodes : List (Node σ ν)} :
    l.nodesAt step = .ok nodes ↔ ∃ s, l.steps[step]? = some s ∧ s.nodes = nodes := by
  unfold nodesAt
  cases l.steps[step]? with
  | none => simp
  | some s => simp

theorem nodesAt_of_get (present : l.steps[step]? = some before) :
    l.nodesAt step = .ok before.nodes :=
  nodesAt_eq_ok_iff.mpr ⟨before, present, rfl⟩

theorem predecessors_of_get (present : l.steps[step]? = some before) {edgeCosts : List Cost}
    (edges : edgeCosts.length = before.nodes.length) :
    l.predecessors step edgeCosts = .ok (before.nodes.zip edgeCosts) := by
  simp only [predecessors, nodesAt_of_get present, bind, Except.bind, edges, if_true, pure,
    Except.pure]

namespace Relaxed

theorem best (relaxed : l.Relaxed step before node) (filled : before.nodes ≠ []) :
    ∃ m edge, before.Best node m edge := by
  have get := leastIndex_get (Step.arrivals_ne_nil filled relaxed.edges)
  rw [Step.arrivals_eq_map, List.getElem?_map, ← Step.arrivals_eq_map,
    Option.map_eq_some_iff] at get
  obtain ⟨⟨m, edge⟩, found, same⟩ := get
  refine ⟨m, edge, found, ?_, ?_⟩
  · rw [relaxed.cost, ← same]
  · intro pred member
    change m.pathCost + edge = _ at same
    rw [same]
    apply leastIndex_le
    rw [Step.arrivals_eq_map]
    exact List.mem_map_of_mem member

end Relaxed

/-- The node of an entry after a step is relaxed, whatever its place in its own step. -/
theorem relaxed_follower (present : l.steps[step]? = some before) {edgeCosts : List Cost}
    (edges : edgeCosts.length = before.nodes.length) (e : Entry σ ν) (index : Nat) :
    l.Relaxed step before { before.follower step edgeCosts e with index := index } :=
  ⟨present, edges, rfl, rfl⟩

end Lattice

end Segmentation
