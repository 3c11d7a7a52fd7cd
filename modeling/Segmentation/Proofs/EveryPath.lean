import Segmentation.Proofs.Completion
import Segmentation.Proofs.Draining
import Segmentation.Proofs.Viterbi

/-! A search without a pattern reaches every complete chain, at its exact cost, and the
cheaper ones first.
A tail stands for the chains that it can be completed to. Taking it from the queue
gives the cheapest of them, and what is queued instead shares out the others. -/
namespace Segmentation

variable {σ ν : Type} {l : Lattice σ ν} {step place : Nat} {before : Step σ ν}
  {finish m n : Node σ ν} {edge cost : Cost} {rest : List (Node σ ν)} {costs : List Cost}

/-- What comes out of a tail: one path of the least cost, and tails for the others. -/
structure Expansion.Splits (l : Lattice σ ν) (finish : Node σ ν) (x : Expansion σ ν)
    (all : List (List (Node σ ν))) (least : Int) (path : List (Node σ ν)) : Prop where
  nodes : x.nodes = some path
  perm : all.Perm (path :: x.tails.flatMap l.completions)
  cost : ∃ costs, Chain l.Passes path costs finish ∧ Cost.exact costs = least
  exact : ∀ t ∈ x.tails, t.Exact l finish
  dearer : ∀ t ∈ x.tails, least ≤ t.wholeCost.val

namespace Lattice

theorem Relaxed.splits (wf : l.WellFormed) (bounded : l.Bounded finish)
    (relaxed : l.Relaxed step before n) (earlier : step < place)
    (ends : l.Ends finish n rest costs cost) (best : before.Best n m edge)
    {t : Tail σ ν} (grown : Tail.grown? (n :: rest) cost (m, edge) = some t)
    {further : Expansion σ ν} {path : List (Node σ ν)}
    (splits : further.Splits l finish (l.completions t) t.wholeCost.val path) :
    Expansion.Splits l finish
      ⟨(before.others n).filterMap (Tail.grown? (n :: rest) cost) ++ further.tails, further.nodes⟩
      ((l.ways place n).map (· ++ rest)) (n.pathCost.val + Cost.exact costs) path := by
  have passed : ∀ u ∈ (before.others n).filterMap (Tail.grown? (n :: rest) cost),
      u.Exact l finish ∧ n.pathCost.val + Cost.exact costs ≤ u.wholeCost.val := by
    intro u member
    obtain ⟨pred, other, known⟩ := List.mem_filterMap.mp member
    have inside := List.mem_of_mem_eraseIdx other
    obtain ⟨exact, _, whole⟩ :=
      ends.grown wf bounded relaxed.origin relaxed.present inside known
    have above := Cost.le_iff.mp (Cost.add_le_add_right (best.least pred inside) n.entry.cost)
    refine ⟨exact, ?_⟩
    rw [whole, best.cost]
    omega
  obtain ⟨_, _, whole⟩ :=
    ends.grown wf bounded relaxed.origin relaxed.present best.member grown
  have same : t.wholeCost.val = n.pathCost.val + Cost.exact costs := by rw [whole, best.cost]
  refine ⟨splits.nodes, ?_, same ▸ splits.cost, ?_, ?_⟩
  · rw [ends.completions wf bounded relaxed.origin relaxed.present earlier, List.flatMap_append]
    have shared := ((others_perm best).symm.filterMap
      (Tail.grown? (n :: rest) cost)).flatMap_right l.completions
    rw [List.filterMap_cons_some grown, List.flatMap_cons] at shared
    exact shared.trans ((splits.perm.append_right _).trans (List.perm_append_comm.cons path))
  · intro u member
    exact (List.mem_append.mp member).elim (fun new => (passed u new).1) (splits.exact u)
  · intro u member
    rcases List.mem_append.mp member with new | later
    · exact (passed u new).2
    · exact same ▸ splits.dearer u later

variable [BEq σ] [BEq ν]

theorem WellFormed.retrace_splits (wf : l.WellFormed) (bounded : l.Bounded finish)
    (present : l.steps[place]? = some before) (member : n ∈ before.nodes)
    (ends : l.Ends finish n rest costs cost) (reached : n.pathCost ≠ .infinite) :
    ∃ x path, l.retrace .empty place n rest cost = .ok x ∧
      x.Splits l finish ((l.ways place n).map (· ++ rest)) (n.pathCost.val + Cost.exact costs)
        path := by
  refine wf.node_induction (motive := fun place n => ∀ rest costs cost,
    l.Ends finish n rest costs cost → n.pathCost ≠ .infinite →
    ∃ x path, l.retrace .empty place n rest cost = .ok x ∧
      x.Splits l finish ((l.ways place n).map (· ++ rest)) (n.pathCost.val + Cost.exact costs)
        path) ?start ?follow present member rest costs cost ends reached
  case start =>
    intro rest costs cost ends _
    refine ⟨_, .start [] :: rest, retrace_start l .empty 0 rest cost, rfl, ?_, ?_, ?_, ?_⟩
    · rw [ways_start]
      exact .refl _
    · exact ⟨costs, Chain.start.onward ends.onward, (Int.zero_add _).symm⟩
    · simp
    · simp
  case follow =>
    intro place n step before earlier relaxed onward rest costs cost ends reached
    obtain ⟨m, edge, best⟩ := relaxed.best (wf.filled_of_get relaxed.present)
    obtain ⟨reached', finite⟩ := best.reached reached
    obtain ⟨grown, ends', whole, _⟩ :=
      ends.grown_some wf bounded relaxed.origin relaxed.present best.member finite reached'
    obtain ⟨further, path, retraced, splits⟩ := onward m best.inside _ _ _ ends' reached'
    rw [← completions_of_grown? relaxed.origin grown, ← whole] at splits
    refine ⟨_, path, ?_, relaxed.splits wf bounded earlier ends best grown splits⟩
    rw [relaxed.retrace earlier best, Pattern.empty_admits, if_pos rfl, retraced]
    rfl

theorem WellFormed.expand_splits (wf : l.WellFormed) (bounded : l.Bounded finish) {t : Tail σ ν}
    (standing : t.Standing l) (exact : t.Exact l finish) :
    ∃ x path, l.expand .empty t = .ok x ∧
      x.Splits l finish (l.completions t) t.wholeCost.val path := by
  obtain ⟨_, _, _, nodes, present, member⟩ := standing
  obtain ⟨n, rest, costs, nodes', ends, reached, value⟩ := exact
  obtain ⟨rfl, rfl⟩ := List.cons.inj (nodes.symm.trans nodes')
  rw [expand, completions, nodes, value]
  exact wf.retrace_splits bounded present member ends reached

/-- Paths that are these chains, each at its exact cost and the cheaper ones first. -/
structure Enumerates (l : Lattice σ ν) (finish : Node σ ν) (paths : List (Path σ ν))
    (chains : List (List (Node σ ν))) : Prop where
  perm : (paths.map Path.nodes).Perm chains
  cost : ∀ path ∈ paths, ∃ costs, Chain l.Passes path.nodes costs finish ∧
    path.cost.val = Cost.exact costs
  sorted : paths.Pairwise fun first second => first.cost ≤ second.cost

theorem WellFormed.splits_of_expand (wf : l.WellFormed) (bounded : l.Bounded finish)
    {t : Tail σ ν} {x : Expansion σ ν} (standing : t.Standing l) (exact : t.Exact l finish)
    (expanded : l.expand .empty t = .ok x) :
    ∃ path, x.Splits l finish (l.completions t) t.wholeCost.val path := by
  obtain ⟨y, path, expanded', splits⟩ := wf.expand_splits bounded standing exact
  obtain rfl := Except.ok.inj (expanded.symm.trans expanded')
  exact ⟨path, splits⟩

theorem WellFormed.outcomes_share (wf : l.WellFormed) (bounded : l.Bounded finish)
    {ts : List (Tail σ ν)} (standing : ∀ t ∈ ts, t.Standing l)
    (exact : ∀ t ∈ ts, t.Exact l finish) :
    ((l.outcomes .empty ts).map Path.nodes).Perm (ts.flatMap l.completions) ∧
    ∀ path ∈ l.outcomes .empty ts, ∃ costs, Chain l.Passes path.nodes costs finish ∧
      path.cost.val = Cost.exact costs := by
  fun_induction Lattice.outcomes l .empty ts with
  | case1 => exact ⟨.refl _, by simp⟩
  | case2 t ts failure failed =>
    obtain ⟨x, expanded, _⟩ := wf.expand_ok (p := .empty) (standing t List.mem_cons_self)
    rw [failed] at expanded
    contradiction
  | case3 t ts x expanded ih =>
    obtain ⟨path, splits⟩ := wf.splits_of_expand bounded (standing t List.mem_cons_self)
      (exact t List.mem_cons_self) expanded
    have waiting := x.queued_empty_perm ts
    obtain ⟨onward, priced⟩ := ih
      (wf.expand_queued (standing t List.mem_cons_self)
        (fun u member => standing u (List.mem_cons_of_mem t member)) expanded)
      (fun u member => (Expansion.mem_of_queued member).elim (splits.exact u)
        fun old => exact u (List.mem_cons_of_mem t old))
    rw [splits.nodes]
    constructor
    · have shared := waiting.flatMap_right l.completions
      rw [List.flatMap_append] at shared
      rw [List.flatMap_cons]
      exact ((onward.trans shared).cons path).trans (splits.perm.symm.append_right _)
    · intro other member
      rcases List.mem_cons.mp member with rfl | member
      · obtain ⟨costs, chain, same⟩ := splits.cost
        exact ⟨costs, chain, same.symm⟩
      · exact priced other member

theorem WellFormed.outcomes_enumerate (wf : l.WellFormed) (bounded : l.Bounded finish)
    {ts : List (Tail σ ν)} (sorted : Tail.Sorted ts) (standing : ∀ t ∈ ts, t.Standing l)
    (exact : ∀ t ∈ ts, t.Exact l finish) :
    l.Enumerates finish (l.outcomes .empty ts) (ts.flatMap l.completions) := by
  have dearer : ∀ t x, t.Standing l → t.Exact l finish → l.expand .empty t = .ok x →
      ∀ u ∈ x.tails, u.Exact l finish ∧ t.wholeCost ≤ u.wholeCost := by
    intro t x standing exact expanded u member
    obtain ⟨_, splits⟩ := wf.splits_of_expand bounded standing exact expanded
    exact ⟨splits.exact u member, splits.dearer u member⟩
  obtain ⟨shared, priced⟩ := wf.outcomes_share bounded standing exact
  exact ⟨shared, priced, (wf.outcomes_sorted_of dearer sorted standing exact).1⟩

omit [BEq σ] [BEq ν] in
/-- The tails that a search starts with share out the chains to its last node. -/
theorem WellFormed.seeds_share (wf : l.WellFormed) (bounded : l.Bounded finish)
    {origin : Origin} (follows : finish.origin = some origin)
    (present : l.steps[origin.step]? = some before) {seeds : List (Tail σ ν)}
    (grown : (before.nodes.zip finish.edgeCosts).filterMap
      (Tail.grown? [finish] finish.entry.cost) = seeds) :
    l.ways (origin.step + 1) finish = seeds.flatMap l.completions ∧
    ∀ t ∈ seeds, t.Exact l finish := by
  by_cases blocked : finish.entry.cost = .infinite
  · have none : seeds = [] := by
      rw [← grown, blocked, Tail.filterMap_grown?_infinite]
    rw [ways_of_infinite blocked, none]
    exact ⟨rfl, by simp⟩
  · have ends : l.Ends finish finish [] [] finish.entry.cost :=
      ⟨.done, blocked, (Int.add_zero _).symm⟩
    have shared := ends.completions wf bounded follows present (Nat.lt_succ_self _)
    simp only [List.append_nil, List.map_id'] at shared
    refine ⟨grown ▸ shared, ?_⟩
    intro t member
    obtain ⟨pred, inside, known⟩ := List.mem_filterMap.mp (grown ▸ member)
    exact (ends.grown wf bounded follows present inside known).1

theorem WellFormed.seeds_enumerate (wf : l.WellFormed) (bounded : l.Bounded finish)
    {origin : Origin} (follows : finish.origin = some origin)
    (present : l.steps[origin.step]? = some before) {seeds : List (Tail σ ν)}
    (grown : (before.nodes.zip finish.edgeCosts).filterMap
      (Tail.grown? [finish] finish.entry.cost) = seeds)
    (standing : ∀ t ∈ seeds, t.Standing l) :
    l.Enumerates finish (l.outcomes .empty (Tail.enterAll seeds []))
      (l.ways (origin.step + 1) finish) := by
  have waiting : (Tail.enterAll seeds []).Perm seeds := by
    have entered := Tail.enterAll_perm seeds []
    rwa [List.append_nil] at entered
  obtain ⟨shared, exact⟩ := wf.seeds_share bounded follows present grown
  have enumerated := wf.outcomes_enumerate bounded (Tail.sorted_enterAll .nil)
    (fun t member => standing t (waiting.mem_iff.mp member))
    (fun t member => exact t (waiting.mem_iff.mp member))
  rw [shared]
  exact ⟨enumerated.perm.trans (waiting.flatMap_right _), enumerated.cost, enumerated.sorted⟩

theorem WellFormed.drain_enumerates (wf : l.WellFormed) (bounded : l.Bounded finish)
    {identity : Nat} {e : Enumeration σ ν}
    (accepted : Enumeration.start identity l finish .empty = .ok e) :
    ∃ origin before, finish.origin = some origin ∧ l.steps[origin.step]? = some before ∧
      l.Enumerates finish e.drain (l.ways (origin.step + 1) finish) := by
  obtain ⟨origin, before, follows, present, known, drained⟩ :=
    Enumeration.drain_of_start wf accepted
  rw [Tail.filter_empty_admits] at drained
  refine ⟨origin, before, follows, present, ?_⟩
  rw [drained]
  exact wf.seeds_enumerate bounded follows present rfl (Tail.standing_seeds follows known)

/-- Draining an enumeration without a pattern gives each chain to the last node that has
nothing out of reach once and nothing else, at the integer sum of its costs, and no path
after a dearer one. -/
theorem drain_every_path [Sequence σ] (reachable : l.Reachable) (bounded : l.Bounded finish)
    {identity : Nat} {e : Enumeration σ ν}
    (accepted : Enumeration.start identity l finish .empty = .ok e) :
    (∀ path, path ∈ e.drain ↔ ∃ costs, Chain l.Passes path.nodes costs finish ∧
      path.cost.val = Cost.exact costs) ∧
    (e.drain.map Path.nodes).Nodup ∧
    e.drain.Pairwise fun first second => first.cost ≤ second.cost := by
  have wf := reachable.wellFormed
  obtain ⟨origin, before, follows, present, enumerated⟩ := wf.drain_enumerates bounded accepted
  have earlier := Nat.lt_succ_self origin.step
  refine ⟨?_, ?_, enumerated.sorted⟩
  · intro path
    constructor
    · exact enumerated.cost path
    · rintro ⟨costs, chain, value⟩
      have listed : path.nodes ∈ l.ways (origin.step + 1) finish :=
        (mem_ways_of_follows follows present earlier fun m => wf.mem_ways present).mpr
          ⟨costs, chain⟩
      obtain ⟨other, inside, nodes⟩ := List.mem_map.mp (enumerated.perm.mem_iff.mpr listed)
      obtain ⟨costs', chain', value'⟩ := enumerated.cost other inside
      obtain rfl := wf.costs_unique chain (nodes ▸ chain')
      have cost : other.cost = path.cost := Cost.ext_val (value'.trans value.symm)
      have same : other = path := by
        obtain ⟨_, _⟩ := other
        obtain ⟨_, _⟩ := path
        cases nodes
        cases cost
        rfl
      exact same ▸ inside
  · rw [enumerated.perm.nodup_iff]
    exact nodup_ways_of_follows wf follows present earlier fun _ => wf.nodup_ways present

end Lattice

theorem Overlap.bounded : lattice.Bounded lattice.ending :=
  reachable.wellFormed.bounded_of_small (w := 8) (by decide) (by decide) (by decide)

/-- The paths of "ab" are enumerated without those that have no edge between the words. -/
theorem Overlap.drain_every_reading : lattice.Reachable ∧ lattice.Bounded lattice.ending ∧
    ∃ e, Enumeration.start 0 lattice lattice.ending .empty = .ok e ∧
      e.drain.map Path.outline = [([none, some 0, some 2, none], 4), ([none, some 3, none], 10)] ∧
      (∀ path, path ∈ e.drain ↔ ∃ costs,
        Chain lattice.Passes path.nodes costs lattice.ending ∧
          path.cost.val = Cost.exact costs) ∧
      (e.drain.map Path.nodes).Nodup ∧
      e.drain.Pairwise fun first second => first.cost ≤ second.cost := by
  obtain ⟨e, accepted, paths⟩ := map_ok_iff.mp drain_outlines
  exact ⟨reachable, bounded, e, accepted, paths,
    Lattice.drain_every_path reachable bounded accepted⟩

end Segmentation
