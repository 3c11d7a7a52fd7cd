import Segmentation.Proofs.CheapestFirst
import Segmentation.Proofs.Completion
import Mathlib.Data.List.Perm.Subperm

/-! Which complete chains a search without a pattern finds, at any costs.
Along the best predecessors it always goes on. Another predecessor is given up if the cost
from the end and the cost of the way to it come to "no way" together, and with it go all
chains through it. None of them is lost whose costs stay within the range when they are
added up from the start and when they are added up from the end. -/
namespace Segmentation

variable {σ ν : Type}

theorem nodup_of_subperm {α : Type} {xs ys : List α} (shares : xs.Subperm ys) (once : ys.Nodup) :
    xs.Nodup := by
  obtain ⟨zs, perm, some⟩ := shares
  exact perm.nodup_iff.mp (once.sublist some)

namespace Lattice

/-- The nodes up to one that are found in front of a tail which begins with this node and
costs so much. -/
inductive Finds (l : Lattice σ ν) : List (Node σ ν) → Node σ ν → Cost → Prop where
  | start : Finds l [.start []] (.start []) cost
  | best : l.JoinsBest m edge n → Finds l nodes m (cost + edge + m.entry.cost) →
      Finds l (nodes ++ [n]) n cost
  | aside : l.Joins m edge n → cost + edge + m.pathCost ≠ .infinite →
      Finds l nodes m (cost + edge + m.entry.cost) → Finds l (nodes ++ [n]) n cost

/-- A tail with these nodes and this cost is completed to a path, now or later. -/
def Leads (l : Lattice σ ν) (tail : List (Node σ ν)) (cost : Cost) (path : List (Node σ ν)) :
    Prop :=
  ∃ n rest nodes, tail = n :: rest ∧ l.Finds nodes n cost ∧ path = nodes ++ rest

variable {l : Lattice σ ν} {step place : Nat} {before : Step σ ν} {m n : Node σ ν}
  {edge cost : Cost} {nodes rest path : List (Node σ ν)} {origin : Origin}

theorem leads_cons : l.Leads (n :: rest) cost path ↔
    ∃ nodes, l.Finds nodes n cost ∧ path = nodes ++ rest := by
  constructor
  · rintro ⟨_, _, nodes, same, finds, rfl⟩
    obtain ⟨rfl, rfl⟩ := List.cons.inj same
    exact ⟨nodes, finds, rfl⟩
  · rintro ⟨nodes, finds, rfl⟩
    exact ⟨n, rest, nodes, rfl, finds, rfl⟩

theorem finds_start : l.Finds nodes (.start []) cost ↔ nodes = [.start []] := by
  constructor
  · intro finds
    cases finds with
    | start => rfl
    | best joined => exact absurd joined.joins (not_joins_start [])
    | aside joined => exact absurd joined (not_joins_start [])
  · rintro rfl
    exact .start

theorem Relaxed.joinsBest_iff (relaxed : l.Relaxed step before n) (best : before.Best n m edge)
    {m' : Node σ ν} {edge' : Cost} : l.JoinsBest m' edge' n ↔ m' = m ∧ edge' = edge := by
  constructor
  · rintro ⟨origin, nodes, follows, there, get⟩
    obtain rfl := Option.some.inj (relaxed.origin.symm.trans follows)
    obtain rfl := Except.ok.inj ((nodesAt_of_get relaxed.present).symm.trans there)
    exact Prod.mk.inj (Option.some.inj (get.symm.trans best.get))
  · rintro ⟨rfl, rfl⟩
    exact ⟨_, before.nodes, relaxed.origin, nodesAt_of_get relaxed.present, best.get⟩

/-- What is found in front of a node is found in front of its best predecessor, or of
another one that is not given up. -/
theorem Relaxed.finds_iff (relaxed : l.Relaxed step before n) (best : before.Best n m edge) :
    l.Finds path n cost ↔ ∃ nodes, path = nodes ++ [n] ∧
      (l.Finds nodes m (cost + edge + m.entry.cost) ∨
        ∃ pred ∈ before.others n, cost + pred.2 + pred.1.pathCost ≠ .infinite ∧
          l.Finds nodes pred.1 (cost + pred.2 + pred.1.entry.cost)) := by
  constructor
  · intro finds
    cases finds with
    | start => exact absurd relaxed.origin (by simp [Node.start])
    | best joined finds =>
      obtain ⟨rfl, rfl⟩ := (relaxed.joinsBest_iff best).mp joined
      exact ⟨_, rfl, .inl finds⟩
    | aside joined finite finds =>
      refine ⟨_, rfl, ?_⟩
      have member := (others_perm best).mem_iff.mpr (relaxed.joins_iff.mp joined)
      rcases List.mem_cons.mp member with same | other
      · cases same
        exact .inl finds
      · exact .inr ⟨_, other, finite, finds⟩
  · rintro ⟨nodes, rfl, finds | ⟨⟨m', edge'⟩, other, finite, finds⟩⟩
    · exact .best ((relaxed.joinsBest_iff best).mpr ⟨rfl, rfl⟩) finds
    · exact .aside (relaxed.joins_iff.mpr (List.mem_of_mem_eraseIdx other)) finite finds

theorem Relaxed.leads_iff (relaxed : l.Relaxed step before n) (best : before.Best n m edge) :
    l.Leads (n :: rest) cost path ↔
      l.Leads (m :: n :: rest) (cost + edge + m.entry.cost) path ∨
        ∃ t ∈ (before.others n).filterMap (Tail.grown? (n :: rest) cost),
          l.Leads t.nodes t.cost path := by
  rw [leads_cons, leads_cons]
  constructor
  · rintro ⟨_, finds, rfl⟩
    obtain ⟨nodes, rfl, finds | ⟨pred, other, finite, finds⟩⟩ :=
      (relaxed.finds_iff best).mp finds
    · exact .inl ⟨nodes, finds, (List.append_cons nodes n rest).symm⟩
    · refine .inr ⟨_, List.mem_filterMap.mpr ⟨pred, other,
        Tail.grown?_eq_some_iff.mpr ⟨finite, rfl⟩⟩, leads_cons.mpr ⟨nodes, finds, ?_⟩⟩
      exact (List.append_cons nodes n rest).symm
  · rintro (⟨nodes, finds, rfl⟩ | ⟨t, passed, leads⟩)
    · exact ⟨nodes ++ [n], (relaxed.finds_iff best).mpr ⟨nodes, rfl, .inl finds⟩,
        List.append_cons nodes n rest⟩
    · obtain ⟨pred, other, grown⟩ := List.mem_filterMap.mp passed
      obtain ⟨finite, rfl⟩ := Tail.grown?_eq_some_iff.mp grown
      obtain ⟨nodes, finds, rfl⟩ := leads_cons.mp leads
      exact ⟨nodes ++ [n],
        (relaxed.finds_iff best).mpr ⟨nodes, rfl, .inr ⟨pred, other, finite, finds⟩⟩,
        List.append_cons nodes n rest⟩

/-- Where the best predecessor is not given up, all goes through the tails that grow from
the node. -/
theorem Relaxed.leads_iff_grown (relaxed : l.Relaxed step before n)
    (best : before.Best n m edge) (finite : cost + edge + m.pathCost ≠ .infinite) :
    l.Leads (n :: rest) cost path ↔
      ∃ t ∈ (before.nodes.zip n.edgeCosts).filterMap (Tail.grown? (n :: rest) cost),
        l.Leads t.nodes t.cost path := by
  have all := (others_perm best).filterMap (Tail.grown? (n :: rest) cost)
  rw [List.filterMap_cons_some (Tail.grown?_eq_some_iff.mpr ⟨finite, rfl⟩)] at all
  rw [relaxed.leads_iff best]
  simp only [← all.mem_iff, List.mem_cons, or_and_right, exists_or, exists_eq_left]

/-- Tails that grow from a node have completions of their own, each a chain to the node. -/
theorem completions_sublist (follows : n.origin = some origin) (rest : List (Node σ ν))
    (cost : Cost) (preds : List (Node σ ν × Cost)) :
    List.Sublist ((preds.filterMap (Tail.grown? (n :: rest) cost)).flatMap l.completions)
      (preds.flatMap fun pred => (l.waysOver origin.step n pred).map (· ++ rest)) := by
  induction preds with
  | nil => exact .slnil
  | cons pred preds ih =>
    rw [List.flatMap_cons]
    cases grown : Tail.grown? (n :: rest) cost pred with
    | none =>
      rw [List.filterMap_cons_none grown]
      exact ih.trans (List.sublist_append_right _ _)
    | some t =>
      have finite : pred.2 ≠ .infinite :=
        Cost.add_right_ne_infinite
          (Cost.add_left_ne_infinite (Tail.grown?_eq_some_iff.mp grown).1)
      have same : l.completions t = (l.waysOver origin.step n pred).map (· ++ rest) := by
        rw [completions_of_grown? follows grown, waysOver, if_neg finite, List.map_map]
        apply List.map_congr_left
        intro front _
        exact List.append_cons front n rest
      rw [List.filterMap_cons_some grown, List.flatMap_cons, same]
      exact ih.append_left _

/-- The tails that grow from a last node share out the chains to it. -/
theorem completions_sublist_ways (follows : n.origin = some origin)
    (present : l.steps[origin.step]? = some before) :
    List.Sublist (((before.nodes.zip n.edgeCosts).filterMap
      (Tail.grown? [n] n.entry.cost)).flatMap l.completions) (l.ways (origin.step + 1) n) := by
  by_cases blocked : n.entry.cost = .infinite
  · rw [blocked, Tail.filterMap_grown?_infinite]
    exact List.nil_sublist _
  · have all := completions_sublist (l := l) follows [] n.entry.cost (before.nodes.zip n.edgeCosts)
    simp only [List.append_nil, List.map_id'] at all
    rw [ways_of_follows follows present (Nat.lt_succ_self _) blocked]
    exact all

end Lattice

/-- What comes out of a tail of which nothing is given up that it leads to: a path and
tails, with completions that the tail has as well. -/
structure Expansion.Continues (l : Lattice σ ν) (tail : List (Node σ ν)) (cost : Cost)
    (all : List (List (Node σ ν))) (x : Expansion σ ν) (path : List (Node σ ν)) : Prop where
  nodes : x.nodes = some path
  leads : ∀ whole, l.Leads tail cost whole ↔
    whole = path ∨ ∃ t ∈ x.tails, l.Leads t.nodes t.cost whole
  shares : (path :: x.tails.flatMap l.completions).Subperm all
  priced : ∀ t ∈ x.tails, t.Priced

namespace Lattice

variable {l : Lattice σ ν} {step place : Nat} {before : Step σ ν} {m n : Node σ ν}
  {edge cost : Cost} {nodes rest path : List (Node σ ν)} {origin : Origin}

theorem Relaxed.continues (relaxed : l.Relaxed step before n)
    (earlier : step < place) (best : before.Best n m edge) (reached : n.pathCost ≠ .infinite)
    {further : Expansion σ ν}
    (continues : further.Continues l (m :: n :: rest) (cost + edge + m.entry.cost)
      ((l.ways step m).map (· ++ n :: rest)) path) :
    Expansion.Continues l (n :: rest) cost ((l.ways place n).map (· ++ rest))
      ⟨(before.others n).filterMap (Tail.grown? (n :: rest) cost) ++ further.tails, further.nodes⟩
      path := by
  refine ⟨continues.nodes, ?leads, ?shares, ?priced⟩
  case leads =>
    intro whole
    rw [relaxed.leads_iff best, continues.leads]
    simp only [List.mem_append]
    constructor
    · rintro ((same | ⟨t, member, leads⟩) | ⟨t, member, leads⟩)
      · exact .inl same
      · exact .inr ⟨t, .inr member, leads⟩
      · exact .inr ⟨t, .inl member, leads⟩
    · rintro (same | ⟨t, member | member, leads⟩)
      · exact .inl (.inl same)
      · exact .inr ⟨t, member, leads⟩
      · exact .inl (.inr ⟨t, member, leads⟩)
  case shares =>
    have finite := (best.reached reached).2
    rw [best.cost] at reached
    have first : (l.waysOver step n (m, edge)).map (· ++ rest) =
        (l.ways step m).map (· ++ n :: rest) := by
      rw [waysOver, if_neg finite, List.map_map]
      apply List.map_congr_left
      intro front _
      exact (List.append_cons front n rest).symm
    have passed := completions_sublist (l := l) relaxed.origin rest cost (before.others n)
    have all := (others_perm best).flatMap_right fun pred =>
      (l.waysOver step n pred).map (· ++ rest)
    rw [List.flatMap_cons, first] at all
    rw [ways_of_follows relaxed.origin relaxed.present earlier
      (Cost.add_right_ne_infinite reached), List.map_flatMap]
    dsimp only
    rw [List.flatMap_append]
    exact (List.perm_append_comm.cons path).subperm.trans
      ((continues.shares.append passed.subperm).trans all.subperm)
  case priced =>
    intro t member
    rcases List.mem_append.mp member with new | later
    · obtain ⟨_, _, grown⟩ := List.mem_filterMap.mp new
      exact Tail.priced_of_grown? grown
    · exact continues.priced t later

variable [BEq σ] [BEq ν]

theorem WellFormed.retrace_continues (wf : l.WellFormed)
    (present : l.steps[place]? = some before) (member : n ∈ before.nodes)
    (reached : n.pathCost ≠ .infinite) (rest : List (Node σ ν)) (cost : Cost) :
    ∃ x path, l.retrace .empty place n rest cost = .ok x ∧
      x.Continues l (n :: rest) cost ((l.ways place n).map (· ++ rest)) path := by
  refine wf.node_induction (motive := fun place n => n.pathCost ≠ .infinite → ∀ rest cost,
    ∃ x path, l.retrace .empty place n rest cost = .ok x ∧
      x.Continues l (n :: rest) cost ((l.ways place n).map (· ++ rest)) path)
    ?start ?follow present member reached rest cost
  case start =>
    intro _ rest cost
    refine ⟨_, .start [] :: rest, retrace_start l .empty 0 rest cost, rfl, ?_, ?_, by simp⟩
    · intro whole
      simp [leads_cons, finds_start]
    · rw [ways_start]
      exact .refl _
  case follow =>
    intro place n step before earlier relaxed onward reached rest cost
    obtain ⟨m, edge, best⟩ := relaxed.best (wf.filled_of_get relaxed.present)
    have reached' := (best.reached reached).1
    obtain ⟨further, path, retraced, continues⟩ :=
      onward m best.inside reached' (n :: rest) (cost + edge + m.entry.cost)
    refine ⟨_, path, ?_, relaxed.continues earlier best reached continues⟩
    rw [relaxed.retrace earlier best, Pattern.empty_admits, if_pos rfl, retraced]
    rfl

theorem WellFormed.expand_continues (wf : l.WellFormed) {t : Tail σ ν}
    (standing : t.Standing l) (priced : t.Priced) :
    ∃ x path, l.expand .empty t = .ok x ∧
      x.Continues l t.nodes t.cost (l.completions t) path := by
  obtain ⟨n, rest, _, nodes, present, member⟩ := standing
  obtain ⟨_, _, base, nodes', _, whole, finite⟩ := priced
  obtain ⟨rfl, rfl⟩ := List.cons.inj (nodes.symm.trans nodes')
  rw [whole] at finite
  rw [expand, completions, nodes]
  exact wf.retrace_continues present member (Cost.add_right_ne_infinite finite) rest t.cost

/-- The paths that waiting tails lead to are all found, and each of them once for each of
their completions at most. -/
theorem WellFormed.outcomes_found (wf : l.WellFormed) {ts : List (Tail σ ν)}
    (standing : ∀ t ∈ ts, t.Standing l) (priced : ∀ t ∈ ts, t.Priced) :
    (∀ path, path ∈ (l.outcomes .empty ts).map Path.nodes ↔
      ∃ t ∈ ts, l.Leads t.nodes t.cost path) ∧
    ((l.outcomes .empty ts).map Path.nodes).Subperm (ts.flatMap l.completions) := by
  fun_induction Lattice.outcomes l .empty ts with
  | case1 => exact ⟨by simp, .refl _⟩
  | case2 t ts failure failed =>
    obtain ⟨x, expanded, _⟩ := wf.expand_ok (p := .empty) (standing t List.mem_cons_self)
    rw [failed] at expanded
    contradiction
  | case3 t ts x expanded ih =>
    obtain ⟨y, first, expanded', continues⟩ := wf.expand_continues
      (standing t List.mem_cons_self) (priced t List.mem_cons_self)
    obtain rfl := Except.ok.inj (expanded.symm.trans expanded')
    have waiting := x.queued_empty_perm ts
    obtain ⟨found, shares⟩ := ih
      (wf.expand_queued (standing t List.mem_cons_self)
        (fun u member => standing u (List.mem_cons_of_mem t member)) expanded)
      (fun u member => (Expansion.mem_of_queued member).elim (continues.priced u)
        fun old => priced u (List.mem_cons_of_mem t old))
    rw [continues.nodes, Option.map_some, Option.toList_some, List.map_append]
    constructor
    · intro path
      rw [List.mem_append, found]
      simp only [List.map_cons, List.map_nil, waiting.mem_iff, List.mem_append, List.mem_cons,
        List.not_mem_nil, or_false, or_and_right, exists_or, exists_eq_left, continues.leads,
        or_assoc]
    · rw [List.flatMap_cons]
      have rest := shares.trans (waiting.flatMap_right l.completions).subperm
      rw [List.flatMap_append] at rest
      exact ((List.Subperm.refl [first]).append rest).trans
        (continues.shares.append (.refl _))

omit [BEq σ] [BEq ν] in
/-- From the end of a settled lattice the best predecessor is never given up. -/
theorem WellFormed.settled_best (wf : l.WellFormed) {eos : Node σ ν}
    (settled : l.settle.result = .ok eos) : eos.entry.cost ≠ .infinite ∧
      ∃ m edge, (l.steps.getLastD .start).Best eos m edge ∧
        eos.entry.cost + edge + m.pathCost ≠ .infinite := by
  obtain ⟨relaxed, sentinel, reached⟩ := wf.relaxed_settled settled
  obtain ⟨m, edge, best⟩ := relaxed.best (wf.filled_of_get relaxed.present)
  have zero : eos.entry.cost = 0 := by rw [sentinel]; rfl
  rw [best.cost] at reached
  refine ⟨Cost.add_right_ne_infinite reached, m, edge, best, ?_⟩
  rw [zero, Cost.zero_add, Cost.add_comm]
  exact Cost.add_left_ne_infinite reached

/-- The paths of a settled lattice are those that are found from its end, once each. -/
theorem WellFormed.drain_found (wf : l.WellFormed) {eos : Node σ ν}
    (settled : l.settle.result = .ok eos) (identity : Nat) :
    ∃ e, Enumeration.start identity l eos .empty = .ok e ∧ (e.drain.map Path.nodes).Nodup ∧
      ∀ nodes, nodes ∈ e.drain.map Path.nodes ↔ l.Finds nodes eos eos.entry.cost := by
  obtain ⟨relaxed, _⟩ := wf.relaxed_settled settled
  obtain ⟨_, m, edge, best, finite⟩ := wf.settled_best settled
  obtain ⟨e, accepted⟩ := Enumeration.start_of_settled wf settled identity .empty
  obtain ⟨origin, _, ts, follows, present, seeds, drained⟩ := Enumeration.drain_seeds wf accepted
  obtain rfl := Option.some.inj (relaxed.origin.symm.trans follows)
  obtain rfl := Option.some.inj (relaxed.present.symm.trans present)
  have grown := seeds.perm
  rw [Tail.filter_empty_admits] at grown
  obtain ⟨found, shares⟩ := wf.outcomes_found seeds.standing seeds.priced
  rw [← drained] at found shares
  refine ⟨e, accepted, ?_, ?_⟩
  · have all := completions_sublist_ways (l := l) relaxed.origin relaxed.present
    have once := nodup_ways_of_follows wf relaxed.origin relaxed.present (Nat.lt_succ_self _)
      fun _ => wf.nodup_ways relaxed.present
    refine nodup_of_subperm ?_ once
    exact (shares.trans (grown.flatMap_right l.completions).subperm).trans all.subperm
  · intro nodes
    rw [found]
    simp only [grown.mem_iff]
    rw [← relaxed.leads_iff_grown best finite, leads_cons]
    simp only [List.append_nil, exists_eq_right']

end Lattice

end Segmentation
