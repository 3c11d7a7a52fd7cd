import Segmentation.Proofs.Reachable

/-! Chains of nodes through a lattice, each node among those that the next one
follows, with the costs met on the way. -/
namespace Segmentation

variable {σ ν : Type}

namespace Lattice

/-- The first node is one that the second follows, over an edge of this cost. -/
def Joins (l : Lattice σ ν) (m : Node σ ν) (edge : Cost) (n : Node σ ν) : Prop :=
  ∃ origin nodes, n.origin = some origin ∧ l.nodesAt origin.step = .ok nodes ∧
    (m, edge) ∈ nodes.zip n.edgeCosts

/-- The first node is the best one that the second follows. -/
def JoinsBest (l : Lattice σ ν) (m : Node σ ν) (edge : Cost) (n : Node σ ν) : Prop :=
  ∃ origin nodes, n.origin = some origin ∧ l.nodesAt origin.step = .ok nodes ∧
    (nodes.zip n.edgeCosts)[origin.best]? = some (m, edge)

end Lattice

/-- The nodes from the start of the input to a last one, and what each edge and
each node after the start costs. -/
inductive Chain (joins : Node σ ν → Cost → Node σ ν → Prop) :
    List (Node σ ν) → List Cost → Node σ ν → Prop where
  | start : Chain joins [.start []] [] (.start [])
  | next : Chain joins nodes costs m → joins m edge n →
      Chain joins (nodes ++ [n]) (costs ++ [edge, n.entry.cost]) n

namespace Chain

variable {joins joins' : Node σ ν → Cost → Node σ ν → Prop} {nodes : List (Node σ ν)}
  {costs : List Cost} {n : Node σ ν}

theorem mono (weaker : ∀ m edge n, joins m edge n → joins' m edge n)
    (chain : Chain joins nodes costs n) : Chain joins' nodes costs n := by
  induction chain with
  | start => exact .start
  | next _ joined ih => exact .next ih (weaker _ _ _ joined)

theorem invert (chain : Chain joins nodes costs n) :
    (nodes = [.start []] ∧ costs = [] ∧ n = .start []) ∨
    ∃ front met m edge, Chain joins front met m ∧ joins m edge n ∧
      nodes = front ++ [n] ∧ costs = met ++ [edge, n.entry.cost] := by
  cases chain with
  | start => exact .inl ⟨rfl, rfl, rfl⟩
  | next chain joined => exact .inr ⟨_, _, _, _, chain, joined, rfl, rfl⟩

theorem getLast? (chain : Chain joins nodes costs n) : nodes.getLast? = some n := by
  cases chain with
  | start => rfl
  | next => exact List.getLast?_concat

/-- The cost of the last node is on the list, unless it is the start. -/
theorem entry_cost_mem (chain : Chain joins nodes costs n) :
    n.entry.cost = 0 ∨ n.entry.cost ∈ costs := by
  cases chain with
  | start => exact .inl rfl
  | next => exact .inr (by simp)

end Chain

namespace Lattice

variable {l : Lattice σ ν} {step : Nat} {before : Step σ ν} {m n : Node σ ν} {edge : Cost}
  {nodes : List (Node σ ν)} {costs : List Cost}

theorem JoinsBest.joins (best : l.JoinsBest m edge n) : l.Joins m edge n := by
  obtain ⟨origin, nodes, follows, there, get⟩ := best
  exact ⟨origin, nodes, follows, there, List.mem_of_getElem? get⟩

theorem joins_iff {origin : Origin} (follows : n.origin = some origin)
    (present : l.steps[origin.step]? = some before) :
    l.Joins m edge n ↔ (m, edge) ∈ before.nodes.zip n.edgeCosts := by
  constructor
  · rintro ⟨other, nodes, follows', there, member⟩
    obtain rfl := Option.some.inj (follows.symm.trans follows')
    obtain rfl := Except.ok.inj ((nodesAt_of_get present).symm.trans there)
    exact member
  · intro member
    exact ⟨origin, before.nodes, follows, nodesAt_of_get present, member⟩

theorem Relaxed.joins_iff (relaxed : l.Relaxed step before n) :
    l.Joins m edge n ↔ (m, edge) ∈ before.nodes.zip n.edgeCosts :=
  Lattice.joins_iff relaxed.origin relaxed.present

theorem not_joins_start (edgeCosts : List Cost) : ¬ l.Joins m edge (.start edgeCosts) := by
  rintro ⟨_, _, follows, _⟩
  contradiction

theorem start_chain (chain : Chain l.Joins nodes costs (.start [])) :
    nodes = [.start []] ∧ costs = [] := by
  obtain ⟨rfl, rfl, _⟩ | ⟨_, _, _, _, _, joined, _⟩ := chain.invert
  · exact ⟨rfl, rfl⟩
  · exact absurd joined (not_joins_start [])

theorem WellFormed.filled_of_get (wf : l.WellFormed) (present : l.steps[step]? = some before) :
    before.nodes ≠ [] :=
  wf.filled before (List.mem_of_getElem? present)

theorem WellFormed.start_or_relaxed (wf : l.WellFormed) (present : l.steps[step]? = some before)
    (member : n ∈ before.nodes) : n = .start [] ∨ ∃ step before, l.Relaxed step before n :=
  wf.node_induction (motive := fun _ n => n = .start [] ∨ ∃ step before, l.Relaxed step before n)
    (.inl rfl) (fun _ _ step before _ relaxed _ => .inr ⟨step, before, relaxed⟩) present member

/-- No chain is cheaper than the cost that a node has been given. -/
theorem WellFormed.pathCost_le (wf : l.WellFormed) (chain : Chain l.Joins nodes costs n)
    (known : n = .start [] ∨ ∃ step before, l.Relaxed step before n) :
    n.pathCost ≤ Cost.total costs := by
  induction chain with
  | start => exact Cost.le_refl _
  | @next nodes costs m edge n _ joined ih =>
    obtain ⟨step, before, relaxed⟩ : ∃ step before, l.Relaxed step before n := by
      refine known.resolve_left ?_
      rintro rfl
      exact not_joins_start [] joined
    have member := relaxed.joins_iff.mp joined
    have lower := ih (wf.start_or_relaxed relaxed.present (List.of_mem_zip member).1)
    obtain ⟨b, first, best⟩ := relaxed.best (wf.filled_of_get relaxed.present)
    rw [List.append_cons, Cost.total_concat, Cost.total_concat, best.cost]
    apply Cost.add_le_add_right
    exact Cost.le_trans (best.least (m, edge) member) (Cost.add_le_add_right lower edge)

/-- A node has a best chain if the nodes that it follows do. -/
theorem Relaxed.best_chain (relaxed : l.Relaxed step before n) (filled : before.nodes ≠ [])
    (chains : ∀ m ∈ before.nodes, ∃ nodes costs, Chain l.JoinsBest nodes costs m ∧
      Cost.total costs = m.pathCost) :
    ∃ nodes costs, Chain l.JoinsBest nodes costs n ∧ Cost.total costs = n.pathCost := by
  obtain ⟨m, edge, best⟩ := relaxed.best filled
  obtain ⟨nodes, costs, chain, total⟩ := chains m best.inside
  refine ⟨nodes ++ [n], costs ++ [edge, n.entry.cost], .next chain ?_, ?_⟩
  · exact ⟨_, before.nodes, relaxed.origin, nodesAt_of_get relaxed.present, best.get⟩
  · rw [List.append_cons, Cost.total_concat, Cost.total_concat, total, best.cost]

theorem WellFormed.best_chain (wf : l.WellFormed) (present : l.steps[step]? = some before)
    (member : n ∈ before.nodes) :
    ∃ nodes costs, Chain l.JoinsBest nodes costs n ∧ Cost.total costs = n.pathCost :=
  wf.node_induction (motive := fun _ n =>
      ∃ nodes costs, Chain l.JoinsBest nodes costs n ∧ Cost.total costs = n.pathCost)
    ⟨_, _, .start, rfl⟩
    (fun _ _ _ _ _ relaxed chains =>
      relaxed.best_chain (wf.filled_of_get relaxed.present) chains)
    present member

end Lattice

end Segmentation
