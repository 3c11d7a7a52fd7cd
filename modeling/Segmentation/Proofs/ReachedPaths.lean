import Segmentation.Proofs.Ending
import Mathlib.Data.List.Chain

/-! What every path that an enumeration reaches is, at any costs and with any pattern.
A tail is completed along best predecessors that are not looked at again. As its own nodes are
within reach, so are these, and nothing between them is out of reach. Paths that are reached
use up different chains, and chains to one last node are told apart by the numbers of their
nodes. -/
namespace Segmentation

variable {σ ν : Type}

/-- The nodes before a last one, of which there are some, are all within reach. -/
def Approaches (finish : Node σ ν) (nodes : List (Node σ ν)) : Prop :=
  ∃ n front, nodes = n :: front ++ [finish] ∧ ∀ m ∈ n :: front, m.pathCost ≠ .infinite

/-- The first node stands where the second one has it, in the step that the second one
follows, and neither the node nor the edge between them is out of reach. -/
def Lattice.Links (l : Lattice σ ν) (m n : Node σ ν) : Prop :=
  ∃ origin nodes edge, n.origin = some origin ∧ l.nodesAt origin.step = .ok nodes ∧
    nodes[m.index]? = some m ∧ n.edgeCosts[m.index]? = some edge ∧
    edge ≠ .infinite ∧ m.pathCost ≠ .infinite

/-- A path of the lattice to a last node that matches. The path cost of the last node itself
can be anything. -/
structure Path.Proper [BEq σ] [BEq ν] (l : Lattice σ ν) (finish : Node σ ν) (p : Pattern σ ν)
    (path : Path σ ν) : Prop where
  first : path.nodes.head? = some (.start [])
  last : path.nodes.getLast? = some finish
  links : path.nodes.IsChain l.Links
  cost : path.cost ≠ .infinite
  accepted : p.accepts path.nodes = true

namespace Approaches

variable {finish n : Node σ ν} {nodes rest : List (Node σ ν)}

theorem cons (approaches : Approaches finish nodes) (reached : n.pathCost ≠ .infinite) :
    Approaches finish (n :: nodes) := by
  obtain ⟨m, front, rfl, all⟩ := approaches
  exact ⟨n, m :: front, rfl, List.forall_mem_cons.mpr ⟨reached, all⟩⟩

theorem head (approaches : Approaches finish (n :: rest)) : n.pathCost ≠ .infinite := by
  obtain ⟨m, front, same, all⟩ := approaches
  obtain ⟨rfl, _⟩ := List.cons.inj same
  exact all n List.mem_cons_self

theorem dropLast (approaches : Approaches finish nodes) :
    ∀ m ∈ nodes.dropLast, m.pathCost ≠ .infinite := by
  obtain ⟨n, front, rfl, all⟩ := approaches
  rw [List.dropLast_concat]
  exact all

/-- What grows from such nodes goes on within reach. -/
theorem grown (approaches : Approaches finish nodes) {cost : Cost} {pred : Node σ ν × Cost}
    {t : Tail σ ν} (grown : Tail.grown? nodes cost pred = some t) : Approaches finish t.nodes := by
  obtain ⟨finite, rfl⟩ := Tail.grown?_eq_some_iff.mp grown
  exact approaches.cons (Cost.add_right_ne_infinite finite)

end Approaches

theorem Chain.head? {joins : Node σ ν → Cost → Node σ ν → Prop} {nodes : List (Node σ ν)}
    {costs : List Cost} {n : Node σ ν} (chain : Chain joins nodes costs n) :
    nodes.head? = some (.start []) := by
  induction chain with
  | start => rfl
  | next _ _ ih => rw [List.head?_append, ih, Option.some_or]

namespace Lattice

variable {l : Lattice σ ν} {p : Pattern σ ν} {finish m n : Node σ ν} {before : Step σ ν}
  {place : Nat} {edge cost : Cost} {nodes nodes' rest : List (Node σ ν)} {costs costs' : List Cost}

/-- A node that another follows is found there by its number. -/
theorem WellFormed.links (wf : l.WellFormed) (passes : l.Passes m edge n)
    (reached : m.pathCost ≠ .infinite) : l.Links m n := by
  obtain ⟨⟨origin, nodes, follows, there, member⟩, finite, _⟩ := passes
  obtain ⟨before, present, rfl⟩ := nodesAt_eq_ok_iff.mp there
  obtain ⟨i, get⟩ := List.mem_iff_getElem?.mp member
  obtain rfl := wf.index_of_get present get
  obtain ⟨node, edge⟩ := List.getElem?_zip_eq_some.mp get
  exact ⟨origin, before.nodes, _, follows, there, node, edge, finite, reached⟩

theorem WellFormed.isChain_links (wf : l.WellFormed) (chain : Chain l.Passes nodes costs n)
    (reached : ∀ m ∈ nodes.dropLast, m.pathCost ≠ .infinite) : nodes.IsChain l.Links := by
  induction chain with
  | start => exact List.isChain_singleton _
  | @next nodes costs m edge n chain passes ih =>
    rw [List.dropLast_concat] at reached
    have inside := List.mem_of_getLast? chain.getLast?
    rw [List.isChain_append]
    refine ⟨ih fun k member => reached k (List.dropLast_subset nodes member),
      List.isChain_singleton n, ?_⟩
    rintro _ last _ ⟨⟩
    obtain rfl := Option.some.inj (chain.getLast?.symm.trans last)
    exact wf.links passes (reached m inside)

/-- The numbers of its nodes tell a chain apart from all others to its last node. -/
theorem WellFormed.eq_of_indices (wf : l.WellFormed) (chain : Chain l.Joins nodes costs n)
    (chain' : Chain l.Joins nodes' costs' n)
    (same : nodes.map Node.index = nodes'.map Node.index) : nodes = nodes' := by
  induction chain generalizing nodes' costs' with
  | start => exact (start_chain chain').1.symm
  | @next nodes costs m edge n chain joined ih =>
    obtain ⟨_, _, rfl⟩ | ⟨front, met, m', edge', before', joined', rfl, _⟩ := chain'.invert
    · exact absurd joined (not_joins_start [])
    rw [List.map_append, List.map_append] at same
    have fronts := List.append_cancel_right same
    have index : m.index = m'.index := by
      have ends := congrArg List.getLast? fronts
      rw [List.getLast?_map, List.getLast?_map, chain.getLast?, before'.getLast?] at ends
      exact Option.some.inj ends
    obtain ⟨rfl, _⟩ := wf.joins_unique joined joined' index
    rw [ih before' fronts]

variable [BEq σ] [BEq ν]

theorem indices_of_beq (same : (nodes == nodes') = true) :
    nodes.map Node.index = nodes'.map Node.index := by
  induction nodes generalizing nodes' with
  | nil =>
    cases nodes' with
    | nil => rfl
    | cons => contradiction
  | cons m nodes ih =>
    cases nodes' with
    | nil => contradiction
    | cons m' nodes' =>
      rw [List.cons_beq_cons, Bool.and_eq_true] at same
      obtain ⟨first, later⟩ := same
      have all : (m.entry == m'.entry && m.index == m'.index && m.origin == m'.origin &&
        m.edgeCosts == m'.edgeCosts && m.pathCost == m'.pathCost) = true := first
      simp only [Bool.and_eq_true, beq_iff_eq] at all
      rw [List.map_cons, List.map_cons, ih later, all.1.1.1.2]

theorem WellFormed.retrace_approaches (wf : l.WellFormed) (present : l.steps[place]? = some before)
    (member : n ∈ before.nodes) (approaches : Approaches finish (n :: rest)) {x : Expansion σ ν}
    (retraced : l.retrace p place n rest cost = .ok x) :
    (∀ t ∈ x.tails, Approaches finish t.nodes) ∧ ∀ nodes ∈ x.nodes, Approaches finish nodes := by
  refine wf.node_induction (motive := fun place n => ∀ rest cost x,
    Approaches finish (n :: rest) → l.retrace p place n rest cost = .ok x →
      (∀ t ∈ x.tails, Approaches finish t.nodes) ∧ ∀ nodes ∈ x.nodes, Approaches finish nodes)
    ?start ?follow present member rest cost x approaches retraced
  case start =>
    intro rest cost x approaches retraced
    rw [retrace_start] at retraced
    cases retraced
    simpa using approaches
  case follow =>
    intro place n step before earlier relaxed onward rest cost x approaches retraced
    obtain ⟨m, edge, best⟩ := relaxed.best (wf.filled_of_get relaxed.present)
    have passed : ∀ t ∈ (before.others n).filterMap (Tail.grown? (n :: rest) cost),
        Approaches finish t.nodes := by
      intro t member
      obtain ⟨_, _, grown⟩ := List.mem_filterMap.mp member
      exact approaches.grown grown
    obtain ⟨further, _, retraced', rfl⟩ | ⟨_, rfl⟩ := relaxed.retrace_cases earlier best retraced
    · have reached := (best.reached approaches.head).1
      obtain ⟨later, complete⟩ := onward m best.inside _ _ _ (approaches.cons reached) retraced'
      refine ⟨?_, complete⟩
      intro t member
      exact (List.mem_append.mp member).elim (passed t) (later t)
    · exact ⟨passed, nofun⟩

theorem WellFormed.expand_approaches (wf : l.WellFormed) {t : Tail σ ν} {x : Expansion σ ν}
    (standing : t.Standing l) (approaches : Approaches finish t.nodes)
    (expanded : l.expand p t = .ok x) :
    (∀ u ∈ x.tails, Approaches finish u.nodes) ∧ ∀ nodes ∈ x.nodes, Approaches finish nodes := by
  obtain ⟨_, _, _, nodes, present, member⟩ := standing
  rw [nodes] at approaches
  rw [expand, nodes] at expanded
  exact wf.retrace_approaches present member approaches expanded

/-- What a tail within reach leads to is within reach, as far as it is queued. -/
theorem WellFormed.expand_within_reach (wf : l.WellFormed) {t : Tail σ ν} {x : Expansion σ ν}
    (reaching : t.Eligible l p ∧ Approaches finish t.nodes) (expanded : l.expand p t = .ok x) :
    (∀ u ∈ x.tails, u.Admitted p = true → u.Eligible l p ∧ Approaches finish u.nodes) ∧
    ∀ nodes ∈ x.nodes, Approaches finish nodes := by
  obtain ⟨eligible, approaches⟩ := reaching
  obtain ⟨_, _, again, _, further, _⟩ := wf.expand_eligible eligible
  obtain rfl := Except.ok.inj (expanded.symm.trans again)
  obtain ⟨later, complete⟩ := wf.expand_approaches eligible.standing approaches expanded
  exact ⟨fun u member admitted => ⟨further u member admitted, later u member⟩, complete⟩

theorem Pops.approaches (wf : l.WellFormed) {ts us : List (Tail σ ν)}
    {results : List (Option (Path σ ν))} (pops : l.Pops p ts results us)
    (eligible : ∀ t ∈ ts, t.Eligible l p) (all : ∀ t ∈ ts, Approaches finish t.nodes) :
    (∀ path ∈ results.reduceOption, Approaches finish path.nodes) ∧
    ∀ u ∈ us, Approaches finish u.nodes := by
  have reaching : ∀ t ∈ ts, t.Eligible l p ∧ Approaches finish t.nodes :=
    fun t member => ⟨eligible t member, all t member⟩
  constructor
  · exact pops.forall_paths (fun _ _ => wf.expand_within_reach) reaching
  · intro u member
    exact (pops.forall_tails (fun _ _ reaching expanded =>
      (wf.expand_within_reach reaching expanded).1) reaching u member).2

end Lattice

namespace Enumeration

variable [BEq σ] [BEq ν] {l : Lattice σ ν} {p : Pattern σ ν} {finish : Node σ ν}
  {e after : Enumeration σ ν} {seeds : List (Tail σ ν)} {paths : List (Path σ ν)} {identity : Nat}

theorem Begins.approaches (begins : Begins l finish p seeds) :
    ∀ t ∈ seeds, Approaches finish t.nodes := by
  obtain ⟨_, _, _, _, begun⟩ := begins
  intro t member
  obtain ⟨⟨m, edge⟩, _, grown⟩ :=
    List.mem_filterMap.mp (List.mem_filter.mp (begun.perm.mem_iff.mp member)).1
  obtain ⟨finite, rfl⟩ := Tail.grown?_eq_some_iff.mp grown
  refine ⟨m, [], rfl, ?_⟩
  simpa using Cost.add_right_ne_infinite finite

theorem Underway.approaches (wf : l.WellFormed) (begins : Begins l finish p seeds)
    (underway : Underway l finish p seeds paths e) :
    (∀ path ∈ paths ++ e.ahead.toList, Approaches finish path.nodes) ∧
    ∀ t ∈ e.frontier.tails, Approaches finish t.nodes := by
  obtain ⟨results, pops, reached⟩ := underway.pops
  have within := pops.approaches wf begins.eligible begins.approaches
  rwa [reached] at within

/-- The paths that have been reached, the one ahead and the completions of the tails that wait
are different chains to the last node. -/
theorem Underway.apart (wf : l.WellFormed) (begins : Begins l finish p seeds)
    (underway : Underway l finish p seeds paths e) :
    ((paths ++ e.ahead.toList).map Path.nodes ++ e.frontier.tails.flatMap l.completions).Nodup ∧
    ∀ path ∈ paths ++ e.ahead.toList, (∃ costs, Chain l.Passes path.nodes costs finish) ∧
      p.accepts path.nodes = true ∧ path.cost ≠ .infinite := by
  obtain ⟨results, pops, reached⟩ := underway.pops
  obtain ⟨origin, before, follows, present, whole⟩ := begins.shares
  obtain ⟨used, paired, shares⟩ := pops.shares wf begins.eligible
  obtain ⟨sublist, good⟩ := sublist_of_used paired
  rw [reached] at sublist good
  have known := (sublist.append (.refl (e.frontier.tails.flatMap l.completions))).subperm.trans
    (shares.trans whole)
  have once := Lattice.nodup_ways_of_follows wf follows present (Nat.lt_succ_self _)
    fun _ => wf.nodup_ways present
  refine ⟨nodup_of_subperm known once, ?_⟩
  intro path member
  have listed := known.subset (List.mem_append_left _ (List.mem_map_of_mem member))
  have chain := (Lattice.mem_ways_of_follows follows present (Nat.lt_succ_self _)
    fun m => wf.mem_ways present).mp listed
  exact ⟨chain, good path member⟩

/-- What an enumeration has reached uses up chains to its last node, each of them once. -/
theorem Underway.used (wf : l.WellFormed) (begins : Begins l finish p seeds)
    (underway : Underway l finish p seeds paths e) :
    (paths.map Path.nodes).Nodup ∧ ∀ path ∈ paths,
      (∃ costs, Chain l.Passes path.nodes costs finish) ∧ Approaches finish path.nodes ∧
      p.accepts path.nodes = true ∧ path.cost ≠ .infinite := by
  obtain ⟨approaches, _⟩ := underway.approaches wf begins
  obtain ⟨once, all⟩ := underway.apart wf begins
  rw [List.map_append, List.append_assoc] at once
  refine ⟨(List.nodup_append.mp once).1, ?_⟩
  intro path member
  have inside := List.mem_append_left e.ahead.toList member
  obtain ⟨chain, good⟩ := all path inside
  exact ⟨chain, approaches path inside, good⟩

end Enumeration

namespace Lattice

/-- A path that an enumeration reaches at any time goes from the start to the last node of the
search along edges that are not out of reach, through nodes that are not, and matches, and no
other one that has been reached has equal nodes. -/
theorem reached_paths_sound [Sequence σ] [BEq σ] [BEq ν] {l : Lattice σ ν} {p : Pattern σ ν}
    {finish : Node σ ν} {e after : Enumeration σ ν} {paths : List (Path σ ν)} {identity : Nat}
    (reachable : l.Reachable) (accepted : Enumeration.start identity l finish p = .ok e)
    (reaches : e.Reaches paths after) :
    (∀ path ∈ paths, path.Proper l finish p) ∧
    paths.Pairwise fun first second => (first.nodes == second.nodes) = false := by
  have wf := reachable.wellFormed
  obtain ⟨seeds, begins, first⟩ := Enumeration.underway_of_start accepted
  obtain ⟨once, all⟩ := (reaches.underway wf begins first).used wf begins
  constructor
  · intro path member
    obtain ⟨⟨costs, chain⟩, approaches, accepted, finite⟩ := all path member
    exact ⟨chain.head?, chain.getLast?, wf.isChain_links chain approaches.dropLast, finite,
      accepted⟩
  · rw [List.Nodup, List.pairwise_map] at once
    refine once.imp_of_mem ?_
    intro path path' member member' different
    obtain ⟨⟨_, chain⟩, _⟩ := all path member
    obtain ⟨⟨_, chain'⟩, _⟩ := all path' member'
    rw [Bool.eq_false_iff]
    intro same
    exact different (wf.eq_of_indices chain.joins chain'.joins (indices_of_beq same))

end Lattice

namespace Overlap

/-- Both paths of "ab" are reached, and each is a path of its own. -/
theorem reached_paths_sound_both : lattice.Reachable ∧
    ∃ e paths after, Enumeration.start 0 lattice lattice.ending .empty = .ok e ∧
      e.Reaches paths after ∧ paths.map Path.cost = [4, 10] ∧
      (∀ path ∈ paths, path.Proper lattice lattice.ending .empty) ∧
      paths.Pairwise fun first second => (first.nodes == second.nodes) = false := by
  have reported : (fun e => (e.take 2).1.map Path.cost) <$>
      Enumeration.start 0 lattice lattice.ending .empty = .ok [4, 10] := by decide +kernel
  have settled : lattice.settle.result = .ok lattice.ending := rfl
  obtain ⟨e, accepted⟩ := Enumeration.start_of_settled reachable.wellFormed settled 0 .empty
  rw [accepted] at reported
  have reaches := e.reaches_take 2
  exact ⟨reachable, e, _, _, accepted, reaches, Except.ok.inj reported,
    Lattice.reached_paths_sound reachable accepted reaches⟩

end Overlap

end Segmentation
