import Segmentation.Proofs.Ways

/-! When the costs of all chains to a node stay within the range, so that they are added
up as integers are. Short lattices with small costs are of this kind. -/
namespace Segmentation

variable {σ ν : Type}

/-- The node and the edges to it cost little, unless they are out of reach. -/
def Node.Small (w : Nat) (n : Node σ ν) : Prop :=
  n.entry.cost.val.natAbs ≤ w ∧ ∀ edge ∈ n.edgeCosts, edge = .infinite ∨ edge.val.natAbs ≤ w

instance (w : Nat) (n : Node σ ν) : Decidable (n.Small w) :=
  inferInstanceAs (Decidable (_ ∧ _))

namespace Lattice

variable {l : Lattice σ ν} {step place w : Nat} {before : Step σ ν} {finish m n : Node σ ν}
  {edge : Cost} {nodes : List (Node σ ν)} {costs : List Cost}

/-- No chain to a last node has costs that come near the ends of the range. -/
def Bounded (l : Lattice σ ν) (finish : Node σ ν) : Prop :=
  ∀ nodes costs, Chain l.Passes nodes costs finish → Cost.size costs < 2147483647

theorem Passes.small (passes : l.Passes m edge n) (small : n.Small w) :
    edge.val.natAbs + n.entry.cost.val.natAbs ≤ 2 * w := by
  obtain ⟨⟨origin, nodes, _, _, member⟩, finite, _⟩ := passes
  have low := (small.2 edge (List.of_mem_zip member).2).resolve_left finite
  have := small.1
  omega

/-- Each step that a chain takes adds an edge and a node. -/
theorem WellFormed.size_le (wf : l.WellFormed) (small : ∀ s ∈ l.steps, ∀ n ∈ s.nodes, n.Small w)
    (present : l.steps[place]? = some before) (member : n ∈ before.nodes)
    (chain : Chain l.Passes nodes costs n) : Cost.size costs ≤ 2 * w * place := by
  refine wf.node_induction (motive := fun place n => n.Small w → ∀ nodes costs,
    Chain l.Passes nodes costs n → Cost.size costs ≤ 2 * w * place) ?start ?follow present member
    (small before (List.mem_of_getElem? present) n member) nodes costs chain
  case start =>
    intro _ nodes costs chain
    obtain ⟨_, rfl⟩ := start_chain chain.joins
    exact Nat.zero_le _
  case follow =>
    intro place n step before earlier relaxed onward low nodes costs chain
    obtain ⟨_, rfl, _⟩ | ⟨front, met, m, edge, shorter, passes, _, rfl⟩ := chain.invert
    · exact Nat.zero_le _
    have inside := (List.of_mem_zip (relaxed.joins_iff.mp passes.1)).1
    have first := onward m inside
      (small before (List.mem_of_getElem? relaxed.present) m inside) front met shorter
    have last := passes.small low
    have further : 2 * w * (step + 1) ≤ 2 * w * place := Nat.mul_le_mul_left _ earlier
    rw [Nat.mul_succ] at further
    rw [Cost.size_append, Cost.size_cons, Cost.size_cons, Cost.size_nil]
    omega

theorem WellFormed.bounded_of_small (wf : l.WellFormed)
    (small : ∀ s ∈ l.steps, ∀ n ∈ s.nodes, n.Small w) (last : finish.Small w)
    (range : 2 * w * l.stepCount < 2147483647) : l.Bounded finish := by
  intro nodes costs chain
  obtain ⟨_, rfl, _⟩ | ⟨front, met, m, edge, shorter, passes, _, rfl⟩ := chain.invert
  · exact Nat.succ_pos _
  have final := passes.small last
  obtain ⟨⟨origin, _, follows, there, member⟩, _⟩ := passes
  obtain ⟨before, present, rfl⟩ := nodesAt_eq_ok_iff.mp there
  have first := wf.size_le small present (List.of_mem_zip member).1 shorter
  have earlier : origin.step < l.stepCount := (List.getElem?_eq_some_iff.mp present).1
  have further : 2 * w * (origin.step + 1) ≤ 2 * w * l.stepCount := Nat.mul_le_mul_left _ earlier
  rw [Nat.mul_succ] at further
  rw [Cost.size_append, Cost.size_cons, Cost.size_cons, Cost.size_nil]
  omega

end Lattice

end Segmentation
