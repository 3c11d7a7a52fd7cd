import Segmentation.Frontier

/-! Why a search ends.
A tail weighs a power of a base greater than any step is wide, and the exponent is
the step in which its first node stands. What comes out of a tail stands in
earlier steps, so that all of it together weighs less than the tail. -/
namespace Segmentation

variable {σ ν : Type}

/-- What a tail weighs, by the step in which its first node stands. -/
def Tail.weight (base : Nat) (t : Tail σ ν) : Nat := base.pow t.place

-- The zero is named, for which instance is found depends on what is imported.
def Tail.weights (base : Nat) (ts : List (Tail σ ν)) : Nat :=
  @List.sum Nat _ Zero.ofOfNat0 (ts.map (weight base))

/-- What all that waits weighs. -/
def Frontier.weight (base : Nat) (f : Frontier σ ν) : Nat :=
  Tail.weights base (f.queue.map Ticket.tail)

/-- A base for the tails of a lattice. -/
def Lattice.base (l : Lattice σ ν) : Nat :=
  l.width + 1

theorem Lattice.base_pos (l : Lattice σ ν) : 0 < l.base := Nat.succ_pos _

theorem Lattice.length_lt_base {l : Lattice σ ν} {step : Nat} {nodes : List (Node σ ν)}
    (h : l.nodesAt step = .ok nodes) : nodes.length < l.base := by
  unfold nodesAt at h
  split at h
  next s hs =>
    cases h
    have hm : s ∈ l.steps := List.mem_of_getElem? hs
    unfold base width
    generalize l.steps = steps at hm
    induction steps with
    | nil => simp at hm
    | cons a steps ih =>
      simp only [List.foldr_cons]
      rcases List.mem_cons.mp hm with rfl | hm
      · omega
      · have := ih hm
        omega
  next => cases h

theorem Lattice.predecessors_eq_ok {l : Lattice σ ν} {step : Nat} {edgeCosts : List Cost}
    {preds : List (Node σ ν × Cost)} (h : l.predecessors step edgeCosts = .ok preds) :
    ∃ nodes, l.nodesAt step = .ok nodes ∧ nodes.length = edgeCosts.length ∧
      preds = nodes.zip edgeCosts := by
  unfold predecessors at h
  cases hn : l.nodesAt step with
  | error e => simp [hn, bind, Except.bind] at h
  | ok nodes =>
    simp only [hn, bind, Except.bind, pure, Except.pure] at h
    split at h
    next hl =>
      cases h
      exact ⟨nodes, rfl, hl, rfl⟩
    next => cases h

theorem Lattice.length_predecessors_lt {l : Lattice σ ν} {step : Nat} {edgeCosts : List Cost}
    {preds : List (Node σ ν × Cost)} (h : l.predecessors step edgeCosts = .ok preds) :
    preds.length < l.base := by
  obtain ⟨nodes, hn, _, rfl⟩ := predecessors_eq_ok h
  have := length_lt_base hn
  simp only [List.length_zip]
  omega

namespace Tail

theorem place_of_grown? {node : Node σ ν} {rest : List (Node σ ν)} {cost : Cost}
    {pred : Node σ ν × Cost} {t : Tail σ ν} {origin : Origin} (ho : node.origin = some origin)
    (h : grown? (node :: rest) cost pred = some t) : t.place = origin.step := by
  unfold grown? at h
  dsimp only at h
  split at h
  · cases h
  · cases h
    simp [place, ho]

/-- Tails grown from one node weigh as many units as there are predecessors, at most. -/
theorem weights_grown_le (base : Nat) {node : Node σ ν} {origin : Origin}
    (ho : node.origin = some origin) (rest : List (Node σ ν)) (cost : Cost)
    (preds : List (Node σ ν × Cost)) :
    weights base (preds.filterMap (grown? (node :: rest) cost)) ≤
      preds.length * base.pow origin.step := by
  have unit : ∀ t ∈ preds.filterMap (grown? (node :: rest) cost),
      weight base t = base.pow origin.step := by
    intro t member
    obtain ⟨_, _, grown⟩ := List.mem_filterMap.mp member
    rw [weight, place_of_grown? ho grown]
  rw [weights, List.map_congr_left unit, List.map_const', List.sum_replicate_nat]
  exact Nat.mul_le_mul_right _ (List.length_filterMap_le _ _)

end Tail

section

variable [BEq σ] [BEq ν]

theorem Lattice.weights_retrace_lt {l : Lattice σ ν} {p : Pattern σ ν} {place : Nat}
    {node : Node σ ν} {rest : List (Node σ ν)} {cost : Cost} {x : Expansion σ ν}
    (h : l.retrace p place node rest cost = .ok x) :
    Tail.weights l.base x.tails < l.base.pow place := by
  induction place using Nat.strongRecOn generalizing node rest cost x with
  | ind place ih =>
  unfold retrace at h
  split at h
  next =>
    cases h
    exact Nat.pow_pos l.base_pos
  next origin ho =>
    split at h
    next hlt =>
      cases hp : l.predecessors origin.step node.edgeCosts with
      | error e => simp [hp, bind, Except.bind] at h
      | ok preds =>
        simp only [hp, bind, Except.bind, pure, Except.pure] at h
        split at h
        · cases h
        next best edge hb =>
          obtain ⟨hi, _⟩ := List.getElem?_eq_some_iff.mp hb
          have hl := length_predecessors_lt hp
          have hg := Tail.weights_grown_le l.base ho rest cost (preds.eraseIdx origin.best)
          have hm : ((preds.eraseIdx origin.best).length + 1) * l.base.pow origin.step ≤
              l.base.pow place := by
            rw [List.length_eraseIdx_of_lt hi]
            calc (preds.length - 1 + 1) * l.base.pow origin.step
                ≤ l.base * l.base.pow origin.step := Nat.mul_le_mul_right _ (by omega)
              _ = l.base.pow (origin.step + 1) := Nat.pow_succ'.symm
              _ ≤ l.base.pow place := Nat.pow_le_pow_right l.base_pos hlt
          rw [Nat.succ_mul] at hm
          have hpos : 0 < l.base.pow origin.step := Nat.pow_pos l.base_pos
          split at h
          · cases hx : l.retrace p origin.step best (node :: rest)
                (cost + edge + best.entry.cost) with
            | error e => simp [hx] at h
            | ok y =>
              simp only [hx] at h
              cases h
              have hy := ih origin.step hlt hx
              simp only [Tail.weights, List.map_append, List.sum_append_nat] at hg hy ⊢
              omega
          · cases h
            dsimp only
            omega
    next => cases h

theorem Lattice.weights_expand_lt {l : Lattice σ ν} {p : Pattern σ ν} {t : Tail σ ν}
    {x : Expansion σ ν} (h : l.expand p t = .ok x) :
    Tail.weights l.base x.tails < t.weight l.base := by
  unfold expand at h
  split at h
  · cases h
    exact Nat.pow_pos l.base_pos
  · exact weights_retrace_lt h

end

namespace Frontier

variable [BEq σ] [BEq ν]

theorem weight_enqueue_le (base : Nat) (p : Pattern σ ν) (f : Frontier σ ν) (t : Tail σ ν) :
    (f.enqueue p t).weight base ≤ t.weight base + f.weight base := by
  unfold enqueue
  split
  · have inserted := (Ticket.insert_perm ⟨f.nextNumber, t⟩ f.queue).map Ticket.tail
    exact Nat.le_of_eq (inserted.map (Tail.weight base)).sum_nat
  · exact Nat.le_add_left _ _

theorem weight_enqueueAll_le (base : Nat) (p : Pattern σ ν) (f : Frontier σ ν)
    (tails : List (Tail σ ν)) :
    (f.enqueueAll p tails).weight base ≤ Tail.weights base tails + f.weight base := by
  induction tails generalizing f with
  | nil => simp [enqueueAll, Tail.weights]
  | cons t tails ih =>
    have h := ih (f.enqueue p t)
    have ho := weight_enqueue_le base p f t
    simp only [enqueueAll, List.foldl_cons, Tail.weights, List.map_cons, List.sum_cons] at h ho ⊢
    omega

/-- What comes out of the first ticket weighs less than the ticket. -/
theorem weight_enqueueAll_lt {l : Lattice σ ν} {p : Pattern σ ν} {f : Frontier σ ν}
    {ticket : Ticket σ ν} {queue : List (Ticket σ ν)} {x : Expansion σ ν}
    (waiting : f.queue = ticket :: queue) (expanded : l.expand p ticket.tail = .ok x) :
    ({ f with queue := queue }.enqueueAll p x.tails).weight l.base < f.weight l.base := by
  have spent := Lattice.weights_expand_lt expanded
  have gained := weight_enqueueAll_le l.base p { f with queue := queue } x.tails
  simp only [weight, waiting, Tail.weights, List.map_cons, List.sum_cons] at spent gained ⊢
  omega

end Frontier

end Segmentation
