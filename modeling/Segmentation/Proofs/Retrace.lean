import Segmentation.Frontier.Weight
import Segmentation.Proofs.Chain
import Mathlib.Data.List.Perm.Basic

/-! Completing a tail in a well-formed lattice.
It never fails, and each tail passed on the way stands in the lattice again. -/
namespace Segmentation

variable {σ ν : Type}

namespace Tail

variable {nodes : List (Node σ ν)} {cost : Cost} {pred : Node σ ν × Cost} {t : Tail σ ν}

theorem grown?_eq_some_iff : grown? nodes cost pred = some t ↔
    cost + pred.2 + pred.1.pathCost ≠ .infinite ∧
      t = ⟨pred.1 :: nodes, cost + pred.2 + pred.1.entry.cost,
        cost + pred.2 + pred.1.pathCost⟩ := by
  unfold grown?
  dsimp only
  split
  next infinite => simp [infinite]
  next finite => simp [finite, eq_comm]

theorem grown?_eq_none_iff : grown? nodes cost pred = none ↔
    cost + pred.2 + pred.1.pathCost = .infinite := by
  unfold grown?
  dsimp only
  split
  next infinite => simp [infinite]
  next finite => simp [finite]

/-- Nothing grows at the cost of what is out of reach. -/
theorem filterMap_grown?_infinite (nodes : List (Node σ ν)) (preds : List (Node σ ν × Cost)) :
    preds.filterMap (grown? nodes .infinite) = [] := by
  rw [List.filterMap_eq_nil_iff]
  intro pred _
  rw [grown?_eq_none_iff, Cost.infinite_add, Cost.infinite_add]

/-- The first node of a tail is one of the lattice, in the step where it has its place. -/
def Standing (l : Lattice σ ν) (t : Tail σ ν) : Prop :=
  ∃ node rest s, t.nodes = node :: rest ∧ l.steps[t.place]? = some s ∧ node ∈ s.nodes

/-- What grows from a node stands in the step that the node follows. -/
theorem standing_of_grown? {l : Lattice σ ν} {node : Node σ ν} {rest : List (Node σ ν)}
    {origin : Origin} {before : Step σ ν} (follows : node.origin = some origin)
    (present : l.steps[origin.step]? = some before) (inside : pred.1 ∈ before.nodes)
    (grown : grown? (node :: rest) cost pred = some t) : t.Standing l := by
  have place := place_of_grown? follows grown
  obtain ⟨_, rfl⟩ := grown?_eq_some_iff.mp grown
  exact ⟨pred.1, node :: rest, before, rfl, place ▸ present, inside⟩

/-- The tails that a search for a last node starts with stand in the lattice. -/
theorem standing_seeds {l : Lattice σ ν} {finish : Node σ ν} {origin : Origin}
    {preds : List (Node σ ν × Cost)} (follows : finish.origin = some origin)
    (known : l.predecessors origin.step finish.edgeCosts = .ok preds) :
    ∀ t ∈ preds.filterMap (grown? [finish] finish.entry.cost), t.Standing l := by
  intro t member
  obtain ⟨pred, inside, grown⟩ := List.mem_filterMap.mp member
  obtain ⟨nodes, there, _, rfl⟩ := Lattice.predecessors_eq_ok known
  obtain ⟨before, present, rfl⟩ := Lattice.nodesAt_eq_ok_iff.mp there
  exact standing_of_grown? follows present (List.of_mem_zip inside).1 grown

end Tail

/-- What a node follows and is not the best of it. -/
def Step.others (before : Step σ ν) (node : Node σ ν) : List (Node σ ν × Cost) :=
  (before.nodes.zip node.edgeCosts).eraseIdx (leastIndex (before.arrivals node.edgeCosts)).1

namespace Lattice

variable {l : Lattice σ ν} {step place : Nat} {before : Step σ ν} {node m : Node σ ν} {edge : Cost}

theorem others_perm (best : before.Best node m edge) :
    ((m, edge) :: before.others node).Perm (before.nodes.zip node.edgeCosts) := by
  obtain ⟨bound, same⟩ := List.getElem?_eq_some_iff.mp best.get
  rw [← same]
  exact List.getElem_cons_eraseIdx_perm bound

theorem mem_nodes_of_others {pred : Node σ ν × Cost} (member : pred ∈ before.others node) :
    pred.1 ∈ before.nodes :=
  (List.of_mem_zip (List.mem_of_mem_eraseIdx member)).1

variable [BEq σ] [BEq ν] {p : Pattern σ ν}

theorem retrace_start (l : Lattice σ ν) (p : Pattern σ ν) (place : Nat) (rest : List (Node σ ν))
    (cost : Cost) :
    l.retrace p place (.start []) rest cost = .ok ⟨[], some (.start [] :: rest)⟩ := by
  rw [retrace]
  rfl

/-- A node is completed if it follows nothing, or if it follows a step that lies before its own
and has a best node for it. The other nodes there give tails, whether the best matches or not. -/
theorem retrace_eq_ok_iff {rest : List (Node σ ν)} {cost : Cost} {x : Expansion σ ν} :
    l.retrace p place node rest cost = .ok x ↔
      (node.origin = none ∧ ⟨[], some (node :: rest)⟩ = x) ∨
      ∃ origin preds best edge, node.origin = some origin ∧ origin.step < place ∧
        l.predecessors origin.step node.edgeCosts = .ok preds ∧
        preds[origin.best]? = some (best, edge) ∧
        let tails := (preds.eraseIdx origin.best).filterMap (Tail.grown? (node :: rest) cost)
        ((p.admits (best :: node :: rest) = true ∧ ∃ further,
          l.retrace p origin.step best (node :: rest) (cost + edge + best.entry.cost) =
            .ok further ∧ ⟨tails ++ further.tails, further.nodes⟩ = x) ∨
        (p.admits (best :: node :: rest) = false ∧ ⟨tails, none⟩ = x)) := by
  rw [Lattice.retrace]
  cases follows : node.origin with
  | none => simp
  | some origin =>
    dsimp only
    by_cases earlier : origin.step < place
    · rw [if_pos earlier, bind_ok_iff]
      simp only [reduceCtorEq, false_and, false_or, Option.some.injEq, exists_eq_left', earlier,
        true_and, exists_and_left]
      apply exists_congr
      intro preds
      apply and_congr_right
      intro known
      cases found : preds[origin.best]? with
      | none => simp [throw, throwThe, MonadExceptOf.throw]
      | some pred =>
        obtain ⟨best, edge⟩ := pred
        cases admitted : p.admits (best :: node :: rest) <;>
          simp [admitted, bind_ok_iff, pure, Except.pure]
    · simp [earlier, throw, throwThe, MonadExceptOf.throw]

theorem Relaxed.retrace (relaxed : l.Relaxed step before node) (earlier : step < place)
    (best : before.Best node m edge) (rest : List (Node σ ν)) (cost : Cost) :
    l.retrace p place node rest cost =
      let tails := (before.others node).filterMap (Tail.grown? (node :: rest) cost)
      if p.admits (m :: node :: rest) then
        (fun further => ⟨tails ++ further.tails, further.nodes⟩) <$>
          l.retrace p step m (node :: rest) (cost + edge + m.entry.cost)
      else .ok ⟨tails, none⟩ := by
  rw [Lattice.retrace, relaxed.origin]
  dsimp only
  rw [if_pos earlier, predecessors_of_get relaxed.present relaxed.edges]
  simp only [bind, Except.bind, best.get]
  split
  · cases l.retrace p step m (node :: rest) (cost + edge + m.entry.cost) <;> rfl
  · rfl

/-- What has come out of a tail that begins with a node that follows others. -/
theorem Relaxed.retrace_cases (relaxed : l.Relaxed step before node) (earlier : step < place)
    (best : before.Best node m edge) {rest : List (Node σ ν)} {cost : Cost} {x : Expansion σ ν}
    (retraced : l.retrace p place node rest cost = .ok x) :
    (∃ further, p.admits (m :: node :: rest) = true ∧
      l.retrace p step m (node :: rest) (cost + edge + m.entry.cost) = .ok further ∧
      x = ⟨(before.others node).filterMap (Tail.grown? (node :: rest) cost) ++ further.tails,
        further.nodes⟩) ∨
    p.admits (m :: node :: rest) = false ∧
      x = ⟨(before.others node).filterMap (Tail.grown? (node :: rest) cost), none⟩ := by
  rw [relaxed.retrace earlier best] at retraced
  dsimp only at retraced
  split at retraced
  next admitted =>
    cases onward : l.retrace p step m (node :: rest) (cost + edge + m.entry.cost) with
    | error failure =>
      rw [onward] at retraced
      contradiction
    | ok further =>
      rw [onward] at retraced
      exact .inl ⟨further, admitted, rfl, (Except.ok.inj retraced).symm⟩
  next left => exact .inr ⟨Bool.eq_false_iff.mpr left, (Except.ok.inj retraced).symm⟩

theorem WellFormed.retrace_ok (wf : l.WellFormed) (present : l.steps[place]? = some before)
    (member : node ∈ before.nodes) (rest : List (Node σ ν)) (cost : Cost) :
    ∃ x, l.retrace p place node rest cost = .ok x ∧ ∀ t ∈ x.tails, t.Standing l := by
  refine wf.node_induction (motive := fun place node => ∀ rest cost,
    ∃ x, l.retrace p place node rest cost = .ok x ∧ ∀ t ∈ x.tails, t.Standing l)
    ?start ?follow present member rest cost
  case start =>
    intro rest cost
    exact ⟨_, retrace_start l p 0 rest cost, by simp⟩
  case follow =>
    intro place node step before earlier relaxed onward rest cost
    obtain ⟨m, edge, best⟩ := relaxed.best (wf.filled_of_get relaxed.present)
    have passed : ∀ t ∈ (before.others node).filterMap (Tail.grown? (node :: rest) cost),
        t.Standing l := by
      intro t member
      obtain ⟨pred, other, grown⟩ := List.mem_filterMap.mp member
      exact Tail.standing_of_grown? relaxed.origin relaxed.present (mem_nodes_of_others other) grown
    rw [relaxed.retrace earlier best]
    dsimp only
    split
    · obtain ⟨further, retraced, standing⟩ :=
        onward m best.inside (node :: rest) (cost + edge + m.entry.cost)
      refine ⟨_, by rw [retraced]; rfl, ?_⟩
      intro t member
      exact (List.mem_append.mp member).elim (passed t) (standing t)
    · exact ⟨_, rfl, passed⟩

theorem WellFormed.expand_ok (wf : l.WellFormed) {t : Tail σ ν} (standing : t.Standing l) :
    ∃ x, l.expand p t = .ok x ∧ ∀ u ∈ x.tails, u.Standing l := by
  obtain ⟨node, rest, s, nodes, present, member⟩ := standing
  rw [expand, nodes]
  exact wf.retrace_ok present member rest t.cost

end Lattice

end Segmentation
