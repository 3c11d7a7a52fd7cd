import Segmentation.Proofs.Relaxation
import Mathlib.Data.List.Forall2

/-! The shape of every lattice that pushes and settlings lead to, failed ones
included. It has the start of the input in front, no empty step after it, and each
other node is relaxed against an earlier step. -/
namespace Segmentation

variable {σ ν : Type}

theorem bind_ok_iff {α β ε : Type} {x : Except ε α} {f : α → Except ε β} {b : β} :
    (x >>= f) = .ok b ↔ ∃ a, x = .ok a ∧ f a = .ok b := by
  cases x <;> simp [bind, Except.bind]

theorem map_ok_iff {α β ε : Type} {x : Except ε α} {f : α → β} {b : β} :
    f <$> x = .ok b ↔ ∃ a, x = .ok a ∧ f a = b := by
  cases x <;> simp [Functor.map, Except.map]

/-- A checked map over a list succeeds exactly if it does on every member. -/
theorem mapM_ok_iff {α β ε : Type} {f : α → Except ε β} {xs : List α} {ys : List β} :
    xs.mapM f = .ok ys ↔ List.Forall₂ (fun x y => f x = .ok y) xs ys := by
  induction xs generalizing ys with
  | nil =>
    rw [List.mapM_nil, List.forall₂_nil_left_iff]
    exact ⟨fun same => (Except.ok.inj same).symm, fun same => same ▸ rfl⟩
  | cons x xs ih =>
    rw [List.mapM_cons, bind_ok_iff]
    constructor
    · rintro ⟨y, head, rest⟩
      obtain ⟨zs, tail, same⟩ := bind_ok_iff.mp rest
      cases same
      exact .cons head (ih.mp tail)
    · rintro (_ | ⟨head, tail⟩)
      exact ⟨_, head, bind_ok_iff.mpr ⟨_, ih.mpr tail, rfl⟩⟩

theorem exists_of_forall₂ {α β : Type} {r : α → β → Prop} {xs : List α} {ys : List β} {y : β}
    (paired : List.Forall₂ r xs ys) (member : y ∈ ys) : ∃ x ∈ xs, r x y := by
  obtain ⟨i, bound, rfl⟩ := List.mem_iff_getElem.mp member
  have length := paired.length_eq
  exact ⟨xs[i], List.getElem_mem _, paired.get (by omega) bound⟩

theorem exists_of_mapM {α β ε : Type} {f : α → Except ε β} {xs : List α} {ys : List β} {y : β}
    (mapped : xs.mapM f = .ok ys) (member : y ∈ ys) : ∃ x ∈ xs, f x = .ok y :=
  exists_of_forall₂ (r := fun x y => f x = .ok y) (mapM_ok_iff.mp mapped) member

theorem getElem?_of_prefix {α : Type} {xs ys : List α} {x : α} {k : Nat} (shorter : xs <+: ys)
    (get : xs[k]? = some x) : ys[k]? = some x := by
  obtain ⟨more, rfl⟩ := shorter
  rw [List.getElem?_append_left (List.getElem?_eq_some_iff.mp get).1]
  exact get

theorem getElem?_concat_iff {α : Type} {xs : List α} {x y : α} {k : Nat} :
    (xs ++ [x])[k]? = some y ↔ xs[k]? = some y ∨ k = xs.length ∧ x = y := by
  rcases Nat.lt_trichotomy k xs.length with inside | rfl | beyond
  · rw [List.getElem?_append_left inside]
    simp [Nat.ne_of_lt inside]
  · simp
  · rw [List.getElem?_eq_none (by rw [List.length_append, List.length_singleton]; omega),
      List.getElem?_eq_none (by omega)]
    simp [Nat.ne_of_gt beyond]

namespace Lattice

/-- What a run of pushes and settlings makes of an empty lattice. -/
inductive Reachable [Sequence σ] : Lattice σ ν → Prop where
  | empty (vocabulary : Vocabulary σ ν) (policy : Policy) : Reachable (.empty vocabulary policy)
  | push (fragment : Fragment σ) : Reachable l → Reachable (l.push fragment).lattice
  | settle : Reachable l → Reachable l.settle.lattice

structure WellFormed (l : Lattice σ ν) : Prop where
  first : l.steps[0]? = some .start
  filled : ∀ s ∈ l.steps, s.nodes ≠ []
  numbered : ∀ s ∈ l.steps, ∀ (i : Nat) (n : Node σ ν), s.nodes[i]? = some n → n.index = i
  relaxed : ∀ (k : Nat) (s : Step σ ν), l.steps[k + 1]? = some s → ∀ n ∈ s.nodes,
    ∃ step before, step ≤ k ∧ l.Relaxed step before n

variable {l : Lattice σ ν} {step : Nat} {before : Step σ ν} {node : Node σ ν}

theorem Relaxed.grow {l' : Lattice σ ν} (relaxed : l.Relaxed step before node)
    (steps : l.steps <+: l'.steps) : l'.Relaxed step before node where
  present := getElem?_of_prefix steps relaxed.present
  edges := relaxed.edges
  origin := relaxed.origin
  cost := relaxed.cost

theorem edgeCosts_length {e : Entry σ ν} {edgeCosts : List Cost}
    (found : l.edgeCosts before e = .ok edgeCosts) : edgeCosts.length = before.nodes.length :=
  (mapM_ok_iff.mp found).length_eq.symm

/-- If the edges from a step are accepted at all, those that are missing are infinite. -/
theorem edgeCosts_eq {e : Entry σ ν} {edgeCosts : List Cost}
    (found : l.edgeCosts before e = .ok edgeCosts) :
    edgeCosts = before.nodes.map fun n => (l.vocabulary.connection n e).getD .infinite := by
  have same : List.Forall₂ (fun n edge => (l.vocabulary.connection n e).getD .infinite = edge)
      before.nodes edgeCosts := by
    refine (mapM_ok_iff.mp found).imp ?_
    intro n edge accepted
    cases known : l.vocabulary.connection n e with
    | some cost =>
      rw [known] at accepted
      exact Except.ok.inj accepted
    | none =>
      cases policy : l.policy with
      | unreachable =>
        rw [known, policy] at accepted
        exact Except.ok.inj accepted
      | reject =>
        rw [known, policy] at accepted
        contradiction
  rw [← List.forall₂_map_left_iff, List.forall₂_eq_eq_eq] at same
  exact same.symm

/-- Settling leaves everything but the mark that it sets. -/
theorem settle_lattice (l : Lattice σ ν) :
    ∃ settled, l.settle.lattice = { l with settled := settled } := by
  unfold settle
  dsimp only
  split
  · exact ⟨l.settled, rfl⟩
  · split
    · exact ⟨l.settled, rfl⟩
    · exact ⟨true, rfl⟩

theorem settle_steps (l : Lattice σ ν) : l.settle.lattice.steps = l.steps := by
  obtain ⟨settled, same⟩ := l.settle_lattice
  rw [same]

theorem WellFormed.of_steps {l' : Lattice σ ν} (wf : l.WellFormed) (same : l'.steps = l.steps) :
    l'.WellFormed where
  first := same ▸ wf.first
  filled := same ▸ wf.filled
  numbered := same ▸ wf.numbered
  relaxed k s present n member := by
    obtain ⟨step, before, earlier, relaxed⟩ := wf.relaxed k s (same ▸ present) n member
    exact ⟨step, before, earlier, relaxed.grow (same ▸ List.prefix_rfl)⟩

theorem wellFormed_empty (vocabulary : Vocabulary σ ν) (policy : Policy) :
    (empty vocabulary policy).WellFormed where
  first := rfl
  filled := by simp [empty, Step.start]
  numbered := by
    intro s member i n get
    obtain rfl := List.mem_singleton.mp member
    obtain ⟨bound, rfl⟩ := List.getElem?_eq_some_iff.mp get
    cases i with
    | zero => rfl
    | succ i => exact absurd bound (by simp [Step.start])
  relaxed k s present := by simp [empty] at present

variable [Sequence σ]

/-- What arrives with an input is numbered through, and each node is relaxed
against some step. -/
theorem arriving_get {input : Fragment σ} {nodes : List (Node σ ν)}
    (arrived : l.arriving input = .ok nodes) {i : Nat} (get : nodes[i]? = some node) :
    node.index = i ∧ ∃ step before, l.Relaxed step before node := by
  obtain ⟨groups, grouped, numbered⟩ := bind_ok_iff.mp arrived
  cases numbered
  rw [List.getElem?_mapIdx, Option.map_eq_some_iff] at get
  obtain ⟨n, found, rfl⟩ := get
  refine ⟨rfl, ?_⟩
  obtain ⟨group, inGroups, member⟩ := List.mem_flatten.mp (List.mem_of_getElem? found)
  obtain ⟨⟨before, step⟩, place, followed⟩ := exists_of_mapM grouped inGroups
  have present : l.steps[step]? = some before := List.mk_mem_zipIdx_iff_getElem?.mp place
  obtain ⟨key, _, found⟩ := bind_ok_iff.mp followed
  obtain ⟨e, _, made⟩ := exists_of_mapM found member
  obtain ⟨edgeCosts, costs, same⟩ := bind_ok_iff.mp made
  cases same
  exact ⟨step, before, relaxed_follower present (edgeCosts_length costs) e i⟩

/-- Whatever cannot be undone of a push is the input. -/
theorem undo_lattice (l : Lattice σ ν) (input : Fragment σ) (failure : Failure)
    (events : List Event) : ∃ buffer,
      (l.undo input failure events).lattice = { l with buffer := buffer } := by
  unfold undo
  split
  · exact ⟨l.buffer, rfl⟩
  · split
    next buffer _ => exact ⟨some buffer, rfl⟩
    next => exact ⟨none, rfl⟩

theorem undo_result (l : Lattice σ ν) (input : Fragment σ) (failure : Failure)
    (events : List Event) : ∃ cause, (l.undo input failure events).result = .error cause := by
  unfold undo
  split
  · exact ⟨failure, rfl⟩
  · split
    next => exact ⟨failure, rfl⟩
    next refusal _ => exact ⟨refusal, rfl⟩

/-- A push fails before it takes the fragment in, or is undone, or adds the step that it
has worked out. -/
theorem push_cases (l : Lattice σ ν) (fragment : Fragment σ) :
    (∃ failure, l.push fragment = ⟨.error failure, l, []⟩ ∧
      (l.settled = true ∨ l.extended fragment = .error failure)) ∨
    l.settled = false ∧ ∃ input, l.extended fragment = .ok input ∧
      ((∃ failure events, l.push fragment = l.undo input failure events) ∨
        ∃ nodes events, l.arriving input = .ok nodes ∧ nodes ≠ [] ∧ l.push fragment =
          ⟨.ok (), { l with buffer := some input, steps := l.steps ++ [⟨input.length, nodes⟩] },
            events⟩) := by
  unfold push
  by_cases settled : l.settled = true
  · exact .inl ⟨_, if_pos settled, .inl settled⟩
  rw [if_neg settled]
  cases extended : l.extended fragment with
  | error failure => exact .inl ⟨failure, rfl, .inr rfl⟩
  | ok input =>
    refine .inr ⟨Bool.eq_false_iff.mpr settled, input, rfl, ?_⟩
    dsimp only
    split
    next failure _ => exact .inl ⟨failure, [], rfl⟩
    next => exact .inl ⟨_, _, rfl⟩
    next nodes nonempty arrived => exact .inr ⟨nodes, _, arrived, nonempty, rfl⟩

/-- A push that succeeds has found nodes for the step that it adds. -/
theorem push_of_ok {fragment : Fragment σ} (pushed : (l.push fragment).result = .ok ()) :
    l.settled = false ∧ ∃ input nodes events, l.extended fragment = .ok input ∧
      l.arriving input = .ok nodes ∧ nodes ≠ [] ∧ l.push fragment =
        ⟨.ok (), { l with buffer := some input, steps := l.steps ++ [⟨input.length, nodes⟩] },
          events⟩ := by
  obtain ⟨_, refused, _⟩ | ⟨accepts, input, extended, undone | added⟩ := l.push_cases fragment
  · rw [refused] at pushed
    contradiction
  · obtain ⟨failure, events, undone⟩ := undone
    obtain ⟨cause, failed⟩ := l.undo_result input failure events
    rw [undone, failed] at pushed
    contradiction
  · obtain ⟨nodes, events, arrived, nonempty, added⟩ := added
    exact ⟨accepts, input, nodes, events, extended, arrived, nonempty, added⟩

theorem push_ok {fragment : Fragment σ} (pushed : (l.push fragment).result = .ok ()) :
    ∃ input nodes, l.extended fragment = .ok input ∧ l.arriving input = .ok nodes ∧
      (l.push fragment).lattice =
        { l with buffer := some input, steps := l.steps ++ [⟨input.length, nodes⟩] } := by
  obtain ⟨_, input, nodes, _, extended, arrived, _, added⟩ := push_of_ok pushed
  exact ⟨input, nodes, extended, arrived, by rw [added]⟩

/-- A push succeeds exactly if the lattice is open and there is a node for the step to add. -/
theorem push_ok_iff {fragment : Fragment σ} : (l.push fragment).result = .ok () ↔
    l.settled = false ∧ ∃ input nodes, l.extended fragment = .ok input ∧
      l.arriving input = .ok nodes ∧ nodes ≠ [] := by
  constructor
  · intro pushed
    obtain ⟨accepts, input, nodes, _, extended, arrived, nonempty, _⟩ := push_of_ok pushed
    exact ⟨accepts, input, nodes, extended, arrived, nonempty⟩
  · rintro ⟨accepts, input, nodes, extended, arrived, nonempty⟩
    rw [push, if_neg (Bool.eq_false_iff.mp accepts), extended]
    dsimp only
    rw [arrived]
    cases nodes with
    | nil => contradiction
    | cons => rfl

/-- A push that fails leaves the steps, one that succeeds adds a step to them. -/
theorem push_steps (l : Lattice σ ν) (fragment : Fragment σ) :
    (l.push fragment).lattice.steps = l.steps ∨
    ∃ input nodes, l.arriving input = .ok nodes ∧ nodes ≠ [] ∧
      (l.push fragment).lattice.steps = l.steps ++ [⟨input.length, nodes⟩] := by
  obtain ⟨_, refused, _⟩ | ⟨_, input, _, undone | added⟩ := l.push_cases fragment
  · rw [refused]
    exact .inl rfl
  · obtain ⟨failure, events, undone⟩ := undone
    obtain ⟨buffer, left⟩ := l.undo_lattice input failure events
    rw [undone, left]
    exact .inl rfl
  · obtain ⟨nodes, _, arrived, nonempty, added⟩ := added
    rw [added]
    exact .inr ⟨input, nodes, arrived, nonempty, rfl⟩

theorem WellFormed.push (wf : l.WellFormed) (fragment : Fragment σ) :
    (l.push fragment).lattice.WellFormed := by
  obtain same | ⟨input, nodes, arrived, nonempty, grown⟩ := push_steps l fragment
  · exact wf.of_steps same
  have longer : l.steps <+: (l.push fragment).lattice.steps := grown ▸ List.prefix_append _ _
  refine ⟨?_, ?_, ?_, ?_⟩
  · exact getElem?_of_prefix longer wf.first
  · intro s member
    rcases List.mem_append.mp (grown ▸ member) with old | new
    · exact wf.filled s old
    · obtain rfl := List.mem_singleton.mp new
      exact nonempty
  · intro s member i n get
    rcases List.mem_append.mp (grown ▸ member) with old | new
    · exact wf.numbered s old i n get
    · obtain rfl := List.mem_singleton.mp new
      exact (arriving_get arrived get).1
  · intro k s present n member
    rw [grown] at present
    rcases getElem?_concat_iff.mp present with old | ⟨last, rfl⟩
    · obtain ⟨step, before, earlier, relaxed⟩ := wf.relaxed k s old n member
      exact ⟨step, before, earlier, relaxed.grow longer⟩
    · obtain ⟨i, _, rfl⟩ := List.mem_iff_getElem.mp member
      obtain ⟨_, step, before, relaxed⟩ := arriving_get arrived (List.getElem?_eq_getElem _)
      have bound := (List.getElem?_eq_some_iff.mp relaxed.present).1
      exact ⟨step, before, by omega, relaxed.grow longer⟩

theorem Reachable.wellFormed (reachable : l.Reachable) : l.WellFormed := by
  induction reachable with
  | empty vocabulary policy => exact wellFormed_empty vocabulary policy
  | push fragment _ ih => exact ih.push fragment
  | settle _ ih => exact ih.of_steps (settle_steps _)

/-- What some texts that are pushed one after the other make of an empty lattice. -/
def ofTexts (vocabulary : Vocabulary σ ν) (texts : List String) : Lattice σ ν :=
  texts.foldl (fun l text => (l.push (.text text)).lattice) (.empty vocabulary .unreachable)

theorem Reachable.ofTexts (vocabulary : Vocabulary σ ν) (texts : List String) :
    (Lattice.ofTexts vocabulary texts).Reachable :=
  List.foldlRecOn texts _ (.empty vocabulary .unreachable) fun _ reachable text _ =>
    reachable.push (.text text)

omit [Sequence σ]

/-- The nodes of a lattice are made one step after the other: what holds of the
start, and of a node if it holds of all nodes that it follows, holds of every node. -/
theorem WellFormed.node_induction (wf : l.WellFormed) {motive : Nat → Node σ ν → Prop}
    (start : motive 0 (.start []))
    (follow : ∀ place node step before, step < place → l.Relaxed step before node →
      (∀ m ∈ before.nodes, motive step m) → motive place node)
    {place : Nat} {s : Step σ ν} {node : Node σ ν} (present : l.steps[place]? = some s)
    (member : node ∈ s.nodes) : motive place node := by
  induction place using Nat.strongRecOn generalizing s node with
  | ind place ih =>
    cases place with
    | zero =>
      obtain rfl : Step.start = s := Option.some.inj (wf.first.symm.trans present)
      obtain rfl := List.mem_singleton.mp member
      exact start
    | succ k =>
      obtain ⟨step, before, earlier, relaxed⟩ := wf.relaxed k s present node member
      exact follow (k + 1) node step before (by omega) relaxed
        fun m inside => ih step (by omega) relaxed.present inside

end Lattice

end Segmentation
