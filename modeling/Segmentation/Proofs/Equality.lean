import Segmentation.Proofs.Alike
import Segmentation.Proofs.Asking

/-! Equal enumerations.
Equality looks at what is enumerated and at how far this has come, not at what waits. What waits
is settled by that, so that equal enumerations have equal paths to come and stay equal. -/
namespace Segmentation

variable {σ ν : Type} [BEq σ] [BEq ν]

/-- Ends of paths that are alike, at the same costs. -/
structure Tail.Like (t u : Tail σ ν) : Prop where
  nodes : Alike t.nodes u.nodes
  cost : t.cost = u.cost
  wholeCost : t.wholeCost = u.wholeCost

structure Expansion.Like (x y : Expansion σ ν) : Prop where
  tails : List.Forall₂ Tail.Like x.tails y.tails
  nodes : Option.Rel Alike x.nodes y.nodes

namespace Tail

variable {t u : Tail σ ν} {ts us ts' us' : List (Tail σ ν)}

theorem Like.place (like : t.Like u) : t.place = u.place := by
  obtain ⟨nodes, _, _⟩ := t
  obtain ⟨nodes', _, _⟩ := u
  obtain ⟨alike, _, _⟩ := like
  cases alike with
  | nil => rfl
  | cons _ rest =>
    cases rest with
    | nil => rfl
    | cons second _ =>
      obtain ⟨_, _, origin, _⟩ := Node.beq_iff.mp second
      simp only [Tail.place, origin]

theorem enter_like (like : t.Like u) (waiting : List.Forall₂ Like ts us) :
    List.Forall₂ Like (t.enter ts) (u.enter us) := by
  induction waiting with
  | nil => exact .cons like .nil
  | cons first rest ih =>
    rw [enter, enter, like.wholeCost, first.wholeCost]
    split
    · exact .cons like (.cons first rest)
    · exact .cons first ih

theorem enterAll_like (new : List.Forall₂ Like ts us) (waiting : List.Forall₂ Like ts' us') :
    List.Forall₂ Like (enterAll ts ts') (enterAll us us') := by
  induction new generalizing ts' us' with
  | nil => exact waiting
  | cons first _ ih => exact ih (enter_like first waiting)

variable [EquivBEq σ] [EquivBEq ν]

theorem Like.symm (like : t.Like u) : u.Like t :=
  ⟨like.nodes.symm, like.cost.symm, like.wholeCost.symm⟩

theorem grown?_like {nodes nodes' : List (Node σ ν)} (alike : Alike nodes nodes') (cost : Cost)
    (preds : List (Node σ ν × Cost)) :
    List.Forall₂ Like (preds.filterMap (grown? nodes cost))
      (preds.filterMap (grown? nodes' cost)) := by
  refine List.rel_filterMap (R := Eq) ?_ (List.forall₂_refl preds)
  rintro pred _ rfl
  unfold grown?
  dsimp only
  split
  · exact .none
  · exact .some ⟨.cons BEq.rfl alike, rfl, rfl⟩

/-- What waits after new tails have been queued, if a path with them can match. -/
theorem queued_like {p q : Pattern σ ν} (same : (p == q) = true) (new : List.Forall₂ Like ts us)
    (waiting : List.Forall₂ Like ts' us') :
    List.Forall₂ Like (enterAll (ts.filter fun t => p.admits t.nodes) ts')
      (enterAll (us.filter fun u => q.admits u.nodes) us') := by
  refine enterAll_like (List.rel_filter ?_ new) waiting
  intro t u like
  dsimp only
  rw [Pattern.admits_alike same like.nodes]

end Tail

namespace Lattice

variable {l l' : Lattice σ ν} {p q : Pattern σ ν} {t u : Tail σ ν} {ts us : List (Tail σ ν)}
  {x y : Expansion σ ν}

omit [BEq σ] [BEq ν] in
theorem predecessors_of_steps (steps : l.steps = l'.steps) (step : Nat) (edgeCosts : List Cost) :
    l.predecessors step edgeCosts = l'.predecessors step edgeCosts := by
  simp only [predecessors, nodesAt, stepCount, steps]

variable [EquivBEq σ] [EquivBEq ν]

/-- Equal nodes are completed in the same way, if the steps are the same. -/
theorem retrace_like (steps : l.steps = l'.steps) (same : (p == q) = true) {place : Nat}
    {node node' : Node σ ν} {rest rest' : List (Node σ ν)} {cost : Cost}
    (alike : Alike (node :: rest) (node' :: rest'))
    (retraced : l.retrace p place node rest cost = .ok x) :
    ∃ y, l'.retrace q place node' rest' cost = .ok y ∧ x.Like y := by
  induction place using Nat.strongRecOn generalizing node node' rest rest' cost x with
  | ind place ih =>
    obtain ⟨equal, _⟩ := List.forall₂_cons.mp alike
    obtain ⟨_, _, origin, edgeCosts, _⟩ := Node.beq_iff.mp equal
    obtain ⟨none, rfl⟩ | ⟨origin', preds, best, edge, follows, earlier, known, found, rest⟩ :=
      retrace_eq_ok_iff.mp retraced
    · exact ⟨_, retrace_eq_ok_iff.mpr (.inl ⟨origin ▸ none, rfl⟩), .nil, .some alike⟩
    · have passed := Tail.grown?_like alike cost (preds.eraseIdx origin'.best)
      -- both find the same best node, as they look at the same step
      have longer : Alike (best :: node :: _) (best :: node' :: rest') := .cons BEq.rfl alike
      have admits := Pattern.admits_alike same longer
      rw [origin] at follows
      rw [edgeCosts, predecessors_of_steps steps] at known
      obtain ⟨admitted, further, onward, rfl⟩ | ⟨rejected, rfl⟩ := rest
      · obtain ⟨further', onward', like⟩ := ih origin'.step earlier longer onward
        refine ⟨_, retrace_eq_ok_iff.mpr (.inr ⟨origin', preds, best, edge, follows, earlier, known,
          found, .inl ⟨admits ▸ admitted, further', onward', rfl⟩⟩), ?_, like.nodes⟩
        exact List.rel_append passed like.tails
      · exact ⟨_, retrace_eq_ok_iff.mpr (.inr ⟨origin', preds, best, edge, follows, earlier, known,
          found, .inr ⟨admits ▸ rejected, rfl⟩⟩), passed, .none⟩

theorem expand_like (steps : l.steps = l'.steps) (same : (p == q) = true) (like : t.Like u)
    (expanded : l.expand p t = .ok x) : ∃ y, l'.expand q u = .ok y ∧ x.Like y := by
  have place := like.place
  obtain ⟨nodes, _, _⟩ := t
  obtain ⟨nodes', _, _⟩ := u
  obtain ⟨alike, rfl, rfl⟩ := like
  cases alike with
  | nil =>
    cases expanded
    exact ⟨_, rfl, .nil, .none⟩
  | cons first rest =>
    simp only [expand, ← place] at expanded ⊢
    exact retrace_like steps same (.cons first rest) expanded

/-- Tails that are alike lead to paths that are equal, each to the other at its place. -/
theorem outcomes_alike (steps : l.steps = l'.steps) (same : (p == q) = true)
    (like : List.Forall₂ Tail.Like ts us) : Alike (l.outcomes p ts) (l'.outcomes q us) := by
  fun_induction Lattice.outcomes l p ts generalizing us with
  | case1 =>
    cases like
    rw [outcomes_nil]
    exact .nil
  | case2 t ts failure failed =>
    obtain _ | ⟨first, _⟩ := like
    rw [outcomes]
    split
    · exact .nil
    next expanded =>
      -- what is completed for one of them is so for the other
      obtain ⟨_, again, _⟩ := expand_like steps.symm (BEq.symm same) first.symm expanded
      rw [failed] at again
      contradiction
  | case3 t ts x expanded ih =>
    obtain _ | @⟨_, u, _, us, first, rest⟩ := like
    obtain ⟨y, expanded', like⟩ := expand_like steps same first expanded
    rw [outcomes_cons expanded']
    refine List.rel_append ?_ (ih (Tail.queued_like same like.tails rest))
    have nodes := like.nodes
    generalize x.nodes = found, y.nodes = found' at nodes ⊢
    cases nodes with
    | none => exact .nil
    | some alike => exact .cons (Path.beq_iff.mpr ⟨alike, first.wholeCost⟩) .nil

end Lattice

namespace Enumeration

variable {l l' : Lattice σ ν} {finish finish' : Node σ ν} {p q : Pattern σ ν}
  {a b c e after : Enumeration σ ν} {paths : List (Path σ ν)} {identity identity' : Nat}

/-- Two enumerations of equal paths of one lattice that have come equally far. -/
def Abreast (a b : Enumeration σ ν) : Prop :=
  ∃ s t, a.scope = some s ∧ b.scope = some t ∧ s.identity = t.identity ∧
    (s.finish == t.finish) = true ∧ (a.pattern == b.pattern) = true ∧ a.index = b.index

theorem beq_iff : (a == b) = true ↔ (a.isExhausted = true ∧ b.isExhausted = true) ∨
    (a.isExhausted = false ∧ b.isExhausted = false ∧ a.Abreast b) := by
  unfold Abreast
  conv_lhs =>
    unfold BEq.beq instBEq
    dsimp only
  cases a.isExhausted <;> cases b.isExhausted <;> cases a.scope <;> cases b.scope <;>
    simp [and_assoc]

/-- What an enumeration has come to, from before its first path on. -/
structure Traces (e : Enumeration σ ν) (paths : List (Path σ ν)) (after : Enumeration σ ν) :
    Prop where
  scope : after.scope = e.scope
  pattern : after.pattern = e.pattern
  index : after.index = e.index + paths.length
  drain : e.drain = paths ++ after.drain
  current : after.isExhausted = false → after.current.toOption = paths.getLast?

theorem next_of_ok {path : Path σ ν} (advanced : e.advance = (.ok path, after)) :
    e.next = (some path, after) := by
  simp only [next, advanced, Except.toOption]

theorem drain_of_ahead (ended : e.ahead = none) : e.drain = [] := by
  apply drain_of_none
  simp only [next, advance_of_none ended, Except.toOption]

omit [BEq σ] [BEq ν] in
theorem isExhausted_of_past (past : e.cursor = .past) (ended : e.ahead = none) :
    e.isExhausted = true := by
  simp [isExhausted, past, ended]

omit [BEq σ] [BEq ν] in
theorem isExhausted_of_at {path : Path σ ν} (here : e.cursor = .at path) :
    e.isExhausted = false := by
  simp [isExhausted, here]

theorem Reaches.traces (before : e.cursor = .before) (reaches : e.Reaches paths after) :
    e.Traces paths after := by
  induction reaches with
  | stay =>
    refine ⟨rfl, rfl, rfl, rfl, fun _ => ?_⟩
    simp [current, before, Except.toOption]
  | @reach paths mid after path _ advanced ih =>
    obtain ⟨_, here, scope, pattern, index⟩ := advance_ok advanced
    refine ⟨scope.trans ih.scope, pattern.trans ih.pattern, ?_, ?_, fun _ => ?_⟩
    · simp [index, ih.index, Nat.add_assoc]
    · rw [ih.drain, drain_of_some (next_of_ok advanced), List.append_assoc, List.singleton_append]
    · simp [current_of_at here, Except.toOption]
  | @fail paths mid after cause _ advanced ih =>
    obtain ⟨ended, past, scope, pattern, index⟩ := advance_error advanced
    have none : mid.next.1 = none := by simp only [next, advanced, Except.toOption]
    refine ⟨scope.trans ih.scope, pattern.trans ih.pattern, index.trans ih.index, ?_, ?_⟩
    · rw [ih.drain, drain_of_none none, drain_of_ahead ended]
    · intro running
      rw [isExhausted_of_past past ended] at running
      contradiction

/-- An enumeration that has been made, of nothing or of the paths of one of the lattices with
these steps, and has been advanced any number of times since. -/
def Arises [Sequence σ] (steps : Nat → List (Step σ ν)) (e : Enumeration σ ν) : Prop :=
  ∃ first paths, first.Reaches paths e ∧ (first = {} ∨ ∃ identity l finish p, l.Reachable ∧
    l.steps = steps identity ∧ start identity l finish p = .ok first)

theorem Reaches.exhausted (exhausted : e.isExhausted = true) (reaches : e.Reaches paths after) :
    after.isExhausted = true := by
  cases reaches with
  | stay => exact exhausted
  | reach reaches advanced =>
    obtain ⟨ahead, _⟩ := advance_ok advanced
    rw [reaches.ahead_none (ahead_of_isExhausted exhausted)] at ahead
    contradiction
  | fail _ advanced =>
    obtain ⟨ended, past, _⟩ := advance_error advanced
    exact isExhausted_of_past past ended

section

variable [Sequence σ] {steps : Nat → List (Step σ ν)}

/-- What an enumeration has ahead is the first of the paths that are still to come. -/
theorem Arises.ahead (arises : e.Arises steps) :
    e.ahead = e.drain.head? ∧ e.advance.1.toOption = e.drain.head? := by
  obtain ⟨first, paths, reaches, made⟩ := arises
  have outcome : e.ahead = none ∨
      ∃ path after, e.ahead = some path ∧ e.advance = (.ok path, after) := by
    obtain rfl | ⟨identity, l, finish, p, reachable, _, accepted⟩ := made
    · exact .inl (reaches.ahead_none rfl)
    · exact New.advance reachable.wellFormed (.inr ⟨identity, finish, p, accepted⟩) reaches
  obtain ended | ⟨path, after, ahead, advanced⟩ := outcome
  · rw [drain_of_ahead ended, advance_of_none ended]
    exact ⟨ended, rfl⟩
  · rw [drain_of_some (next_of_ok advanced), advanced]
    exact ⟨ahead, rfl⟩

theorem Arises.running (arises : e.Arises steps) (running : e.isExhausted = false) :
    ∃ first paths identity l finish, l.Reachable ∧ l.steps = steps identity ∧
      start identity l finish e.pattern = .ok first ∧ e.scope = some ⟨identity, l, finish⟩ ∧
      e.index = paths.length ∧ first.drain = paths ++ e.drain ∧
      e.current.toOption = paths.getLast? := by
  obtain ⟨first, paths, reaches,
    rfl | ⟨identity, l, finish, p, reachable, same, accepted⟩⟩ := arises
  · rw [reaches.exhausted rfl] at running
    contradiction
  · obtain ⟨_, _, _, _, _, _, _, made⟩ := start_ok accepted
    have traces := reaches.traces (made ▸ rfl)
    have scope : first.scope = some ⟨identity, l, finish⟩ := made ▸ rfl
    have pattern : first.pattern = p := made ▸ rfl
    have index : first.index = 0 := made ▸ rfl
    refine ⟨first, paths, identity, l, finish, reachable, same, ?_, traces.scope.trans scope, ?_,
      traces.drain, traces.current running⟩
    · rw [traces.pattern, pattern, accepted]
    · rw [traces.index, index, Nat.zero_add]

end

variable [EquivBEq σ] [EquivBEq ν]

/-- Equal ends are sought by way of equal paths. -/
theorem drain_alike (wf : l.WellFormed) (wf' : l'.WellFormed) (steps : l.steps = l'.steps)
    (finishes : (finish == finish') = true) (patterns : (p == q) = true)
    (accepted : start identity l finish p = .ok a)
    (accepted' : start identity' l' finish' q = .ok b) : Alike a.drain b.drain := by
  obtain ⟨origin, before, follows, present, _, drained⟩ := drain_of_start wf accepted
  obtain ⟨origin', before', follows', present', _, drained'⟩ := drain_of_start wf' accepted'
  obtain ⟨entry, _, origins, edgeCosts, _⟩ := Node.beq_iff.mp finishes
  obtain ⟨_, _, cost⟩ := Entry.beq_iff.mp entry
  obtain rfl : origin = origin' :=
    Option.some.inj (follows.symm.trans (origins.trans follows'))
  obtain rfl : before = before' :=
    Option.some.inj (present.symm.trans (steps ▸ present'))
  rw [drained, drained', edgeCosts, cost]
  apply Lattice.outcomes_alike steps patterns
  exact Tail.queued_like patterns (Tail.grown?_like (.cons finishes .nil) _ _) .nil

theorem Abreast.symm (abreast : a.Abreast b) : b.Abreast a := by
  obtain ⟨s, t, within, within', identities, finishes, patterns, indices⟩ := abreast
  exact ⟨t, s, within', within, identities.symm, BEq.symm finishes, BEq.symm patterns, indices.symm⟩

theorem Abreast.trans (first : a.Abreast b) (second : b.Abreast c) : a.Abreast c := by
  obtain ⟨s, t, within, within', identities, finishes, patterns, indices⟩ := first
  obtain ⟨_, u, again, last, identities', finishes', patterns', indices'⟩ := second
  obtain rfl := Option.some.inj (within'.symm.trans again)
  exact ⟨s, u, within, last, identities.trans identities', BEq.trans finishes finishes',
    BEq.trans patterns patterns', indices.trans indices'⟩

variable [Sequence σ] {steps : Nat → List (Step σ ν)}

/-- Equal enumerations have equal paths to come, and are at equal ones. -/
theorem Arises.alike (arises : a.Arises steps) (arises' : b.Arises steps) (same : (a == b) = true) :
    Alike a.drain b.drain ∧ a.isExhausted = b.isExhausted ∧
      (a.current.toOption == b.current.toOption) = true := by
  obtain ⟨ended, ended'⟩ | ⟨running, running', _, _, within, within', identities, finishes,
    patterns, indices⟩ := beq_iff.mp same
  · obtain ⟨⟨_, none⟩, _⟩ := a.isExhausted_iff.mp ended
    obtain ⟨⟨_, none'⟩, _⟩ := b.isExhausted_iff.mp ended'
    rw [drain_of_ahead (ahead_of_isExhausted ended), drain_of_ahead (ahead_of_isExhausted ended'),
      ended, ended', none, none']
    exact ⟨.nil, rfl, rfl⟩
  · obtain ⟨first, paths, identity, l, finish, reachable, stepped, accepted, scope, index, drain,
      current⟩ := arises.running running
    obtain ⟨first', paths', identity', l', finish', reachable', stepped', accepted', scope', index',
      drain', current'⟩ := arises'.running running'
    obtain rfl := Option.some.inj (within.symm.trans scope)
    obtain rfl := Option.some.inj (within'.symm.trans scope')
    have shared : l.steps = l'.steps :=
      stepped.trans ((congrArg steps identities).trans stepped'.symm)
    have all := drain_alike reachable.wellFormed reachable'.wellFormed shared finishes patterns
      accepted accepted'
    -- both have passed equally many of all their paths
    rw [drain, drain'] at all
    obtain ⟨passed, onward⟩ := all.append_inv (index.symm.trans (indices.trans index'))
    rw [running, running', current, current']
    exact ⟨onward, rfl, passed.getLast?⟩

/-- Advanced, equal enumerations go to equal paths, or neither goes to any, and are equal again. -/
theorem Arises.advance_alike (arises : a.Arises steps) (arises' : b.Arises steps)
    (same : (a == b) = true) : (a.advance.1.toOption == b.advance.1.toOption) = true ∧
      (a.advance.2 == b.advance.2) = true := by
  have agree : (a.advance.1.toOption == b.advance.1.toOption) = true := by
    rw [arises.ahead.2, arises'.ahead.2]
    exact (arises.alike arises' same).1.head?
  refine ⟨agree, beq_iff.mpr ?_⟩
  rcases advanced : a.advance with ⟨cause | path, after⟩ <;>
    rcases advanced' : b.advance with ⟨cause' | path', after'⟩ <;>
    rw [advanced, advanced'] at agree <;> try contradiction
  case error.error =>
    obtain ⟨ended, past, _⟩ := advance_error advanced
    obtain ⟨ended', past', _⟩ := advance_error advanced'
    exact .inl ⟨isExhausted_of_past past ended, isExhausted_of_past past' ended'⟩
  case ok.ok =>
    obtain ⟨ahead, here, scope, pattern, index⟩ := advance_ok advanced
    obtain ⟨_, here', scope', pattern', index'⟩ := advance_ok advanced'
    obtain ⟨ended, _⟩ | ⟨_, _, s, t, within, within', identities, finishes, patterns, indices⟩ :=
      beq_iff.mp same
    · rw [ahead_of_isExhausted ended] at ahead
      contradiction
    · refine .inr ⟨isExhausted_of_at here, isExhausted_of_at here', s, t, scope.trans within,
        scope'.trans within', identities, finishes, ?_, ?_⟩
      · rw [pattern, pattern']
        exact patterns
      · rw [index, index', indices]

/-- If values and the caller's sequences are equal in the sense of an equivalence, so are
enumerations that are made over lattices told apart by their numbers and are advanced. Equal ones
cannot be told apart: both have a next path or neither, both a current one or neither, and these
are equal. The same holds when both have been advanced, and of all paths that are still to come. -/
theorem beq_bisimulation (steps : Nat → List (Step σ ν)) :
    (∀ a : Enumeration σ ν, a.Arises steps → (a == a) = true) ∧
    (∀ a b : Enumeration σ ν, (a == b) = true → (b == a) = true) ∧
    (∀ a b c : Enumeration σ ν, (a == b) = true → (b == c) = true → (a == c) = true) ∧
    ∀ a b : Enumeration σ ν, a.Arises steps → b.Arises steps → (a == b) = true →
      a.hasNext = b.hasNext ∧ a.isExhausted = b.isExhausted ∧
      (a.peek.toOption == b.peek.toOption) = true ∧
      (a.current.toOption == b.current.toOption) = true ∧
      (a.advance.1.toOption == b.advance.1.toOption) = true ∧
      (a.advance.2 == b.advance.2) = true ∧ (a.drain == b.drain) = true := by
  refine ⟨?refl, ?symm, ?trans, ?agree⟩
  case refl =>
    intro a arises
    rw [beq_iff]
    cases ended : a.isExhausted with
    | true => exact .inl ⟨rfl, rfl⟩
    | false =>
      obtain ⟨_, _, _, _, _, _, _, _, within, _⟩ := arises.running ended
      exact .inr ⟨rfl, rfl, _, _, within, within, rfl, BEq.rfl, BEq.rfl, rfl⟩
  case symm =>
    intro a b same
    obtain ⟨ended, ended'⟩ | ⟨running, running', abreast⟩ := beq_iff.mp same
    · exact beq_iff.mpr (.inl ⟨ended', ended⟩)
    · exact beq_iff.mpr (.inr ⟨running', running, abreast.symm⟩)
  case trans =>
    intro a b c first second
    rw [beq_iff] at first second ⊢
    obtain ⟨ended, ended'⟩ | ⟨running, running', abreast⟩ := first <;>
      obtain ⟨again, last⟩ | ⟨again, last, onward⟩ := second
    · exact .inl ⟨ended, last⟩
    · rw [ended'] at again
      contradiction
    · rw [running'] at again
      contradiction
    · exact .inr ⟨running, last, abreast.trans onward⟩
  case agree =>
    intro a b arises arises' same
    obtain ⟨alike, exhausted, current⟩ := arises.alike arises' same
    obtain ⟨reached, again⟩ := arises.advance_alike arises' same
    have heads := alike.head?
    rw [← arises.ahead.1, ← arises'.ahead.1] at heads
    refine ⟨?_, exhausted, ?_, current, reached, again, beq_iff_alike.mpr alike⟩
    · unfold hasNext
      cases none : a.ahead <;> cases none' : b.ahead <;> simp_all
    · rw [peek_toOption, peek_toOption]
      exact heads

end Enumeration

/-- The paths of "ab", sought in the lattice before it is settled and after it. Neither search is
at its end, and the first path is the one of two words. -/
theorem Overlap.beq_bisimulation_settled : lattice.settle.lattice.settled ≠ lattice.settled ∧
    ∃ a b : Enumeration Empty Nat, ∃ path,
      Enumeration.start 0 lattice lattice.ending .empty = .ok a ∧
      Enumeration.start 0 lattice.settle.lattice lattice.ending .empty = .ok b ∧
      a.isExhausted = false ∧ b.isExhausted = false ∧ (a == b) = true ∧
      a.advance.1 = .ok path ∧ path.outline = ([none, some 0, some 2, none], 4) ∧
      (a.advance.1.toOption == b.advance.1.toOption) = true ∧
      (a.advance.2 == b.advance.2) = true ∧
      a.drain.map Path.outline = [path.outline, ([none, some 3, none], 10)] ∧
      (a.drain == b.drain) = true := by
  have compared : (do
      let a ← Enumeration.start 0 lattice lattice.ending .empty
      let b ← Enumeration.start 0 lattice.settle.lattice lattice.ending .empty
      return (a == b, a.isExhausted)) = .ok (true, false) := by decide +kernel
  have reached : (fun a => a.advance.1.toOption.map Path.outline) <$>
      Enumeration.start 0 lattice lattice.ending .empty =
        .ok (some ([none, some 0, some 2, none], 4)) := by decide +kernel
  have drained := drain_outlines
  obtain ⟨a, accepted, rest⟩ := bind_ok_iff.mp compared
  obtain ⟨b, accepted', known⟩ := bind_ok_iff.mp rest
  obtain ⟨same, running⟩ := Prod.mk.inj (Except.ok.inj known)
  simp only [accepted, Except.map_ok, Except.ok.injEq] at reached drained
  obtain ⟨path, found, outline⟩ := Option.map_eq_some_iff.mp reached
  have arises : a.Arises fun _ => lattice.steps :=
    ⟨a, [], .stay, .inr ⟨0, lattice, lattice.ending, .empty, reachable, rfl, accepted⟩⟩
  have arises' : b.Arises fun _ => lattice.steps :=
    ⟨b, [], .stay, .inr ⟨0, _, lattice.ending, .empty, .settle reachable, rfl, accepted'⟩⟩
  obtain ⟨_, _, _, agree⟩ := Enumeration.beq_bisimulation fun _ => lattice.steps
  obtain ⟨_, exhausted, _, _, both, again, onward⟩ := agree a b arises arises' same
  have advanced : a.advance.1 = .ok path := by
    cases result : a.advance.1 with
    | error cause => simp [result, Except.toOption] at found
    | ok other => simpa [result, Except.toOption] using found
  exact ⟨by decide, a, b, path, accepted, accepted', running, exhausted ▸ running, same, advanced,
    outline, both, again, outline ▸ drained, onward⟩

end Segmentation
