import Segmentation.Proofs.Popping

/-! An enumeration that has been advanced any number of times, past its last path too.
What it has reached and what it holds ahead came out of the tails that it started with. As
these stand in the lattice, and all that comes out of them does, no search ever fails. -/
namespace Segmentation

variable {σ ν : Type} [BEq σ] [BEq ν]

namespace Enumeration

/-- What an enumeration becomes when it is advanced, and the paths that it reaches. An advance
past the last path is one that fails. -/
inductive Reaches (e : Enumeration σ ν) : List (Path σ ν) → Enumeration σ ν → Prop where
  | stay : Reaches e [] e
  | reach : Reaches e paths mid → mid.advance = (.ok path, after) →
      Reaches e (paths ++ [path]) after
  | fail {cause : Failure} : Reaches e paths mid → mid.advance = (.error cause, after) →
      Reaches e paths after

/-- The tails that a search for the paths to a last node begins with. -/
def Begins (l : Lattice σ ν) (finish : Node σ ν) (p : Pattern σ ν) (seeds : List (Tail σ ν)) :
    Prop :=
  ∃ origin before, finish.origin = some origin ∧ l.steps[origin.step]? = some before ∧
    Tail.Seeds l p before finish seeds

/-- An enumeration in a lattice that has begun with these tails and reached these paths. -/
structure Underway (l : Lattice σ ν) (finish : Node σ ν) (p : Pattern σ ν)
    (seeds : List (Tail σ ν)) (paths : List (Path σ ν)) (e : Enumeration σ ν) : Prop where
  scope : ∃ identity, e.scope = some ⟨identity, l, finish⟩
  pattern : e.pattern = p
  fresh : e.frontier.Fresh
  pops : ∃ results, l.Pops p seeds results e.frontier.tails ∧
    results.reduceOption = paths ++ e.ahead.toList

variable {l : Lattice σ ν} {finish : Node σ ν} {p : Pattern σ ν} {e after : Enumeration σ ν}
  {seeds : List (Tail σ ν)} {paths : List (Path σ ν)} {identity : Nat}

theorem Begins.eligible (begins : Begins l finish p seeds) : ∀ t ∈ seeds, t.Eligible l p := by
  obtain ⟨_, _, _, _, begun⟩ := begins
  intro t member
  have admitted := (List.mem_filter.mp (begun.perm.mem_iff.mp member)).2
  exact ⟨begun.standing t member, begun.priced t member, admitted⟩

/-- The tails at the beginning share out the chains to the last node. -/
theorem Begins.shares (begins : Begins l finish p seeds) :
    ∃ origin before, finish.origin = some origin ∧ l.steps[origin.step]? = some before ∧
      (seeds.flatMap l.completions).Subperm (l.ways (origin.step + 1) finish) := by
  obtain ⟨origin, before, follows, present, begun⟩ := begins
  have fewer := (List.filter_sublist (p := fun t => p.admits t.nodes)
    (l := (before.nodes.zip finish.edgeCosts).filterMap
      (Tail.grown? [finish] finish.entry.cost))).flatMap l.completions
  refine ⟨origin, before, follows, present, (begun.perm.flatMap_right _).subperm.trans ?_⟩
  exact (fewer.trans (Lattice.completions_sublist_ways follows present)).subperm

theorem Reaches.trans {mid last : Enumeration σ ν} {more : List (Path σ ν)}
    (first : e.Reaches paths mid) (second : mid.Reaches more last) :
    e.Reaches (paths ++ more) last := by
  induction second with
  | stay => simpa using first
  | reach _ advanced ih =>
    rw [← List.append_assoc]
    exact .reach ih advanced
  | fail _ advanced ih => exact .fail ih advanced

/-- Taking up to so many paths is advancing until there are as many, or until it fails. -/
theorem reaches_take (n : Nat) (e : Enumeration σ ν) : e.Reaches (e.take n).1 (e.take n).2 := by
  induction n generalizing e with
  | zero => exact .stay
  | succ n ih =>
    rw [take, next]
    rcases advanced : e.advance with ⟨cause | path, after⟩
    · exact .fail .stay advanced
    · exact Reaches.trans (.reach .stay advanced) (ih after)

theorem start_ok (accepted : start identity l finish p = .ok e) :
    ∃ origin preds later g, finish.origin = some origin ∧
      l.predecessors origin.step finish.edgeCosts = .ok preds ∧
      (Frontier.enqueueAll p {} (preds.filterMap
        (Tail.grown? [finish] finish.entry.cost))).next l p = (.ok later, g) ∧
      e = ⟨some ⟨identity, l, finish⟩, p, g, .before, later, 0⟩ := by
  unfold start at accepted
  cases follows : finish.origin with
  | none => simp [follows] at accepted
  | some origin =>
    simp only [follows] at accepted
    obtain ⟨preds, known, rest⟩ := bind_ok_iff.mp accepted
    obtain ⟨later, searched, same⟩ := bind_ok_iff.mp rest
    exact ⟨origin, preds, later, _, rfl, known, Prod.ext searched rfl, (Except.ok.inj same).symm⟩

omit [BEq σ] [BEq ν] in
theorem reduceOption_searched (discarded : Nat) (later : Option (Path σ ν)) :
    (List.replicate discarded none ++ later.toList.map some).reduceOption = later.toList := by
  rw [List.reduceOption_append, List.reduceOption_replicate_none, List.nil_append]
  cases later <;> rfl

theorem underway_of_start (accepted : start identity l finish p = .ok e) :
    ∃ seeds, Begins l finish p seeds ∧ Underway l finish p seeds [] e := by
  obtain ⟨origin, preds, later, g, follows, known, searched, rfl⟩ := start_ok accepted
  obtain ⟨_, there, _, rfl⟩ := Lattice.predecessors_eq_ok known
  obtain ⟨before, present, rfl⟩ := Lattice.nodesAt_eq_ok_iff.mp there
  obtain ⟨fresh, tails⟩ := Frontier.enqueueAll_spec (p := p) (f := {})
    ((before.nodes.zip finish.edgeCosts).filterMap (Tail.grown? [finish] finish.entry.cost))
    (Frontier.sound_empty l).fresh
  obtain ⟨fresh', _, discarded, _, pops⟩ := fresh.next_pops searched
  rw [tails] at pops
  exact ⟨_, ⟨origin, before, follows, present, Tail.seeds_enterAll follows known⟩,
    ⟨identity, rfl⟩, rfl, fresh', _, pops, reduceOption_searched discarded later⟩

namespace Underway

/-- The tails that wait can all be taken from the queue. -/
theorem eligible (wf : l.WellFormed) (underway : Underway l finish p seeds paths e)
    (begins : Begins l finish p seeds) : ∀ t ∈ e.frontier.tails, t.Eligible l p := by
  obtain ⟨_, pops, _⟩ := underway.pops
  exact pops.eligible wf begins.eligible

/-- The search for the path after the one ahead comes to its end. -/
theorem search (wf : l.WellFormed) (underway : Underway l finish p seeds paths e)
    (begins : Begins l finish p seeds) :
    ∃ later g discarded, e.search = (.ok later, g) ∧ g.Fresh ∧ (later = none → g.tails = []) ∧
      g.tally.discarded = e.frontier.tally.discarded + discarded ∧
      l.Pops p e.frontier.tails (List.replicate discarded none ++ later.toList.map some)
        g.tails := by
  obtain ⟨identity, within⟩ := underway.scope
  have sound : e.frontier.Sound l :=
    ⟨underway.fresh, fun t member => (underway.eligible wf begins t member).standing⟩
  obtain ⟨later, g, searched⟩ : ∃ later g, e.frontier.next l p = (.ok later, g) := by
    obtain ⟨g, searched, _⟩ | ⟨path, g, searched, _⟩ := sound.next_spec (p := p) wf
    · exact ⟨none, g, searched⟩
    · exact ⟨some path, g, searched⟩
  obtain ⟨fresh, empty, discarded, counted, pops⟩ := underway.fresh.next_pops searched
  refine ⟨later, g, discarded, ?_, fresh, empty, counted, pops⟩
  rw [Enumeration.search, within, underway.pattern]
  exact searched

/-- An advance fails only past the last path. Any other reaches the path that was ahead. -/
theorem advance (wf : l.WellFormed) (underway : Underway l finish p seeds paths e)
    (begins : Begins l finish p seeds) :
    (e.ahead = none ∧ e.advance = (.error (.misuse .pastLast), { e with cursor := .past })) ∨
    ∃ path after, e.ahead = some path ∧ e.advance = (.ok path, after) ∧
      Underway l finish p seeds (paths ++ [path]) after := by
  obtain ⟨later, g, discarded, searched, fresh, _, _, further⟩ := underway.search wf begins
  obtain ⟨results, pops, reached⟩ := underway.pops
  cases ahead : e.ahead with
  | none =>
    refine .inl ⟨rfl, ?_⟩
    rw [Enumeration.advance, ahead]
  | some path =>
    refine .inr ⟨path, e.advance.2, rfl, ?_, ?_⟩
    · simp only [Enumeration.advance, ahead, searched]
    · simp only [Enumeration.advance, ahead, searched]
      refine ⟨underway.scope, underway.pattern, fresh, _, pops.trans further, ?_⟩
      rw [List.reduceOption_append, reached, reduceOption_searched, ahead]
      rfl

end Underway

/-- However often an enumeration is advanced, it remains one of its kind. -/
theorem Reaches.underway (wf : l.WellFormed) (begins : Begins l finish p seeds)
    (begun : Underway l finish p seeds [] e) (reaches : e.Reaches paths after) :
    Underway l finish p seeds paths after := by
  induction reaches with
  | stay => exact begun
  | reach _ advanced ih =>
    obtain ⟨_, failed⟩ | ⟨path, after, _, reached, further⟩ := ih.advance wf begins
    · rw [failed] at advanced
      cases advanced
    · rw [reached] at advanced
      cases advanced
      exact further
  | fail _ advanced ih =>
    obtain ⟨_, failed⟩ | ⟨path, after, _, reached, _⟩ := ih.advance wf begins
    · rw [failed] at advanced
      cases advanced
      exact ⟨ih.scope, ih.pattern, ih.fresh, ih.pops⟩
    · rw [reached] at advanced
      cases advanced

end Enumeration

namespace Lattice

variable {l : Lattice σ ν} {finish : Node σ ν} {p : Pattern σ ν} {origin : Origin}

omit [BEq σ] [BEq ν] in
theorem predecessors_beyond (beyond : l.stepCount ≤ origin.step) (edgeCosts : List Cost) :
    l.predecessors origin.step edgeCosts = .error (.outOfRange origin.step l.stepCount) := by
  have absent : l.steps[origin.step]? = none := List.getElem?_eq_none beyond
  simp only [predecessors, nodesAt, absent, bind, Except.bind]

omit [BEq σ] [BEq ν] in
theorem predecessors_mismatch {nodes : List (Node σ ν)} {edgeCosts : List Cost}
    (there : l.nodesAt origin.step = .ok nodes) (different : edgeCosts.length ≠ nodes.length) :
    l.predecessors origin.step edgeCosts =
      .error (.invalid (.edgeCount edgeCosts.length nodes.length)) := by
  simp only [predecessors, there, bind, Except.bind, if_neg (Ne.symm different)]
  rfl

/-- A search is refused if its last node follows no step, follows one that the lattice does not
have, or does not have as many edges as there are nodes in it, and for nothing else. Once it
has started, every tail that is ever taken from its queue can be completed, and an advance
fails only if no path is left. -/
theorem search_never_fails [Sequence σ] (reachable : l.Reachable) (identity : Nat)
    (finish : Node σ ν) (p : Pattern σ ν) :
    (finish.origin = none →
      Enumeration.start identity l finish p = .error (.invalid .noOrigin)) ∧
    (∀ origin, finish.origin = some origin → l.stepCount ≤ origin.step →
      Enumeration.start identity l finish p =
        .error (.outOfRange origin.step l.stepCount)) ∧
    (∀ origin nodes, finish.origin = some origin → l.nodesAt origin.step = .ok nodes →
      finish.edgeCosts.length ≠ nodes.length → Enumeration.start identity l finish p =
        .error (.invalid (.edgeCount finish.edgeCosts.length nodes.length))) ∧
    (∀ origin nodes, finish.origin = some origin → l.nodesAt origin.step = .ok nodes →
      finish.edgeCosts.length = nodes.length →
        ∃ e, Enumeration.start identity l finish p = .ok e) ∧
    ∀ e paths after, Enumeration.start identity l finish p = .ok e → e.Reaches paths after →
      (∀ results t ts, l.Pops p after.frontier.tails results (t :: ts) →
        ∃ x, l.expand p t = .ok x) ∧
      ∀ cause, after.advance.1 = .error cause ↔ cause = .misuse .pastLast ∧ after.ahead = none := by
  have wf := reachable.wellFormed
  refine ⟨?unconnected, ?beyond, ?mismatch, ?accepted, ?running⟩
  case unconnected =>
    intro unconnected
    simp only [Enumeration.start, unconnected]
  case beyond =>
    intro origin follows beyond
    simp only [Enumeration.start, follows, predecessors_beyond beyond, bind, Except.bind]
  case mismatch =>
    intro origin nodes follows there different
    simp only [Enumeration.start, follows, predecessors_mismatch there different, bind, Except.bind]
  case accepted =>
    intro origin nodes follows there same
    obtain ⟨before, present, rfl⟩ := nodesAt_eq_ok_iff.mp there
    exact Enumeration.start_accepts wf identity p follows (predecessors_of_get present same)
  case running =>
    intro e paths after accepted reaches
    obtain ⟨seeds, begins, first⟩ := Enumeration.underway_of_start accepted
    have underway := reaches.underway wf begins first
    constructor
    · intro results t ts pops
      have waiting := pops.eligible wf (underway.eligible wf begins) t List.mem_cons_self
      obtain ⟨x, expanded, _⟩ := wf.expand_ok (p := p) waiting.standing
      exact ⟨x, expanded⟩
    · intro cause
      obtain ⟨ended, failed⟩ | ⟨path, _, ahead, reached, _⟩ := underway.advance wf begins
      · simp only [failed, ended, Except.error.injEq, and_true, eq_comm]
      · simp [reached, ahead]

end Lattice

namespace Overlap

/-- An end that is made by hand, whose best predecessor is none of the two that it has. -/
def stray : Node Empty Nat := .finish ⟨1, 9⟩ [0, 7] 5

/-- In the lattice of "ab" a search for it starts, and fails only past its last path. -/
theorem search_never_fails_stray : lattice.Reachable ∧ stray.origin = some ⟨1, 9⟩ ∧
    (∃ nodes, lattice.nodesAt 1 = .ok nodes ∧ stray.edgeCosts.length = nodes.length) ∧
    ∃ e, Enumeration.start 0 lattice stray .empty = .ok e ∧ e.Reaches [] e ∧
      ∀ cause, e.advance.1 = .error cause ↔ cause = .misuse .pastLast ∧ e.ahead = none := by
  obtain ⟨_, _, _, accepts, running⟩ := Lattice.search_never_fails reachable 0 stray .empty
  obtain ⟨e, accepted⟩ := accepts ⟨1, 9⟩ _ rfl rfl rfl
  exact ⟨reachable, rfl, ⟨_, rfl, rfl⟩, e, accepted, .stay, (running e [] e accepted .stay).2⟩

end Overlap

end Segmentation
