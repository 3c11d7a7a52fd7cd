import Segmentation.Enumeration
import Segmentation.Proofs.Matching
import Segmentation.Proofs.Retrace
import Segmentation.Proofs.Viterbi
import Segmentation.Proofs.Waiting

/-! All paths that an enumeration reaches, one after the other.
They depend on the tails that wait and on nothing else of its state. -/
namespace Segmentation

variable {σ ν : Type}

variable [BEq σ] [BEq ν] {l : Lattice σ ν} {p : Pattern σ ν}

/-- The tails that wait after what came out of one has been queued before the others. -/
def Expansion.queued (p : Pattern σ ν) (x : Expansion σ ν) (ts : List (Tail σ ν)) :
    List (Tail σ ν) :=
  Tail.enterAll (x.tails.filter fun t => p.admits t.nodes) ts

theorem Expansion.weights_queued_lt {x : Expansion σ ν} {t : Tail σ ν} {ts : List (Tail σ ν)}
    (expanded : l.expand p t = .ok x) :
    Tail.weights l.base (x.queued p ts) < Tail.weights l.base (t :: ts) := by
  have lighter := Lattice.weights_expand_lt expanded
  have admitted : (x.tails.filter fun t => p.admits t.nodes).Sublist x.tails :=
    List.filter_sublist
  have fewer := (admitted.map (Tail.weight l.base)).sum_le_sum fun _ _ => Nat.zero_le _
  have entered := ((Tail.enterAll_perm (x.tails.filter fun t => p.admits t.nodes) ts).map
    (Tail.weight l.base)).sum_nat
  simp only [Tail.weights, queued, entered, List.map_append, List.map_cons, List.sum_append_nat,
    List.sum_cons] at lighter fewer ⊢
  omega

theorem Tail.filter_empty_admits (ts : List (Tail σ ν)) :
    ts.filter (fun t => Pattern.empty.admits t.nodes) = ts :=
  List.filter_eq_self.mpr fun t _ => Pattern.empty_admits t.nodes

theorem Expansion.queued_empty (x : Expansion σ ν) (ts : List (Tail σ ν)) :
    x.queued .empty ts = Tail.enterAll x.tails ts := by
  rw [queued, Tail.filter_empty_admits]

theorem Expansion.queued_empty_perm (x : Expansion σ ν) (ts : List (Tail σ ν)) :
    (x.queued .empty ts).Perm (x.tails ++ ts) := by
  rw [queued_empty]
  exact Tail.enterAll_perm x.tails ts

theorem Expansion.mem_of_queued {x : Expansion σ ν} {ts : List (Tail σ ν)} {u : Tail σ ν}
    (member : u ∈ x.queued p ts) : u ∈ x.tails ∨ u ∈ ts := by
  rw [queued, (Tail.enterAll_perm _ _).mem_iff, List.mem_append] at member
  exact member.imp_left fun new => (List.mem_filter.mp new).1

/-- The values of the words on a path, and what it costs. -/
def Path.outline (path : Path σ ν) : List (Option ν) × Cost :=
  (path.nodes.map (·.entry.value), path.cost)

/-- The paths that waiting tails lead to. -/
def Lattice.outcomes (l : Lattice σ ν) (p : Pattern σ ν) (tails : List (Tail σ ν)) :
    List (Path σ ν) :=
  match tails with
  | [] => []
  | t :: ts =>
    match expanded : l.expand p t with
    | .error _ => []
    | .ok x =>
      (x.nodes.map fun nodes => ⟨nodes, t.wholeCost⟩).toList ++ l.outcomes p (x.queued p ts)
termination_by Tail.weights l.base tails
decreasing_by exact Expansion.weights_queued_lt expanded

theorem Lattice.outcomes_nil (l : Lattice σ ν) (p : Pattern σ ν) : l.outcomes p [] = [] := by
  rw [outcomes]

theorem Lattice.outcomes_cons {t : Tail σ ν} {ts : List (Tail σ ν)} {x : Expansion σ ν}
    (expanded : l.expand p t = .ok x) : l.outcomes p (t :: ts) =
      (x.nodes.map fun nodes => ⟨nodes, t.wholeCost⟩).toList ++ l.outcomes p (x.queued p ts) := by
  rw [outcomes]
  split
  next failure failed =>
    rw [expanded] at failed
    contradiction
  next y expanded' =>
    obtain rfl := Except.ok.inj (expanded.symm.trans expanded')
    rfl

theorem Lattice.WellFormed.expand_queued (wf : l.WellFormed) {t : Tail σ ν} {ts : List (Tail σ ν)}
    (first : t.Standing l) (others : ∀ u ∈ ts, u.Standing l) {x : Expansion σ ν}
    (expanded : l.expand p t = .ok x) : ∀ u ∈ x.queued p ts, u.Standing l := by
  obtain ⟨y, expanded', standing⟩ := wf.expand_ok (p := p) first
  obtain rfl := Except.ok.inj (expanded.symm.trans expanded')
  intro u member
  exact (Expansion.mem_of_queued member).elim (standing u) (others u)

/-- No path comes after a dearer one, if what comes out of a tail is never cheaper than the
tail, as far as the tails keep a property by which this is known. -/
theorem Lattice.WellFormed.outcomes_sorted_of (wf : l.WellFormed) {motive : Tail σ ν → Prop}
    (dearer : ∀ t x, t.Standing l → motive t → l.expand p t = .ok x →
      ∀ u ∈ x.tails, motive u ∧ t.wholeCost ≤ u.wholeCost)
    {ts : List (Tail σ ν)} (sorted : Tail.Sorted ts) (standing : ∀ t ∈ ts, t.Standing l)
    (kept : ∀ t ∈ ts, motive t) :
    ((l.outcomes p ts).Pairwise fun first second => first.cost ≤ second.cost) ∧
      ∀ path ∈ l.outcomes p ts, ∃ t ∈ ts, t.wholeCost ≤ path.cost := by
  fun_induction Lattice.outcomes l p ts with
  | case1 => exact ⟨.nil, by simp⟩
  | case2 => exact ⟨.nil, by simp⟩
  | case3 t ts x expanded ih =>
    obtain ⟨above, later⟩ := List.pairwise_cons.mp sorted
    have new := dearer t x (standing t List.mem_cons_self) (kept t List.mem_cons_self) expanded
    have queued : ∀ u ∈ x.queued p ts, motive u ∧ t.wholeCost ≤ u.wholeCost := by
      intro u member
      rcases Expansion.mem_of_queued member with passed | old
      · exact new u passed
      · exact ⟨kept u (List.mem_cons_of_mem t old), above u old⟩
    obtain ⟨onward, behind⟩ := ih (Tail.sorted_enterAll later)
      (wf.expand_queued (standing t List.mem_cons_self)
        (fun u member => standing u (List.mem_cons_of_mem t member)) expanded)
      (fun u member => (queued u member).1)
    have least : ∀ other ∈ l.outcomes p (x.queued p ts), t.wholeCost ≤ other.cost := by
      intro other member
      obtain ⟨u, inside, below⟩ := behind other member
      exact Cost.le_trans (queued u inside).2 below
    cases x.nodes with
    | none =>
      refine ⟨onward, ?_⟩
      intro other member
      exact ⟨t, List.mem_cons_self, least other member⟩
    | some nodes =>
      refine ⟨.cons least onward, ?_⟩
      intro other member
      rcases List.mem_cons.mp member with rfl | member
      · exact ⟨t, List.mem_cons_self, Cost.le_refl _⟩
      · exact ⟨t, List.mem_cons_self, least other member⟩

namespace Frontier

variable {f g : Frontier σ ν}

/-- The tails that wait can be taken from the queue without a failure. -/
structure Sound (l : Lattice σ ν) (f : Frontier σ ν) : Prop where
  fresh : f.Fresh
  standing : ∀ t ∈ f.tails, t.Standing l

omit [BEq σ] [BEq ν] in
theorem sound_empty (l : Lattice σ ν) : ({} : Frontier σ ν).Sound l :=
  ⟨fun _ member => absurd member List.not_mem_nil, fun _ member => absurd member List.not_mem_nil⟩

theorem Sound.enqueueAll (sound : f.Sound l) {ts : List (Tail σ ν)}
    (standing : ∀ t ∈ ts, t.Standing l) : (f.enqueueAll p ts).Sound l := by
  obtain ⟨fresh, tails⟩ := enqueueAll_spec (p := p) ts sound.fresh
  refine ⟨fresh, ?_⟩
  intro t member
  rw [tails, (Tail.enterAll_perm _ _).mem_iff, List.mem_append] at member
  rcases member with new | old
  · exact standing t (List.mem_filter.mp new).1
  · exact sound.standing t old

/-- Taking the first tail from a sound queue. -/
theorem Sound.pop (wf : l.WellFormed) (sound : f.Sound l) {ticket : Ticket σ ν}
    {queue : List (Ticket σ ν)} (waiting : f.queue = ticket :: queue) {x : Expansion σ ν}
    (expanded : l.expand p ticket.tail = .ok x) :
    ({ f with queue := queue }.enqueueAll p x.tails).Sound l ∧
      ({ f with queue := queue }.enqueueAll p x.tails).tails =
        x.queued p (queue.map Ticket.tail) := by
  have first : ticket.tail.Standing l := sound.standing _ (by simp [tails, waiting])
  have popped : ({ f with queue := queue } : Frontier σ ν).Sound l := by
    refine ⟨?_, ?_⟩
    · intro other member
      exact sound.fresh other (waiting ▸ List.mem_cons_of_mem _ member)
    · intro t member
      refine sound.standing t ?_
      rw [tails, waiting]
      exact List.mem_cons_of_mem _ member
  obtain ⟨y, expanded', standing⟩ := wf.expand_ok (p := p) first
  obtain rfl := Except.ok.inj (expanded.symm.trans expanded')
  exact ⟨popped.enqueueAll standing, (enqueueAll_spec x.tails popped.fresh).2⟩

/-- The next path is the first of the outcomes, and the others are still to come. -/
theorem Sound.next_spec (wf : l.WellFormed) (sound : f.Sound l) :
    (∃ g, f.next l p = (.ok none, g) ∧ l.outcomes p f.tails = []) ∨
    ∃ path g, f.next l p = (.ok (some path), g) ∧ g.Sound l ∧
      l.outcomes p f.tails = path :: l.outcomes p g.tails := by
  fun_induction Frontier.next l p f with
  | case1 f empty =>
    refine .inl ⟨f, rfl, ?_⟩
    rw [tails, empty]
    exact l.outcomes_nil p
  | case2 f number t queue waiting failure failed =>
    obtain ⟨x, expanded, _⟩ := wf.expand_ok (p := p) (sound.standing t (by simp [tails, waiting]))
    rw [failed] at expanded
    contradiction
  | case3 f number t queue waiting x expanded rest nodes complete =>
    obtain ⟨still, left⟩ := sound.pop wf waiting expanded
    refine .inr ⟨_, rest, rfl, still, ?_⟩
    rw [tails, waiting, List.map_cons, Lattice.outcomes_cons expanded, complete, left]
    rfl
  | case4 f number t queue waiting x expanded rest incomplete ih =>
    obtain ⟨still, left⟩ := sound.pop wf waiting expanded
    have same : l.outcomes p f.tails = l.outcomes p (rest.discard t).tails := by
      rw [tails, waiting, List.map_cons, Lattice.outcomes_cons expanded, incomplete]
      exact congrArg (l.outcomes p) left.symm
    rw [same]
    exact ih ⟨still.fresh, still.standing⟩

theorem weight_next_lt {path : Path σ ν} (found : f.next l p = (.ok (some path), g)) :
    g.weight l.base < f.weight l.base := by
  fun_induction Frontier.next l p f with
  | case1 => simp at found
  | case2 => simp at found
  | case3 f number t queue waiting x expanded rest nodes complete =>
    obtain rfl : rest = g := (Prod.mk.inj found).2
    exact weight_enqueueAll_lt waiting expanded
  | case4 f number t queue waiting x expanded rest incomplete ih =>
    exact Nat.lt_trans (ih found) (weight_enqueueAll_lt waiting expanded)

end Frontier

namespace Enumeration

variable {e after : Enumeration σ ν} {path : Path σ ν}

/-- A bound on the paths that are still to come. -/
def remaining (e : Enumeration σ ν) : Nat :=
  match e.ahead, e.scope with
  | none, _ => 0
  | some _, none => 1
  | some _, some scope => e.frontier.weight scope.lattice.base + 1

theorem remaining_next_lt (found : e.next = (some path, after)) :
    after.remaining < e.remaining := by
  obtain ⟨scope, pattern, frontier, cursor, ahead, index⟩ := e
  unfold next advance search at found
  cases ahead with
  | none => simp [Except.toOption] at found
  | some first =>
    cases scope with
    | none =>
      cases found
      exact Nat.one_pos
    | some scope =>
      dsimp only at found
      cases searched : frontier.next scope.lattice pattern with
      | mk result g =>
        rw [searched] at found
        cases result with
        | error failure => simp [Except.toOption] at found
        | ok later =>
          cases found
          cases later with
          | none => exact Nat.succ_pos _
          | some second =>
            have lighter := Frontier.weight_next_lt searched
            exact Nat.succ_lt_succ lighter

set_option linter.unusedVariables false in
/-- Takes paths until there are none. -/
def drain (e : Enumeration σ ν) : List (Path σ ν) :=
  match found : e.next with
  | (none, _) => []
  | (some path, after) => path :: after.drain
termination_by e.remaining
decreasing_by exact remaining_next_lt found

theorem drain_of_none (ended : e.next.1 = none) : e.drain = [] := by
  rw [drain]
  split
  next => rfl
  next found => simp [found] at ended

theorem drain_of_some (found : e.next = (some path, after)) : e.drain = path :: after.drain := by
  rw [drain]
  split
  next ended => simp [found] at ended
  next other after' found' =>
    obtain ⟨same, same'⟩ := Prod.mk.inj (found.symm.trans found')
    cases same
    cases same'
    rfl

/-- Taking a number of paths gives the first so many of them all. -/
theorem take_eq (n : Nat) (e : Enumeration σ ν) : (e.take n).1 = e.drain.take n := by
  induction n generalizing e with
  | zero => rfl
  | succ n ih =>
    rw [take]
    split
    next after ended =>
      rw [drain_of_none (by rw [ended])]
      rfl
    next path after found =>
      rw [drain_of_some found, List.take_succ_cons, ← ih after]

theorem next_of_search {scope : Scope σ ν} (within : e.scope = some scope)
    (ahead : e.ahead = some path) {later : Option (Path σ ν)} {g : Frontier σ ν}
    (searched : e.frontier.next scope.lattice e.pattern = (.ok later, g)) :
    ∃ after, e.next = (some path, after) ∧ after.scope = some scope ∧
      after.pattern = e.pattern ∧ after.ahead = later ∧ after.frontier.tails = g.tails ∧
      (g.Sound scope.lattice → after.frontier.Sound scope.lattice) := by
  obtain ⟨_, pattern, frontier, cursor, _, index⟩ := e
  cases within
  cases ahead
  simp only [next, advance, search, searched]
  exact ⟨_, rfl, rfl, rfl, rfl, rfl, fun sound => ⟨sound.fresh, sound.standing⟩⟩

/-- The path ahead and the outcomes of what waits are all that is to come. -/
theorem drain_eq_outcomes {scope : Scope σ ν} (wf : scope.lattice.WellFormed)
    (within : e.scope = some scope) (sound : e.frontier.Sound scope.lattice)
    (ahead : e.ahead = some path) :
    e.drain = path :: scope.lattice.outcomes e.pattern e.frontier.tails := by
  generalize come : scope.lattice.outcomes e.pattern e.frontier.tails = paths
  induction paths generalizing e path with
  | nil =>
    obtain ⟨g, searched, _⟩ | ⟨_, g, _, _, more⟩ := sound.next_spec (p := e.pattern) wf
    · obtain ⟨after, reached, _, _, ended, _, _⟩ := next_of_search within ahead searched
      have last : after.next.1 = none := by simp only [next, advance, ended, Except.toOption]
      rw [drain_of_some reached, drain_of_none last]
    · rw [come] at more
      contradiction
  | cons second paths ih =>
    obtain ⟨_, _, none⟩ | ⟨_, g, searched, still, more⟩ := sound.next_spec (p := e.pattern) wf
    · rw [come] at none
      contradiction
    · obtain ⟨after, reached, within', pattern, ahead', tails, sound'⟩ :=
        next_of_search within ahead searched
      obtain ⟨rfl, rest⟩ := List.cons.inj (come.symm.trans more)
      rw [drain_of_some reached, ih within' (sound' still) ahead' (by rw [pattern, tails, rest])]

/-- Draining a new enumeration gives the outcomes of one tail for each node that its
last node follows and that is not out of reach. -/
theorem drain_start (wf : l.WellFormed) (identity : Nat) (finish : Node σ ν) (p : Pattern σ ν) :
    drain <$> start identity l finish p =
      match finish.origin with
      | none => .error (.invalid .noOrigin)
      | some origin => (fun preds => l.outcomes p (Tail.enterAll
          ((preds.filterMap (Tail.grown? [finish] finish.entry.cost)).filter
            fun t => p.admits t.nodes) [])) <$> l.predecessors origin.step finish.edgeCosts := by
  unfold start
  cases follows : finish.origin with
  | none => rfl
  | some origin =>
    dsimp only
    cases known : l.predecessors origin.step finish.edgeCosts with
    | error failure => rfl
    | ok preds =>
      have waiting := (Frontier.sound_empty l).enqueueAll (p := p)
        (Tail.standing_seeds follows known)
      have tails := (Frontier.enqueueAll_spec (p := p)
        (preds.filterMap (Tail.grown? [finish] finish.entry.cost)) (Frontier.sound_empty l).fresh).2
      change _ = Except.ok (l.outcomes p (Tail.enterAll _ (Frontier.tails {})))
      rw [← tails]
      obtain ⟨g, searched, none⟩ | ⟨path, g, searched, still, more⟩ := waiting.next_spec (p := p) wf
      · rw [none]
        simp only [bind, Except.bind, searched, Functor.map, Except.map, pure, Except.pure]
        rw [drain_of_none rfl]
      · rw [more]
        simp only [bind, Except.bind, searched, Functor.map, Except.map, pure, Except.pure]
        have drained := drain_eq_outcomes
          (e := ⟨some ⟨identity, l, finish⟩, p, g, .before, some path, 0⟩) wf rfl still rfl
        exact congrArg Except.ok drained

/-- An enumeration starts if the last node fits the step that it follows. -/
theorem start_accepts (wf : l.WellFormed) (identity : Nat) {finish : Node σ ν}
    (p : Pattern σ ν) {origin : Origin} (follows : finish.origin = some origin)
    {preds : List (Node σ ν × Cost)}
    (known : l.predecessors origin.step finish.edgeCosts = .ok preds) :
    ∃ e, start identity l finish p = .ok e := by
  have drained := drain_start wf identity finish p
  rw [follows] at drained
  dsimp only at drained
  rw [known] at drained
  cases started : start identity l finish p with
  | ok e => exact ⟨e, rfl⟩
  | error failure =>
    rw [started] at drained
    contradiction

theorem start_of_settled (wf : l.WellFormed) {eos : Node σ ν}
    (settled : l.settle.result = .ok eos) (identity : Nat) (p : Pattern σ ν) :
    ∃ e, start identity l eos p = .ok e := by
  have relaxed := (wf.relaxed_settled settled).1
  exact start_accepts wf identity p relaxed.origin
    (Lattice.predecessors_of_get relaxed.present relaxed.edges)

theorem drain_of_start (wf : l.WellFormed) {identity : Nat} {finish : Node σ ν}
    (accepted : start identity l finish p = .ok e) :
    ∃ origin before, finish.origin = some origin ∧ l.steps[origin.step]? = some before ∧
      l.predecessors origin.step finish.edgeCosts =
        .ok (before.nodes.zip finish.edgeCosts) ∧
      e.drain = l.outcomes p (Tail.enterAll
        (((before.nodes.zip finish.edgeCosts).filterMap
          (Tail.grown? [finish] finish.entry.cost)).filter fun t => p.admits t.nodes) []) := by
  have drained := drain_start wf identity finish p
  rw [accepted] at drained
  cases follows : finish.origin with
  | none =>
    rw [follows] at drained
    contradiction
  | some origin =>
    rw [follows] at drained
    dsimp only at drained
    cases known : l.predecessors origin.step finish.edgeCosts with
    | error failure =>
      rw [known] at drained
      contradiction
    | ok preds =>
      rw [known] at drained
      obtain ⟨_, there, _, rfl⟩ := Lattice.predecessors_eq_ok known
      obtain ⟨before, present, rfl⟩ := Lattice.nodesAt_eq_ok_iff.mp there
      exact ⟨origin, before, rfl, present, known, Except.ok.inj drained⟩

end Enumeration

/-- "ab" has two paths. A third one has no edge between its words. -/
theorem Overlap.drain_outlines :
    (fun e => e.drain.map Path.outline) <$> Enumeration.start 0 lattice lattice.ending .empty =
      .ok [([none, some 0, some 2, none], 4), ([none, some 3, none], 10)] := by decide +kernel

end Segmentation
