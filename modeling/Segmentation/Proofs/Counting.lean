import Segmentation.Proofs.Asking

/-! What becomes of the tails that are queued.
Each of them waits, has been discarded, or has given a path that has been reached or is the one
ahead. The numbers that a search keeps say exactly how many of each kind there are. -/
namespace Segmentation

variable {σ ν : Type} [BEq σ] [BEq ν] {l : Lattice σ ν} {p : Pattern σ ν}

theorem Lattice.Pops.eq_of_nil {ts us : List (Tail σ ν)} (pops : l.Pops p ts [] us) : us = ts := by
  cases pops
  rfl

/-- Every path matches the empty pattern, so no tail is taken in vain. -/
theorem Lattice.Pops.none_discarded (wf : l.WellFormed) {ts us : List (Tail σ ν)}
    {results : List (Option (Path σ ν))} {discarded : Nat}
    (pops : l.Pops .empty ts (List.replicate discarded none ++ results) us)
    (all : ∀ t ∈ ts, t.Eligible l .empty) : discarded = 0 := by
  cases discarded with
  | zero => rfl
  | succ discarded =>
    generalize outcome : List.replicate (discarded + 1) none ++ results = taken at pops
    cases pops with
    | done => cases outcome
    | pop expanded _ =>
      obtain ⟨_, path, again, complete, _⟩ := wf.expand_eligible (all _ List.mem_cons_self)
      obtain rfl := Except.ok.inj (expanded.symm.trans again)
      rw [complete] at outcome
      cases outcome

namespace Frontier

variable {f g : Frontier σ ν} {later : Option (Path σ ν)} {held reached : Nat}

/-- Of the tails that have been queued, so many have given a path that is not yet counted. -/
def Balanced (held : Nat) (f : Frontier σ ν) : Prop :=
  f.tally.queued = f.tally.yielded + f.tally.discarded + f.queue.length + held

theorem Balanced.enqueueAll (balanced : f.Balanced held) (ts : List (Tail σ ν)) :
    (f.enqueueAll p ts).Balanced held := by
  obtain ⟨yielded, discarded, queued, _⟩ := f.enqueueAll_tally p ts
  unfold Balanced at balanced ⊢
  omega

omit [BEq σ] [BEq ν] in
/-- The tail that is taken from the queue is held until it is known whether it gives a path. -/
theorem Balanced.pop {ticket : Ticket σ ν} {queue : List (Ticket σ ν)}
    (balanced : f.Balanced held) (waiting : f.queue = ticket :: queue) :
    ({ f with queue := queue } : Frontier σ ν).Balanced (held + 1) := by
  unfold Balanced at balanced ⊢
  rw [waiting, List.length_cons] at balanced
  dsimp only
  omega

omit [BEq σ] [BEq ν] in
theorem Balanced.discard (balanced : f.Balanced (held + 1)) (t : Tail σ ν) :
    (f.discard t).Balanced held := by
  unfold Balanced at balanced
  unfold Balanced Frontier.discard
  dsimp only
  omega

theorem Balanced.next (balanced : f.Balanced held) (searched : f.next l p = (.ok later, g)) :
    g.Balanced (held + later.toList.length) := by
  fun_induction Frontier.next l p f with
  | case1 f empty =>
    obtain ⟨rfl, rfl⟩ : none = later ∧ f = g := by simpa using searched
    exact balanced
  | case2 => simp at searched
  | case3 f number t queue waiting x expanded rest nodes complete =>
    obtain ⟨rfl, rfl⟩ : some ⟨nodes, t.wholeCost⟩ = later ∧ rest = g := by simpa using searched
    exact (balanced.pop waiting).enqueueAll x.tails
  | case4 f number t queue waiting x expanded rest incomplete ih =>
    exact ih (((balanced.pop waiting).enqueueAll x.tails).discard t) searched

/-- A search for the next path does not count it yet, and without a pattern prunes nothing. -/
theorem next_tally (searched : f.next l p = (.ok later, g)) :
    g.tally.yielded = f.tally.yielded ∧
    ((∀ nodes, p.admits nodes = true) → g.tally.pruned = f.tally.pruned) := by
  fun_induction Frontier.next l p f with
  | case1 f empty =>
    obtain ⟨rfl, rfl⟩ : none = later ∧ f = g := by simpa using searched
    exact ⟨rfl, fun _ => rfl⟩
  | case2 => simp at searched
  | case3 f number t queue waiting x expanded rest nodes complete =>
    obtain ⟨rfl, rfl⟩ : some ⟨nodes, t.wholeCost⟩ = later ∧ rest = g := by simpa using searched
    obtain ⟨yielded, _, _, pruned⟩ := enqueueAll_tally { f with queue := queue } p x.tails
    exact ⟨yielded, fun all => pruned fun u _ => all u.nodes⟩
  | case4 f number t queue waiting x expanded rest incomplete ih =>
    obtain ⟨yielded, _, _, pruned⟩ := enqueueAll_tally { f with queue := queue } p x.tails
    obtain ⟨yielded', pruned'⟩ := ih searched
    exact ⟨yielded'.trans yielded, fun all => (pruned' all).trans (pruned fun u _ => all u.nodes)⟩

/-- The numbers that are kept when so many paths have been reached and so many are held. -/
structure Counted (p : Pattern σ ν) (reached held : Nat) (f : Frontier σ ν) : Prop where
  balanced : f.Balanced held
  yielded : f.tally.yielded = reached
  unpruned : p = .empty → f.tally.pruned = 0
  undiscarded : p = .empty → f.tally.discarded = 0

omit [BEq σ] [BEq ν] in
theorem counted_empty (p : Pattern σ ν) : ({} : Frontier σ ν).Counted p 0 0 :=
  ⟨rfl, rfl, fun _ => rfl, fun _ => rfl⟩

theorem Counted.enqueueAll (counted : f.Counted p reached held) (ts : List (Tail σ ν)) :
    (f.enqueueAll p ts).Counted p reached held := by
  obtain ⟨yielded, discarded, _, pruned⟩ := f.enqueueAll_tally p ts
  refine ⟨counted.balanced.enqueueAll ts, yielded.trans counted.yielded, ?_, ?_⟩
  · rintro rfl
    exact (pruned fun t _ => Pattern.empty_admits t.nodes).trans (counted.unpruned rfl)
  · intro nothing
    exact discarded.trans (counted.undiscarded nothing)

theorem Counted.next (wf : l.WellFormed) (fresh : f.Fresh)
    (eligible : ∀ t ∈ f.tails, t.Eligible l p) (counted : f.Counted p reached held)
    (searched : f.next l p = (.ok later, g)) :
    g.Counted p reached (held + later.toList.length) := by
  obtain ⟨yielded, pruned⟩ := next_tally searched
  obtain ⟨_, _, discarded, more, pops⟩ := fresh.next_pops searched
  refine ⟨counted.balanced.next searched, yielded.trans counted.yielded, ?_, ?_⟩
  · rintro rfl
    exact (pruned Pattern.empty_admits).trans (counted.unpruned rfl)
  · rintro rfl
    rw [more, pops.none_discarded wf eligible, counted.undiscarded rfl]

end Frontier

namespace Enumeration

variable {finish : Node σ ν} {e after : Enumeration σ ν} {seeds : List (Tail σ ν)}
  {paths : List (Path σ ν)} {path : Path σ ν} {identity : Nat}

/-- The numbers that an enumeration keeps, when it has reached these paths. -/
structure Counted (p : Pattern σ ν) (paths : List (Path σ ν)) (e : Enumeration σ ν) : Prop where
  counted : e.frontier.Counted p paths.length e.ahead.toList.length
  emptied : e.ahead = none → e.frontier.queue = []

theorem counted_of_start (wf : l.WellFormed) (accepted : start identity l finish p = .ok e) :
    Counted p [] e := by
  obtain ⟨origin, preds, later, g, follows, known, searched, rfl⟩ := start_ok accepted
  obtain ⟨_, there, _, rfl⟩ := Lattice.predecessors_eq_ok known
  obtain ⟨before, present, rfl⟩ := Lattice.nodesAt_eq_ok_iff.mp there
  have begins : Begins l finish p _ :=
    ⟨origin, before, follows, present, Tail.seeds_enterAll follows known⟩
  obtain ⟨fresh, tails⟩ := Frontier.enqueueAll_spec (p := p) (f := {})
    ((before.nodes.zip finish.edgeCosts).filterMap (Tail.grown? [finish] finish.entry.cost))
    (Frontier.sound_empty l).fresh
  obtain ⟨_, empty, _⟩ := fresh.next_pops searched
  have seeded := (Frontier.counted_empty p).enqueueAll
    ((before.nodes.zip finish.edgeCosts).filterMap (Tail.grown? [finish] finish.entry.cost))
  have counted := seeded.next wf fresh (tails ▸ begins.eligible) searched
  rw [Nat.zero_add] at counted
  exact ⟨counted, fun none => List.map_eq_nil_iff.mp (empty none)⟩

/-- An advance takes the tails that it counts as discarded, and the one that gives the path that
comes after the one it goes to. -/
theorem Counted.advance (wf : l.WellFormed) (underway : Underway l finish p seeds paths e)
    (begins : Begins l finish p seeds) (counted : Counted p paths e)
    (advanced : e.advance = (.ok path, after)) :
    Counted p (paths ++ [path]) after ∧
    ∃ discarded, after.frontier.tally.discarded = e.frontier.tally.discarded + discarded ∧
      l.Pops p e.frontier.tails (List.replicate discarded none ++ after.ahead.toList.map some)
        after.frontier.tails := by
  obtain ⟨later, g, discarded, searched, _, empty, more, pops⟩ := underway.search wf begins
  obtain ⟨identity, within⟩ := underway.scope
  have next : e.frontier.next l p = (.ok later, g) := by
    simpa only [search, within, underway.pattern] using searched
  have further := counted.counted.next wf underway.fresh (underway.eligible wf begins) next
  cases ahead : e.ahead with
  | none => simp [Enumeration.advance, ahead] at advanced
  | some held =>
    simp only [Enumeration.advance, ahead, searched] at advanced
    cases advanced
    refine ⟨⟨⟨?_, ?_, further.unpruned, further.undiscarded⟩,
      fun none => List.map_eq_nil_iff.mp (empty none)⟩, discarded, more, pops⟩
    · -- the path that was held is counted now
      have balanced := further.balanced
      simp only [Frontier.Balanced, ahead, Option.toList_some, List.length_singleton] at balanced ⊢
      omega
    · simp [further.yielded]

theorem Reaches.counted (wf : l.WellFormed) (begins : Begins l finish p seeds)
    (begun : Underway l finish p seeds [] e) (first : Counted p [] e)
    (reaches : e.Reaches paths after) : Counted p paths after := by
  induction reaches with
  | stay => exact first
  | reach reaches advanced ih =>
    exact (ih.advance wf (reaches.underway wf begins begun) begins advanced).1
  | fail reaches advanced ih =>
    obtain ⟨_, failed⟩ | ⟨_, _, _, reached, _⟩ :=
      (reaches.underway wf begins begun).advance wf begins
    · rw [failed] at advanced
      cases advanced
      exact ⟨ih.counted, ih.emptied⟩
    · rw [reached] at advanced
      cases advanced

/-- At any time, the tails that have been queued are as many as the paths that have been
reached, the tails that have been discarded, those that wait and, if there is a path ahead, one
more. An advance takes the tails that it discards and, if there is a path after the one that it
goes to, one more. Without a pattern no tail is pruned or discarded, so that an advance takes
exactly one if any waits. At the end no tail waits. -/
theorem tails_conserved [Sequence σ] (reachable : l.Reachable)
    (accepted : start identity l finish p = .ok e) (reaches : e.Reaches paths after) :
    after.frontier.tally.queued = after.frontier.tally.yielded + after.frontier.tally.discarded +
      after.frontier.queue.length + (if after.hasNext then 1 else 0) ∧
    after.frontier.tally.yielded = paths.length ∧
    (∀ path last, after.advance = (.ok path, last) → ∃ discarded,
      last.frontier.tally.discarded = after.frontier.tally.discarded + discarded ∧
      l.Pops p after.frontier.tails (List.replicate discarded none ++ last.ahead.toList.map some)
        last.frontier.tails) ∧
    (p = .empty → after.frontier.tally.pruned = 0 ∧ after.frontier.tally.discarded = 0 ∧
      ∀ path last, after.advance = (.ok path, last) → after.frontier.queue ≠ [] →
        ∃ further, last.ahead = some further ∧
          l.Pops p after.frontier.tails [some further] last.frontier.tails) ∧
    (after.isExhausted = true → after.frontier.queue = [] ∧
      after.frontier.tally.queued =
        after.frontier.tally.yielded + after.frontier.tally.discarded) := by
  have wf := reachable.wellFormed
  obtain ⟨seeds, begins, begun⟩ := underway_of_start accepted
  have underway := reaches.underway wf begins begun
  have whole := reaches.counted wf begins begun (counted_of_start wf accepted)
  have counted := whole.counted
  have balanced := counted.balanced
  unfold Frontier.Balanced at balanced
  refine ⟨?balance, counted.yielded, ?taken, ?unmatched, ?exhausted⟩
  case balance =>
    rw [balanced, hasNext]
    cases after.ahead <;> rfl
  case taken =>
    intro path last advanced
    exact (whole.advance wf underway begins advanced).2
  case unmatched =>
    intro nothing
    refine ⟨counted.unpruned nothing, counted.undiscarded nothing, ?_⟩
    intro path last advanced waiting
    obtain ⟨further, discarded, more, pops⟩ := whole.advance wf underway begins advanced
    obtain rfl : discarded = 0 := by
      have before := counted.undiscarded nothing
      have now := further.counted.undiscarded nothing
      omega
    cases ahead : last.ahead with
    | some path => exact ⟨path, rfl, by simpa [ahead] using pops⟩
    | none =>
      have same : last.frontier.tails = after.frontier.tails :=
        Lattice.Pops.eq_of_nil (p := p) (by simpa [ahead] using pops)
      rw [Frontier.tails, further.emptied ahead, List.map_nil, eq_comm] at same
      exact absurd (List.map_eq_nil_iff.mp same) waiting
  case exhausted =>
    intro ended
    have none := ahead_of_isExhausted ended
    have empty := whole.emptied none
    rw [none, empty] at balanced
    exact ⟨empty, balanced⟩

end Enumeration

/-- One of the two paths of "ab" has four nodes. Of the two tails the other is discarded, and
advancing in vain after that changes no number. -/
theorem Overlap.tails_conserved_four : lattice.Reachable ∧
    ∃ e paths after, Enumeration.start 0 lattice lattice.ending ⟨[.exactly 4]⟩ = .ok e ∧
      e.Reaches paths after ∧ paths.length = 1 ∧ after.isExhausted = true ∧
      after.frontier.tally.yielded = paths.length ∧ after.frontier.tally.queued = 2 ∧
      after.frontier.tally.queued =
        after.frontier.tally.yielded + after.frontier.tally.discarded := by
  have reported : (fun e => ((e.take 3).1.length, (e.take 3).2.isExhausted,
      (e.take 3).2.frontier.tally.queued)) <$>
        Enumeration.start 0 lattice lattice.ending ⟨[.exactly 4]⟩ = .ok (1, true, 2) := by
    decide +kernel
  obtain ⟨e, accepted, known⟩ := map_ok_iff.mp reported
  obtain ⟨count, rest⟩ := Prod.mk.inj known
  obtain ⟨ended, queued⟩ := Prod.mk.inj rest
  have reaches := e.reaches_take 3
  obtain ⟨_, yielded, _, _, final⟩ := Enumeration.tails_conserved reachable accepted reaches
  exact ⟨reachable, e, _, _, accepted, reaches, count, ended, yielded, queued, (final ended).2⟩

end Segmentation
