import Segmentation.Proofs.Draining
import Segmentation.Proofs.Viterbi

/-! Searching for the paths that match a pattern is searching for all paths and
keeping those that match.
The one search leaves out tails that the other has in its queue, and what comes out of
such a tail matches in no case. What both have in their queues stands in one order. -/
namespace Segmentation

variable {σ ν : Type}

theorem Node.isStart_of_origin {n : Node σ ν} {origin : Origin} (follows : n.origin = some origin) :
    n.isStart = false := by
  rw [isStart, follows, Option.isNone_some, Bool.and_false]

variable [BEq σ] [BEq ν] {l : Lattice σ ν} {p : Pattern σ ν}

/-- Whether a path with this tail can match. -/
def Tail.Admitted (p : Pattern σ ν) (t : Tail σ ν) : Bool := p.admits t.nodes

/-- Two expansions of one tail, with the pattern that every path matches and with
another one. -/
structure Expansion.Filters (p : Pattern σ ν) (x y : Expansion σ ν) (path : List (Node σ ν)) :
    Prop where
  tails : y.tails.filter (Tail.Admitted p) = x.tails.filter (Tail.Admitted p)
  nodes : y.nodes = if p.accepts path then some path else none

/-- What comes out of a tail that is not admitted matches nowhere. -/
structure Expansion.Unmatched (p : Pattern σ ν) (x : Expansion σ ν) (path : List (Node σ ν)) :
    Prop where
  tails : x.tails.filter (Tail.Admitted p) = []
  nodes : p.accepts path = false

namespace Lattice

variable {step place : Nat} {before : Step σ ν} {node : Node σ ν}

theorem Relaxed.others_unmatched (relaxed : l.Relaxed step before node) {rest : List (Node σ ν)}
    (out : p.admits (node :: rest) = false) (cost : Cost) :
    ((before.others node).filterMap (Tail.grown? (node :: rest) cost)).filter
      (Tail.Admitted p) = [] := by
  rw [List.filter_eq_nil_iff]
  intro t member admitted
  obtain ⟨pred, _, grown⟩ := List.mem_filterMap.mp member
  obtain ⟨_, rfl⟩ := Tail.grown?_eq_some_iff.mp grown
  have inner := Node.isStart_of_origin relaxed.origin
  rw [Pattern.admits_of_cons inner admitted] at out
  contradiction

theorem WellFormed.retrace_filtered (wf : l.WellFormed) (p : Pattern σ ν)
    (present : l.steps[place]? = some before) (member : node ∈ before.nodes)
    (rest : List (Node σ ν)) (cost : Cost) :
    ∃ x path, l.retrace .empty place node rest cost = .ok x ∧ x.nodes = some path ∧
      (p.admits (node :: rest) = true →
        ∃ y, l.retrace p place node rest cost = .ok y ∧ x.Filters p y path) ∧
      (p.admits (node :: rest) = false → x.Unmatched p path) := by
  refine wf.node_induction (motive := fun place node => ∀ rest cost,
    ∃ x path, l.retrace .empty place node rest cost = .ok x ∧ x.nodes = some path ∧
      (p.admits (node :: rest) = true →
        ∃ y, l.retrace p place node rest cost = .ok y ∧ x.Filters p y path) ∧
      (p.admits (node :: rest) = false → x.Unmatched p path))
    ?start ?follow present member rest cost
  case start =>
    intro rest cost
    have same : p.admits (.start [] :: rest) = p.accepts (.start [] :: rest) :=
      Pattern.admits_of_start rfl rest
    refine ⟨_, _, retrace_start l .empty 0 rest cost, rfl, ?_, ?_⟩
    · intro admitted
      exact ⟨_, retrace_start l p 0 rest cost, rfl, (if_pos (same ▸ admitted)).symm⟩
    · intro out
      exact ⟨rfl, same ▸ out⟩
  case follow =>
    intro place node step before earlier relaxed onward rest cost
    obtain ⟨m, edge, best⟩ := relaxed.best (wf.filled_of_get relaxed.present)
    obtain ⟨further, path, retraced, complete, filters, unmatched⟩ :=
      onward m best.inside (node :: rest) (cost + edge + m.entry.cost)
    have inner := Node.isStart_of_origin relaxed.origin
    rw [relaxed.retrace earlier best, relaxed.retrace earlier best, Pattern.empty_admits,
      if_pos rfl, retraced]
    refine ⟨_, path, rfl, complete, ?_, ?_⟩
    · intro _
      dsimp only
      cases admitted : p.admits (m :: node :: rest) with
      | true =>
        obtain ⟨y, retraced', same⟩ := filters admitted
        rw [if_pos rfl, retraced']
        refine ⟨_, rfl, ?_, same.nodes⟩
        rw [List.filter_append, List.filter_append, same.tails]
      | false =>
        have none := unmatched admitted
        rw [if_neg Bool.false_ne_true]
        refine ⟨_, rfl, ?_, ?_⟩
        · rw [List.filter_append, none.tails, List.append_nil]
        · rw [none.nodes, if_neg Bool.false_ne_true]
    · intro out
      have out' : p.admits (m :: node :: rest) = false := by
        rw [Bool.eq_false_iff]
        intro admitted
        rw [Pattern.admits_of_cons inner admitted] at out
        contradiction
      have none := unmatched out'
      refine ⟨?_, none.nodes⟩
      rw [List.filter_append, relaxed.others_unmatched out, none.tails, List.append_nil]

theorem WellFormed.expand_filtered (wf : l.WellFormed) (p : Pattern σ ν) {t : Tail σ ν}
    (standing : t.Standing l) :
    ∃ x path, l.expand .empty t = .ok x ∧ x.nodes = some path ∧
      (t.Admitted p = true → ∃ y, l.expand p t = .ok y ∧ x.Filters p y path) ∧
      (t.Admitted p = false → x.Unmatched p path) := by
  obtain ⟨node, rest, s, nodes, present, member⟩ := standing
  rw [expand, expand, Tail.Admitted, nodes]
  exact wf.retrace_filtered p present member rest t.cost

theorem WellFormed.outcomes_filtered (wf : l.WellFormed) (p : Pattern σ ν) {ts : List (Tail σ ν)}
    (sorted : Tail.Sorted ts) (standing : ∀ t ∈ ts, t.Standing l) :
    l.outcomes p (ts.filter (Tail.Admitted p)) =
      (l.outcomes .empty ts).filter fun path => p.accepts path.nodes := by
  generalize bound : Tail.weights l.base ts = weight
  induction weight using Nat.strongRecOn generalizing ts with
  | ind weight ih =>
    subst bound
    cases ts with
    | nil => rw [List.filter_nil, outcomes_nil, outcomes_nil, List.filter_nil]
    | cons t ts =>
      have later : Tail.Sorted ts := (List.pairwise_cons.mp sorted).2
      obtain ⟨x, path, expanded, complete, filters, unmatched⟩ :=
        wf.expand_filtered p (standing t List.mem_cons_self)
      have queued := wf.expand_queued (standing t List.mem_cons_self)
        (fun u member => standing u (List.mem_cons_of_mem t member)) expanded
      have onward : l.outcomes p ((x.queued .empty ts).filter (Tail.Admitted p)) =
          (l.outcomes .empty (x.queued .empty ts)).filter fun path => p.accepts path.nodes :=
        ih _ (Expansion.weights_queued_lt expanded) (Tail.sorted_enterAll later) queued rfl
      rw [outcomes_cons expanded, complete, List.filter_append, ← onward, Expansion.queued_empty,
        Tail.filter_enterAll _ later, List.filter_cons]
      cases admitted : t.Admitted p with
      | true =>
        obtain ⟨y, expanded', same⟩ := filters admitted
        rw [if_pos rfl, outcomes_cons expanded', same.nodes, Expansion.queued, ← same.tails]
        congr 1
        cases accepted : p.accepts path <;> simp [accepted]
      | false =>
        have none := unmatched admitted
        rw [if_neg Bool.false_ne_true, none.tails]
        simp [none.nodes, Tail.enterAll]

/-- Enumerating the paths that match is enumerating all paths and leaving out those
that do not: the same ones, at the same costs, in the same order. -/
theorem drain_matching_eq_filter [Sequence σ] (reachable : l.Reachable) (identity : Nat)
    (finish : Node σ ν) (p : Pattern σ ν) :
    Enumeration.drain <$> Enumeration.start identity l finish p =
      (fun all => all.drain.filter fun path => p.accepts path.nodes) <$>
        Enumeration.start identity l finish .empty := by
  have wf := reachable.wellFormed
  have apart : (fun all : Enumeration σ ν => all.drain.filter fun path => p.accepts path.nodes) <$>
        Enumeration.start identity l finish .empty =
      (List.filter fun path => p.accepts path.nodes) <$>
        (Enumeration.drain <$> Enumeration.start identity l finish .empty) := by
    cases Enumeration.start identity l finish .empty <;> rfl
  rw [apart, Enumeration.drain_start wf, Enumeration.drain_start wf]
  cases follows : finish.origin with
  | none => rfl
  | some origin =>
    dsimp only
    cases known : l.predecessors origin.step finish.edgeCosts with
    | error failure => rfl
    | ok preds =>
      let seeds := preds.filterMap (Tail.grown? [finish] finish.entry.cost)
      have sorted : Tail.Sorted (Tail.enterAll seeds []) := Tail.sorted_enterAll .nil
      have standing : ∀ t ∈ Tail.enterAll seeds [], t.Standing l := by
        intro t member
        rw [(Tail.enterAll_perm seeds []).mem_iff, List.append_nil] at member
        exact Tail.standing_seeds follows known t member
      have filtered := wf.outcomes_filtered p sorted standing
      rw [Tail.filter_enterAll _ .nil] at filtered
      change Except.ok (l.outcomes p (Tail.enterAll (seeds.filter (Tail.Admitted p)) [])) =
        Except.ok ((l.outcomes .empty (Tail.enterAll (seeds.filter _) [])).filter _)
      rw [Tail.filter_empty_admits]
      exact congrArg Except.ok filtered

end Lattice

/-- Of the two paths of "ab" one has two words, with the start and the end around them. The
other is left out. -/
theorem Overlap.drain_two_words : lattice.Reachable ∧
    lattice.settle.result = .ok lattice.ending ∧
    Enumeration.drain <$> Enumeration.start 0 lattice lattice.ending ⟨[.exactly 4]⟩ =
      (fun all => all.drain.filter fun path => Pattern.accepts ⟨[.exactly 4]⟩ path.nodes) <$>
        Enumeration.start 0 lattice lattice.ending .empty ∧
    ∃ all four, Enumeration.start 0 lattice lattice.ending .empty = .ok all ∧
      Enumeration.start 0 lattice lattice.ending ⟨[.exactly 4]⟩ = .ok four ∧
      all.drain.map Path.outline =
        [([none, some 0, some 2, none], 4), ([none, some 3, none], 10)] ∧
      four.drain = all.drain.filter (fun path => Pattern.accepts ⟨[.exactly 4]⟩ path.nodes) ∧
      four.drain.map Path.outline = [([none, some 0, some 2, none], 4)] := by
  have filtered := Lattice.drain_matching_eq_filter reachable 0 lattice.ending ⟨[.exactly 4]⟩
  have kept : (fun all => (all.drain.filter fun path =>
      Pattern.accepts ⟨[.exactly 4]⟩ path.nodes).map Path.outline) <$>
        Enumeration.start 0 lattice lattice.ending .empty =
      .ok [([none, some 0, some 2, none], 4)] := by decide +kernel
  obtain ⟨all, accepted, every⟩ := map_ok_iff.mp drain_outlines
  rw [accepted] at kept
  obtain ⟨four, accepted', same⟩ := map_ok_iff.mp (filtered.trans (congrArg _ accepted))
  exact ⟨reachable, rfl, filtered, all, four, accepted, accepted', every, same,
    same ▸ Except.ok.inj kept⟩

end Segmentation
