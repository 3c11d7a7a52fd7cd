import Segmentation.Proofs.Draining
import Segmentation.Proofs.Viterbi

/-! When no path comes after a dearer one, at any costs and with any pattern.
The cost of a tail is added up from the end and the cost of a node from the start. What
leaves the range at its upper end is given up on both sides, so that only sums from the
start that fall below the range can bring a path forward. -/
namespace Segmentation

variable {σ ν : Type}

/-- Another way to a node, added up from the end, is not cheaper than the way that the
cost of the node was made of, as long as what is added up from the start does not sink. -/
theorem Cost.detour_le {base own before edge before' edge' : Cost}
    (finite : before + edge + own ≠ infinite)
    (least : before + edge ≤ before' + edge')
    (floats : ¬Sinks before edge) (floats_own : ¬Sinks (before + edge) own)
    (floats' : ¬Sinks before' edge') :
    base + (before + edge + own) ≤ base + own + edge' + before' := by
  -- What rises to the lower end can only make the right side greater.
  by_cases out : base + own + edge' + before' = infinite
  · rw [out]
    exact le_infinite _
  have arrival := add_left_ne_infinite finite
  have tail := add_left_ne_infinite out
  have first := add_left_ne_infinite tail
  have upper := add_val_le (add_left_ne_infinite arrival) (add_right_ne_infinite arrival) floats
  have upper_own := add_val_le arrival (add_right_ne_infinite finite) floats_own
  have upper' := add_val_le (add_right_ne_infinite out) (add_right_ne_infinite tail) floats'
  have lower := le_add_val out
  have lower_tail := le_add_val tail
  have lower_first := le_add_val first
  have smallest := (base + own + edge' + before').lower
  rw [le_iff] at least ⊢
  rw [add_val (add_left_ne_infinite first) finite]
  omega

/-- The cost of a tail and of the cheapest path with it differ in that the one counts the
first node alone and the other the way to it. -/
def Tail.Priced (t : Tail σ ν) : Prop :=
  ∃ node rest base, t.nodes = node :: rest ∧ t.cost = base + node.entry.cost ∧
    t.wholeCost = base + node.pathCost ∧ t.wholeCost ≠ .infinite

theorem Tail.priced_of_grown? {nodes : List (Node σ ν)} {cost : Cost} {pred : Node σ ν × Cost}
    {t : Tail σ ν} (grown : grown? nodes cost pred = some t) : t.Priced := by
  obtain ⟨finite, rfl⟩ := grown?_eq_some_iff.mp grown
  exact ⟨pred.1, nodes, cost + pred.2, rfl, rfl, rfl, finite⟩

/-- The tails that a search for the paths to a last node starts with. -/
structure Tail.Seeds [BEq σ] [BEq ν] (l : Lattice σ ν) (p : Pattern σ ν) (before : Step σ ν)
    (finish : Node σ ν) (seeds : List (Tail σ ν)) : Prop where
  perm : seeds.Perm (((before.nodes.zip finish.edgeCosts).filterMap
    (grown? [finish] finish.entry.cost)).filter fun t => p.admits t.nodes)
  sorted : Sorted seeds
  standing : ∀ t ∈ seeds, t.Standing l
  priced : ∀ t ∈ seeds, t.Priced

theorem Tail.seeds_enterAll [BEq σ] [BEq ν] {l : Lattice σ ν} {p : Pattern σ ν}
    {before : Step σ ν} {finish : Node σ ν} {origin : Origin}
    (follows : finish.origin = some origin)
    (known : l.predecessors origin.step finish.edgeCosts =
      .ok (before.nodes.zip finish.edgeCosts)) :
    Seeds l p before finish (enterAll (((before.nodes.zip finish.edgeCosts).filterMap
      (grown? [finish] finish.entry.cost)).filter fun t => p.admits t.nodes) []) := by
  have perm := enterAll_perm (((before.nodes.zip finish.edgeCosts).filterMap
    (grown? [finish] finish.entry.cost)).filter fun t => p.admits t.nodes) []
  rw [List.append_nil] at perm
  refine ⟨perm, sorted_enterAll .nil, ?_, ?_⟩
  · intro t member
    exact standing_seeds follows known t (List.mem_filter.mp (perm.mem_iff.mp member)).1
  · intro t member
    obtain ⟨_, _, grown⟩ := List.mem_filterMap.mp (List.mem_filter.mp (perm.mem_iff.mp member)).1
    exact priced_of_grown? grown

theorem Enumeration.drain_seeds [BEq σ] [BEq ν] {l : Lattice σ ν} {p : Pattern σ ν}
    {finish : Node σ ν} {identity : Nat} {e : Enumeration σ ν} (wf : l.WellFormed)
    (accepted : start identity l finish p = .ok e) :
    ∃ origin before seeds, finish.origin = some origin ∧
      l.steps[origin.step]? = some before ∧ Tail.Seeds l p before finish seeds ∧
      e.drain = l.outcomes p seeds := by
  obtain ⟨origin, before, follows, present, known, drained⟩ := drain_of_start wf accepted
  exact ⟨origin, before, _, follows, present, Tail.seeds_enterAll follows known, drained⟩

namespace Lattice

variable {l : Lattice σ ν} {step place : Nat} {before : Step σ ν} {n m : Node σ ν}
  {edge base : Cost} {rest : List (Node σ ν)}

/-- What a node follows, with the edges. -/
def followed (l : Lattice σ ν) (n : Node σ ν) : List (Node σ ν × Cost) :=
  match n.origin.bind fun origin => l.steps[origin.step]? with
  | none => []
  | some before => before.nodes.zip n.edgeCosts

theorem mem_followed : (m, edge) ∈ l.followed n ↔ l.Joins m edge n := by
  unfold followed
  cases follows : n.origin with
  | none => simp [Joins, follows]
  | some origin =>
    rw [Option.bind_some]
    cases present : l.steps[origin.step]? with
    | none => simp [Joins, follows, nodesAt, present]
    | some before => rw [joins_iff follows present]

/-- No sum by which a node is reached falls below the range. -/
def Floats (l : Lattice σ ν) (n : Node σ ν) : Prop :=
  ∀ m edge, l.Joins m edge n →
    ¬Cost.Sinks m.pathCost edge ∧ ¬Cost.Sinks (m.pathCost + edge) n.entry.cost

instance (l : Lattice σ ν) (n : Node σ ν) : Decidable (l.Floats n) :=
  decidable_of_iff (∀ pred ∈ l.followed n, ¬Cost.Sinks pred.1.pathCost pred.2 ∧
      ¬Cost.Sinks (pred.1.pathCost + pred.2) n.entry.cost)
    ⟨fun all m edge joined => all (m, edge) (mem_followed.mpr joined),
      fun floats pred member => floats pred.1 pred.2 (mem_followed.mp member)⟩

def Afloat (l : Lattice σ ν) : Prop := ∀ s ∈ l.steps, ∀ n ∈ s.nodes, l.Floats n

instance (l : Lattice σ ν) : Decidable l.Afloat :=
  inferInstanceAs (Decidable (∀ s ∈ l.steps, ∀ n ∈ s.nodes, l.Floats n))

/-- Whatever a node follows, the way through it is not cheaper than the one through the best. -/
theorem Relaxed.detour_le (relaxed : l.Relaxed step before n) (floats : l.Floats n)
    (best : before.Best n m edge) (reached : n.pathCost ≠ .infinite) {pred : Node σ ν × Cost}
    (member : pred ∈ before.nodes.zip n.edgeCosts) (base : Cost) :
    base + n.pathCost ≤ base + n.entry.cost + pred.2 + pred.1.pathCost := by
  obtain ⟨first, own⟩ := floats m edge (relaxed.joins_iff.mpr best.member)
  obtain ⟨other, _⟩ := floats pred.1 pred.2 (relaxed.joins_iff.mpr member)
  rw [best.cost] at reached ⊢
  exact Cost.detour_le reached (best.least pred member) first own other

variable [BEq σ] [BEq ν] {p : Pattern σ ν}

theorem WellFormed.retrace_dearer (wf : l.WellFormed) (afloat : l.Afloat)
    (present : l.steps[place]? = some before) (member : n ∈ before.nodes)
    (reached : n.pathCost ≠ .infinite) {x : Expansion σ ν}
    (retraced : l.retrace p place n rest (base + n.entry.cost) = .ok x) :
    ∀ t ∈ x.tails, t.Priced ∧ base + n.pathCost ≤ t.wholeCost := by
  refine wf.node_induction (motive := fun place n => l.Floats n → n.pathCost ≠ .infinite →
    ∀ base rest x, l.retrace p place n rest (base + n.entry.cost) = .ok x →
      ∀ t ∈ x.tails, t.Priced ∧ base + n.pathCost ≤ t.wholeCost)
    ?start ?follow present member (afloat before (List.mem_of_getElem? present) n member) reached
    base rest x retraced
  case start =>
    intro _ _ base rest x retraced
    rw [retrace_start] at retraced
    cases retraced
    simp
  case follow =>
    intro place n step before earlier relaxed onward floats reached base rest x retraced
    obtain ⟨m, edge, best⟩ := relaxed.best (wf.filled_of_get relaxed.present)
    have passed : ∀ t ∈ (before.others n).filterMap
        (Tail.grown? (n :: rest) (base + n.entry.cost)),
        t.Priced ∧ base + n.pathCost ≤ t.wholeCost := by
      intro t member
      obtain ⟨pred, other, grown⟩ := List.mem_filterMap.mp member
      have above := relaxed.detour_le floats best reached (List.mem_of_mem_eraseIdx other) base
      refine ⟨Tail.priced_of_grown? grown, ?_⟩
      obtain ⟨_, rfl⟩ := Tail.grown?_eq_some_iff.mp grown
      exact above
    obtain ⟨y, _, further, rfl⟩ | ⟨_, rfl⟩ := relaxed.retrace_cases earlier best retraced
    · have reached' := (best.reached reached).1
      have floats' : l.Floats m :=
        afloat before (List.mem_of_getElem? relaxed.present) m best.inside
      have later := onward m best.inside floats' reached' _ _ _ further
      have above := relaxed.detour_le floats best reached best.member base
      intro t member
      rcases List.mem_append.mp member with new | old
      · exact passed t new
      · exact ⟨(later t old).1, Cost.le_trans above (later t old).2⟩
    · exact passed

theorem WellFormed.expand_dearer (wf : l.WellFormed) (afloat : l.Afloat) {t : Tail σ ν}
    (standing : t.Standing l) (priced : t.Priced) {x : Expansion σ ν}
    (expanded : l.expand p t = .ok x) :
    ∀ u ∈ x.tails, u.Priced ∧ t.wholeCost ≤ u.wholeCost := by
  obtain ⟨_, _, _, nodes, present, member⟩ := standing
  obtain ⟨n, rest, base, nodes', cost, whole, finite⟩ := priced
  obtain ⟨rfl, rfl⟩ := List.cons.inj (nodes.symm.trans nodes')
  rw [expand, nodes] at expanded
  dsimp only at expanded
  rw [cost] at expanded
  rw [whole] at finite ⊢
  exact wf.retrace_dearer afloat present member (Cost.add_right_ne_infinite finite) expanded

/-- The paths of a settled lattice that match a pattern are enumerated without a path
after a dearer one, at any costs, unless a sum from the start falls below the range. -/
theorem drain_cheapest_first [Sequence σ] {eos : Node σ ν} (reachable : l.Reachable)
    (settled : l.settle.result = .ok eos) (afloat : l.Afloat) (identity : Nat)
    (p : Pattern σ ν) : ∃ e, Enumeration.start identity l eos p = .ok e ∧
      e.drain.Pairwise fun first second => first.cost ≤ second.cost := by
  have wf := reachable.wellFormed
  obtain ⟨e, accepted⟩ := Enumeration.start_of_settled wf settled identity p
  obtain ⟨_, _, _, _, _, seeds, drained⟩ := Enumeration.drain_seeds wf accepted
  refine ⟨e, accepted, ?_⟩
  rw [drained]
  exact (wf.outcomes_sorted_of (fun _ _ standing priced => wf.expand_dearer afloat standing priced)
    seeds.sorted seeds.standing seeds.priced).1

end Lattice

/-- Of the paths of "ab", some with a negative cost, none comes after a dearer one. -/
theorem Overlap.drain_any_cheapest_first : lattice.Reachable ∧
    lattice.settle.result = .ok lattice.ending ∧ lattice.Afloat ∧
    ∃ e, Enumeration.start 0 lattice lattice.ending ⟨[.any]⟩ = .ok e ∧
      e.drain.Pairwise fun first second => first.cost ≤ second.cost := by
  have afloat : lattice.Afloat := by decide
  exact ⟨reachable, rfl, afloat,
    Lattice.drain_cheapest_first reachable rfl afloat 0 ⟨[.any]⟩⟩

namespace Sinking

/-- Before "b" stands one of two words at the lower end of the range, and the edges to it
lead out of the range. -/
def vocabulary : Vocabulary Empty Nat where
  entries
    | .text "a" => [⟨some (.text "a"), some 0, .clamp (-2147483648)⟩,
        ⟨some (.text "a"), some 1, .clamp (-2147483648)⟩]
    | .text "b" => [⟨some (.text "b"), some 2, 1⟩]
    | _ => []
  connection _ after := some (if after.value = some 2 then .clamp (-1) else 0)

def lattice : Lattice Empty Nat := .ofTexts vocabulary ["a", "b"]

/-- Added up from the start both paths are raised by one where they leave the range. The
first keeps this, and the second is added up from the end. -/
theorem drain_dearer_first : lattice.Reachable ∧ lattice.settle.result = .ok lattice.ending ∧
    ∃ e, Enumeration.start 0 lattice lattice.ending .empty = .ok e ∧
      ¬e.drain.Pairwise fun first second => first.cost ≤ second.cost := by
  have reachable : lattice.Reachable := .ofTexts _ _
  have settled : lattice.settle.result = .ok lattice.ending := rfl
  have reported : (fun e => e.drain.map Path.cost) <$>
      Enumeration.start 0 lattice lattice.ending .empty =
        .ok [.clamp (-2147483647), .clamp (-2147483648)] := by decide +kernel
  obtain ⟨e, accepted⟩ := Enumeration.start_of_settled reachable.wellFormed settled 0 .empty
  refine ⟨reachable, settled, e, accepted, ?_⟩
  rw [accepted] at reported
  have costs : e.drain.map Path.cost = _ := Except.ok.inj reported
  rw [← List.pairwise_map (f := Path.cost) (R := (· ≤ ·)), costs]
  decide

end Sinking

end Segmentation
