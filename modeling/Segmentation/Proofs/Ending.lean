import Segmentation.Proofs.Advancing
import Mathlib.Data.Set.Card
import Mathlib.Data.Set.Finite.Lattice

/-! Every search comes to its end, at any costs and with any pattern.
A tail is completed step by step toward the start. A tail that is taken from the queue uses up
a complete chain, even if it is discarded, so that all searches of an enumeration together take
no more tails than there are complete chains, however many are queued on the way. -/
namespace Segmentation

variable {σ ν : Type}

/-- What comes out along some nodes up to the first of a tail: the path with all of them, or
none, where the pattern is left on the way. -/
def Expansion.Follows [BEq σ] [BEq ν] (p : Pattern σ ν) (front rest : List (Node σ ν))
    (x : Expansion σ ν) : Prop :=
  x.nodes = some (front ++ rest) ∨ x.nodes = none ∧
    ∃ m behind, m :: behind <:+ front ∧ p.admits (m :: behind ++ rest) = false

namespace Expansion.Follows

variable [BEq σ] [BEq ν] {p : Pattern σ ν} {front rest : List (Node σ ν)} {m n : Node σ ν}
  {x : Expansion σ ν}

theorem concat (follows : x.Follows p front (n :: rest)) (tails : List (Tail σ ν)) :
    Expansion.Follows p (front ++ [n]) rest ⟨tails, x.nodes⟩ := by
  rw [Expansion.Follows, ← List.append_cons]
  refine follows.imp_right ?_
  rintro ⟨stopped, m, behind, suffix, left⟩
  refine ⟨stopped, m, behind ++ [n], ?_, ?_⟩
  · exact (List.suffix_append_inj_of_length_eq rfl).mpr ⟨suffix, rfl⟩
  · rw [← List.cons_append, ← List.append_cons]
    exact left

/-- The pattern is left at the last of the nodes before the tail. -/
theorem stop (last : front.getLast? = some m) (left : p.admits (m :: n :: rest) = false)
    (tails : List (Tail σ ν)) : Expansion.Follows p (front ++ [n]) rest ⟨tails, none⟩ := by
  obtain ⟨first, rfl⟩ := List.getLast?_eq_some_iff.mp last
  refine .inr ⟨rfl, m, [n], ?_, left⟩
  rw [List.append_assoc]
  exact List.suffix_append _ _

end Expansion.Follows

namespace Lattice

/-- The complete chains to a last node. -/
def chainsTo (l : Lattice σ ν) (finish : Node σ ν) : Set (List (Node σ ν)) :=
  {nodes | ∃ costs, Chain l.Joins nodes costs finish}

/-- Those among them on which nothing is out of reach. -/
def passages (l : Lattice σ ν) (finish : Node σ ν) : Set (List (Node σ ν)) :=
  {nodes | ∃ costs, Chain l.Passes nodes costs finish}

/-- The completion of a tail goes along the best predecessors of its first node, of which there
are no more than steps before it. It comes to the start, or stops where the pattern is left. -/
def Completes [BEq σ] [BEq ν] (l : Lattice σ ν) (p : Pattern σ ν) (t : Tail σ ν) : Prop :=
  ∃ n rest front costs x, t.nodes = n :: rest ∧ Chain l.JoinsBest front costs n ∧
    front.length ≤ t.place + 1 ∧ l.expand p t = .ok x ∧ x.Follows p front rest

variable {l : Lattice σ ν} {p : Pattern σ ν} {finish n : Node σ ν} {before : Step σ ν}
  {place : Nat} {origin : Origin}

theorem WellFormed.passages_eq (wf : l.WellFormed) (follows : finish.origin = some origin)
    (present : l.steps[origin.step]? = some before) :
    l.passages finish = {nodes | nodes ∈ l.ways (origin.step + 1) finish} := by
  ext nodes
  exact (mem_ways_of_follows follows present (Nat.lt_succ_self _)
    fun m member => wf.mem_ways present member).symm

theorem WellFormed.ncard_passages (wf : l.WellFormed) (follows : finish.origin = some origin)
    (present : l.steps[origin.step]? = some before) :
    (l.passages finish).ncard = (l.ways (origin.step + 1) finish).length := by
  classical
  have once := nodup_ways_of_follows wf follows present (Nat.lt_succ_self _)
    fun _ => wf.nodup_ways present
  have listed : l.passages finish = ↑(l.ways (origin.step + 1) finish).toFinset := by
    rw [List.coe_toFinset]
    exact wf.passages_eq follows present
  rw [listed, Set.ncard_coe_finset, List.toFinset_card_of_nodup once]

theorem passages_subset (l : Lattice σ ν) (finish : Node σ ν) :
    l.passages finish ⊆ l.chainsTo finish := by
  rintro nodes ⟨costs, chain⟩
  exact ⟨costs, chain.joins⟩

/-- A node has finitely many complete chains if the nodes that it follows do. -/
theorem chainsTo_finite_of_follows (follows : n.origin = some origin)
    (present : l.steps[origin.step]? = some before)
    (finite : ∀ m ∈ before.nodes, (l.chainsTo m).Finite) : (l.chainsTo n).Finite := by
  have prolonged : (⋃ m ∈ {m | m ∈ before.nodes}, (· ++ [n]) '' l.chainsTo m).Finite :=
    Set.Finite.biUnion before.nodes.finite_toSet fun m member => (finite m member).image _
  apply prolonged.subset
  rintro nodes ⟨costs, chain⟩
  obtain ⟨_, _, rfl⟩ | ⟨front, met, m, edge, earlier, joined, rfl, _⟩ := chain.invert
  · contradiction
  · have member := (List.of_mem_zip ((joins_iff follows present).mp joined)).1
    exact Set.mem_biUnion member ⟨front, ⟨met, earlier⟩, rfl⟩

theorem WellFormed.chainsTo_finite (wf : l.WellFormed) (present : l.steps[place]? = some before)
    (member : n ∈ before.nodes) : (l.chainsTo n).Finite := by
  refine wf.node_induction (motive := fun _ n => (l.chainsTo n).Finite) ?start ?follow present
    member
  case start =>
    apply (Set.finite_singleton [.start []]).subset
    rintro nodes ⟨_, chain⟩
    exact (start_chain chain).1
  case follow =>
    intro place n step before earlier relaxed finite
    exact chainsTo_finite_of_follows relaxed.origin relaxed.present finite

variable [BEq σ] [BEq ν]

theorem WellFormed.retrace_follows (wf : l.WellFormed) (present : l.steps[place]? = some before)
    (member : n ∈ before.nodes) : ∃ front costs, Chain l.JoinsBest front costs n ∧
      front.length ≤ place + 1 ∧
      ∀ rest cost, ∃ x, l.retrace p place n rest cost = .ok x ∧ x.Follows p front rest := by
  refine wf.node_induction (motive := fun place n => ∃ front costs,
    Chain l.JoinsBest front costs n ∧ front.length ≤ place + 1 ∧
      ∀ rest cost, ∃ x, l.retrace p place n rest cost = .ok x ∧ x.Follows p front rest)
    ?start ?follow present member
  case start =>
    refine ⟨_, _, .start, Nat.le_refl 1, ?_⟩
    intro rest cost
    exact ⟨_, retrace_start l p 0 rest cost, .inl rfl⟩
  case follow =>
    intro place n step before earlier relaxed onward
    obtain ⟨m, edge, best⟩ := relaxed.best (wf.filled_of_get relaxed.present)
    obtain ⟨front, costs, chain, short, follows⟩ := onward m best.inside
    refine ⟨_, _, chain.next ((relaxed.joinsBest_iff best).mpr ⟨rfl, rfl⟩), ?_, ?_⟩
    · simp only [List.length_append, List.length_singleton]
      omega
    intro rest cost
    rw [relaxed.retrace earlier best]
    dsimp only
    split
    next =>
      obtain ⟨further, retraced, followed⟩ := follows (n :: rest) (cost + edge + m.entry.cost)
      rw [retraced]
      exact ⟨_, rfl, followed.concat _⟩
    next left => exact ⟨_, rfl, .stop chain.getLast? (Bool.eq_false_iff.mpr left) _⟩

theorem WellFormed.completes (wf : l.WellFormed) {t : Tail σ ν} (standing : t.Standing l) :
    l.Completes p t := by
  obtain ⟨n, rest, before, nodes, present, member⟩ := standing
  obtain ⟨front, costs, chain, short, follows⟩ := wf.retrace_follows (p := p) present member
  obtain ⟨x, retraced, followed⟩ := follows rest t.cost
  refine ⟨n, rest, front, costs, x, nodes, chain, short, ?_, followed⟩
  rw [expand, nodes]
  exact retraced

end Lattice

namespace Enumeration

variable [BEq σ] [BEq ν] {l : Lattice σ ν} {p : Pattern σ ν} {finish : Node σ ν}
  {e : Enumeration σ ν} {seeds ts : List (Tail σ ν)} {paths : List (Path σ ν)}
  {results : List (Option (Path σ ν))}

/-- No more tails are taken than there are chains to the last node. -/
theorem Begins.length_le (wf : l.WellFormed) (begins : Begins l finish p seeds)
    (pops : l.Pops p seeds results ts) : results.length ≤ (l.passages finish).ncard := by
  obtain ⟨origin, before, follows, present, all⟩ := begins.shares
  obtain ⟨used, paired, shares⟩ := pops.shares wf begins.eligible
  have whole := (shares.trans all).length_le
  rw [List.length_append] at whole
  rw [wf.ncard_passages follows present, paired.length_eq]
  exact Nat.le_of_add_right_le whole

theorem Underway.length_le (wf : l.WellFormed) (begins : Begins l finish p seeds)
    (underway : Underway l finish p seeds paths e) : paths.length ≤ (l.passages finish).ncard := by
  obtain ⟨results, pops, reached⟩ := underway.pops
  have fewer := List.reduceOption_length_le results
  rw [reached, List.length_append] at fewer
  have bound := begins.length_le wf pops
  omega

/-- Advanced again and again, an enumeration comes to its end: only so many paths are left. -/
theorem Underway.exhausts (wf : l.WellFormed) (begins : Begins l finish p seeds)
    (underway : Underway l finish p seeds paths e) :
    ∃ more last, e.Reaches more last ∧ last.isExhausted = true := by
  generalize left : (l.passages finish).ncard - paths.length = room
  induction room using Nat.strongRecOn generalizing paths e with
  | ind room ih =>
    obtain ⟨ended, failed⟩ | ⟨path, after, _, reached, further⟩ := underway.advance wf begins
    · refine ⟨[], _, .fail .stay failed, ?_⟩
      simp [isExhausted, ended]
    · have bound := further.length_le wf begins
      have longer : (paths ++ [path]).length = paths.length + 1 := List.length_append
      obtain ⟨more, last, reaches, exhausted⟩ := ih _ (by omega) further rfl
      exact ⟨_, last, Reaches.trans (.reach .stay reached) reaches, exhausted⟩

end Enumeration

namespace Lattice

/-- A search that has been accepted ends, at any costs and with any pattern. Looking for the path
after the one ahead takes finitely many tails, discarded ones and the one that gives the path.
Each tail that is ever taken can be completed, which comes to the start or stops, and there are
no more of them than complete chains on which nothing is out of reach. The end is always reached,
with no more paths before it than that. -/
theorem search_ends [Sequence σ] [BEq σ] [BEq ν] {l : Lattice σ ν} {p : Pattern σ ν}
    {finish : Node σ ν} {e after : Enumeration σ ν} {paths : List (Path σ ν)} {identity : Nat}
    (reachable : l.Reachable) (accepted : Enumeration.start identity l finish p = .ok e)
    (reaches : e.Reaches paths after) :
    (l.chainsTo finish).Finite ∧ (l.passages finish).ncard ≤ (l.chainsTo finish).ncard ∧
    (∃ later g discarded, after.search = (.ok later, g) ∧ (later = none → g.tails = []) ∧
      l.Pops p after.frontier.tails (List.replicate discarded none ++ later.toList.map some)
        g.tails) ∧
    (∃ seeds popped, Enumeration.Begins l finish p seeds ∧
      l.Pops p seeds popped after.frontier.tails ∧
      popped.reduceOption = paths ++ after.ahead.toList ∧
      (∀ results t ts, l.Pops p seeds results (t :: ts) → l.Completes p t) ∧
      ∀ results ts, l.Pops p seeds results ts → results.length ≤ (l.passages finish).ncard) ∧
    ∃ more last, after.Reaches more last ∧ last.isExhausted = true ∧
      (paths ++ more).length ≤ (l.passages finish).ncard := by
  have wf := reachable.wellFormed
  obtain ⟨seeds, begins, first⟩ := Enumeration.underway_of_start accepted
  have underway := reaches.underway wf begins first
  obtain ⟨popped, pops, reached⟩ := underway.pops
  obtain ⟨origin, before, follows, present, _⟩ := begins.shares
  have finite : (l.chainsTo finish).Finite :=
    chainsTo_finite_of_follows follows present fun m => wf.chainsTo_finite present
  refine ⟨finite, Set.ncard_le_ncard (l.passages_subset finish) finite, ?search,
    ⟨seeds, popped, begins, pops, reached, ?completes, fun _ _ => begins.length_le wf⟩, ?exhausts⟩
  case search =>
    obtain ⟨later, g, discarded, searched, _, empty, _, further⟩ := underway.search wf begins
    exact ⟨later, g, discarded, searched, empty, further⟩
  case completes =>
    intro results t ts pops
    have waiting := pops.eligible wf begins.eligible t List.mem_cons_self
    exact wf.completes waiting.standing
  case exhausts =>
    obtain ⟨more, last, onward, exhausted⟩ := underway.exhausts wf begins
    have whole := (reaches.trans onward).underway wf begins first
    exact ⟨more, last, onward, exhausted, whole.length_le wf begins⟩

end Lattice

namespace Overlap

/-- One of the two paths of "ab" has four nodes. While it is ahead one tail waits, which the search
for another such path takes and discards. -/
theorem search_ends_unmatched : lattice.Reachable ∧
    ∃ e, Enumeration.start 0 lattice lattice.ending ⟨[.exactly 4]⟩ = .ok e ∧ e.Reaches [] e ∧
      e.isExhausted = false ∧ e.ahead.map Path.outline = some ([none, some 0, some 2, none], 4) ∧
      e.frontier.tails.length = 1 ∧
      (∃ g discarded, e.search = (.ok none, g) ∧ g.tails = [] ∧ g.tally.discarded = 1 ∧
        0 < discarded ∧ lattice.Pops ⟨[.exactly 4]⟩ e.frontier.tails
          (List.replicate discarded none) []) ∧
      ∃ more last, e.Reaches more last ∧ last.isExhausted = true ∧
        ([] ++ more).length ≤ (lattice.passages lattice.ending).ncard := by
  have begun : (fun e => (e.ahead.map Path.outline, e.isExhausted, e.frontier.tails.length)) <$>
      Enumeration.start 0 lattice lattice.ending ⟨[.exactly 4]⟩ =
        .ok (some ([none, some 0, some 2, none], 4), false, 1) := by decide +kernel
  have sought : (fun e => (e.search.1.toOption.map Option.isSome, e.search.2.tally.discarded)) <$>
      Enumeration.start 0 lattice lattice.ending ⟨[.exactly 4]⟩ = .ok (some false, 1) := by
    decide +kernel
  obtain ⟨e, accepted, known⟩ := map_ok_iff.mp begun
  simp only [accepted, Except.map_ok, Except.ok.injEq, Prod.mk.injEq] at known sought
  obtain ⟨ahead, running, waiting⟩ := known
  obtain ⟨nothing, once⟩ := sought
  obtain ⟨_, _, ⟨later, g, discarded, searched, left, pops⟩, _, ends⟩ :=
    Lattice.search_ends reachable accepted .stay
  obtain rfl : later = none := by simpa [searched, Except.toOption] using nothing
  rw [searched] at once
  rw [left rfl] at pops
  refine ⟨reachable, e, accepted, .stay, running, ahead, waiting,
    ⟨g, discarded, searched, left rfl, once, ?_, by simpa using pops⟩, ends⟩
  -- the tail that waits has been taken, and has given no path
  refine Nat.pos_of_ne_zero ?_
  rintro rfl
  generalize e.frontier.tails = tails at pops waiting
  cases pops
  contradiction

end Overlap

end Segmentation
