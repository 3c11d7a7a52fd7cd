import Segmentation.Proofs.Readings
import Segmentation.Proofs.Tables

/-! What becomes of the readings of an input that comes in smaller fragments.
Where a coarse fragment ends, a fine one ends as well. A word between two such places is found
between them in the finer lattice too, and the chains of words are carried over word by word,
at the same costs. -/
namespace Segmentation

variable {σ ν : Type}

/-- Each coarse fragment is what one or more fine ones come to, in their order. -/
def Refines (fine coarse : List String) : Prop :=
  ∃ groups : List (List String), groups.flatten = fine ∧ groups.map String.join = coarse ∧
    [] ∉ groups

/-- The place among the members of the groups where so many groups end. -/
def boundary {α : Type} (groups : List (List α)) (k : Nat) : Nat := (groups.take k).flatten.length

section Boundary

variable {α : Type} {groups : List (List α)} {j k : Nat}

theorem take_boundary (groups : List (List α)) (k : Nat) :
    groups.flatten.take (boundary groups k) = (groups.take k).flatten := by
  calc groups.flatten.take (boundary groups k)
      = ((groups.take k).flatten ++ (groups.drop k).flatten).take (boundary groups k) := by
        rw [← List.flatten_append, List.take_append_drop]
    _ = (groups.take k).flatten := List.take_left

theorem boundary_length (groups : List (List α)) :
    boundary groups groups.length = groups.flatten.length := by
  rw [boundary, List.take_length]

/-- The first groups are those before them and the ones between. -/
theorem flatten_take_split (groups : List (List α)) (before : j ≤ k) :
    (groups.take k).flatten = (groups.take j).flatten ++ ((groups.take k).drop j).flatten := by
  have front : groups.take j = (groups.take k).take j := by
    rw [List.take_take, Nat.min_eq_left before]
  rw [← List.flatten_append, front, List.take_append_drop]

theorem between_boundaries (groups : List (List α)) (before : j ≤ k) :
    (groups.flatten.take (boundary groups k)).drop (boundary groups j) =
      ((groups.take k).drop j).flatten := by
  rw [take_boundary, flatten_take_split groups before]
  exact List.drop_left

theorem boundary_lt (whole : [] ∉ groups) (before : j < k) (within : k ≤ groups.length) :
    boundary groups j < boundary groups k := by
  have between : (groups.take k).drop j ≠ [] := by
    rw [← List.length_pos_iff, List.length_drop, List.length_take]
    omega
  obtain ⟨group, rest, between⟩ := List.exists_cons_of_ne_nil between
  have member : group ∈ (groups.take k).drop j := between ▸ List.mem_cons_self
  have nonempty : 0 < group.length := by
    rw [List.length_pos_iff]
    rintro rfl
    exact whole (List.mem_of_mem_take (List.mem_of_mem_drop member))
  rw [boundary, boundary, flatten_take_split groups (Nat.le_of_lt before), between,
    List.flatten_cons, List.length_append, List.length_append]
  omega

end Boundary

theorem join_flatten (groups : List (List String)) :
    String.join groups.flatten = String.join (groups.map String.join) := by
  induction groups with
  | nil => rfl
  | cons group groups ih =>
    rw [List.flatten_cons, String.join_append, List.map_cons, String.join_cons, ih]

variable {v : Vocabulary σ ν} {groups : List (List String)} {j k step : Nat} {e : Entry σ ν}
  {link : Option (Fragment σ) → Option (Fragment σ) → Option Cost}

theorem Vocabulary.mem_candidates_iff {texts : List String} : (j, e) ∈ v.candidates texts k ↔
    j < k ∧ e ∈ v.entries (.text (String.join ((texts.take k).drop j))) := by
  simp only [candidates, List.mem_flatMap, List.mem_range, List.mem_map, Prod.mk.injEq]
  constructor
  · rintro ⟨_, inside, _, known, rfl, rfl⟩
    exact ⟨inside, known⟩
  · rintro ⟨inside, known⟩
    exact ⟨j, inside, e, known, rfl, rfl⟩

/-- A word that ends with a coarse fragment ends with the last of the fine ones that make it up. -/
theorem Vocabulary.candidates_finer (whole : [] ∉ groups) (within : k ≤ groups.length)
    (listed : (j, e) ∈ v.candidates (groups.map String.join) k) :
    (boundary groups j, e) ∈ v.candidates groups.flatten (boundary groups k) := by
  obtain ⟨before, known⟩ := mem_candidates_iff.mp listed
  refine mem_candidates_iff.mpr ⟨boundary_lt whole before within, ?_⟩
  rw [between_boundaries groups (Nat.le_of_lt before), join_flatten, List.map_drop, List.map_take]
  exact known

namespace Lattice

variable {l l' : Lattice σ ν} {before before' s s' : Step σ ν} {m n n' : Node σ ν} {edge : Cost}
  {nodes : List (Node σ ν)} {costs : List Cost} {texts : List String}

/-- The chains to a step of one lattice have counterparts to a step of another one, with the same
words at the same costs. -/
def Carries (l l' : Lattice σ ν) (s s' : Step σ ν) : Prop :=
  ∀ n ∈ s.nodes, ∀ nodes costs, Chain l.Joins nodes costs n →
    ∃ nodes', ∃ n' ∈ s'.nodes, Chain l'.Joins nodes' costs n' ∧
      nodes'.map Node.entry = nodes.map Node.entry

/-- What is carried over to a step is carried over to a word after it. -/
theorem Realizes.carried (realizes : l.Realizes before (j, e) n)
    (realizes' : l'.Realizes before' (k, e) n') (keyed : l.vocabulary.Keyed link)
    (same : l'.vocabulary = l.vocabulary) (carries : l.Carries l' before before')
    (chain : Chain l.Joins nodes costs n) :
    ∃ nodes', Chain l'.Joins nodes' costs n' ∧ nodes'.map Node.entry = nodes.map Node.entry := by
  obtain ⟨_, _, rfl⟩ | ⟨front, met, m, edge, before, joined, rfl, rfl⟩ := chain.invert
  · obtain ⟨_, _, origin, _⟩ := realizes.best
    cases origin
  obtain ⟨inside, rfl⟩ := (realizes.joins_iff keyed).mp joined
  obtain ⟨front', m', inside', before', spelled⟩ := carries m inside front met before
  have entry : n'.entry = n.entry := realizes'.entry.trans realizes.entry.symm
  have last : m'.entry = m.entry := by
    have ends := congrArg List.getLast? spelled
    rw [List.getLast?_map, List.getLast?_map, before.getLast?, before'.getLast?] at ends
    exact Option.some.inj ends
  have joined' := (realizes'.joins_iff (same ▸ keyed)).mpr ⟨inside', rfl⟩
  refine ⟨front' ++ [n'], ?_, ?_⟩
  · rw [← entry, ← last]
    exact .next before' joined'
  · rw [List.map_append, List.map_append, spelled, List.map_singleton, List.map_singleton, entry]

/-- The chains to where a coarse fragment ends are carried over to the same place in the finer
lattice. -/
theorem Holds.carries (coarse : l.Holds (groups.map String.join)) (fine : l'.Holds groups.flatten)
    (wf : l.WellFormed) (wf' : l'.WellFormed) (keyed : l.vocabulary.Keyed link)
    (same : l'.vocabulary = l.vocabulary) (whole : [] ∉ groups)
    (present : l.steps[step]? = some s) (present' : l'.steps[boundary groups step]? = some s') :
    l.Carries l' s s' := by
  -- a word may begin at any earlier step
  induction step using Nat.strongRecOn generalizing s s' with
  | ind step ih =>
    intro n member nodes costs chain
    cases step with
    | zero =>
      obtain rfl : Step.start = s := Option.some.inj (wf.first.symm.trans present)
      obtain rfl : Step.start = s' := Option.some.inj (wf'.first.symm.trans present')
      obtain rfl := List.mem_singleton.mp member
      obtain ⟨rfl, rfl⟩ := start_chain chain
      exact ⟨_, _, List.mem_singleton_self _, .start, rfl⟩
    | succ k =>
      have within : k + 1 ≤ groups.length := by
        have bound := (List.getElem?_eq_some_iff.mp present).1
        have count : l.steps.length = (groups.map String.join).length + 1 := coarse.count
        rw [List.length_map] at count
        omega
      obtain ⟨⟨j, e⟩, listed, before, realizes⟩ :=
        exists_of_forall₂ (coarse.words k s present) member
      have listed' := Vocabulary.candidates_finer whole within listed
      rw [← same] at listed'
      obtain ⟨k', place⟩ : ∃ k', boundary groups (k + 1) = k' + 1 :=
        Nat.exists_eq_succ_of_ne_zero (Nat.ne_of_gt (boundary_lt whole k.succ_pos within))
      rw [place] at listed' present'
      obtain ⟨n', inside', before', realizes'⟩ :=
        exists_of_forall₂ (fine.words k' s' present').flip listed'
      have earlier := Vocabulary.candidates_earlier listed
      obtain ⟨nodes', chain', spelled⟩ := realizes.carried realizes' keyed same
        (ih j earlier realizes.present realizes'.present) chain
      exact ⟨nodes', n', inside', chain', spelled⟩

/-- Where unconnected words are only out of reach, there always is a node for the end. -/
theorem WellFormed.realizes_ending (wf : l.WellFormed) (unreachable : l.policy = .unreachable) :
    l.Realizes (l.steps.getLastD .start) (l.stepCount - 1, .sentinel) l.ending :=
  realizes_follower wf.last_present (wf.filled_of_get wf.last_present)
    (edgeCosts_of_unreachable unreachable _ _)

theorem settle_ok_iff_ending (unreachable : l.policy = .unreachable) :
    l.settle.result = .ok n ↔ n = l.ending ∧ l.ending.pathCost ≠ .infinite := by
  rw [settle_eq_ok_iff, edgeCosts_of_unreachable unreachable]
  simp only [Except.ok.injEq, exists_eq_left']
  constructor
  · rintro ⟨rfl, finite⟩
    exact ⟨rfl, finite⟩
  · rintro ⟨rfl, finite⟩
    exact ⟨rfl, finite⟩

/-- With a vocabulary that is given by tables, and where unconnected words are only out of reach,
each chain to the end of a lattice has a counterpart with the same words and the same costs in
the lattice of a finer list of fragments. If the one lattice can be settled, the other one can,
and its end costs no more. -/
theorem finer_keeps_readings [BEq σ] [Hashable σ] [Sequence σ] (x : Lexicon σ ν)
    {fine coarse : List String} (refines : Refines fine coarse)
    (reads : l.Reads coarse) (reads' : l'.Reads fine)
    (known : l.vocabulary = x.toVocabulary) (known' : l'.vocabulary = x.toVocabulary)
    (unreachable : l.policy = .unreachable) (unreachable' : l'.policy = .unreachable) :
    (∀ nodes costs, Chain l.Joins nodes costs l.ending →
      ∃ nodes', Chain l'.Joins nodes' costs l'.ending ∧
        nodes'.map Node.entry = nodes.map Node.entry) ∧
    ∀ eos, l.settle.result = .ok eos → eos = l.ending ∧
      l'.settle.result = .ok l'.ending ∧ l'.ending.pathCost ≤ eos.pathCost := by
  obtain ⟨groups, rfl, rfl, whole⟩ := refines
  have wf := reads.reachable.wellFormed
  have wf' := reads'.reachable.wellFormed
  have realizes := wf.realizes_ending unreachable
  have realizes' := wf'.realizes_ending unreachable'
  have keyed : l.vocabulary.Keyed x.link := known ▸ x.keyed
  have last : l'.steps[boundary groups (l.stepCount - 1)]? = some (l'.steps.getLastD .start) := by
    have present := wf'.last_present
    rw [reads'.holds.count, Nat.add_sub_cancel, ← boundary_length] at present
    rw [reads.holds.count, List.length_map, Nat.add_sub_cancel]
    exact present
  have carries := reads.holds.carries reads'.holds wf wf' keyed (known'.trans known.symm) whole
    realizes.present last
  have carried : ∀ nodes costs, Chain l.Joins nodes costs l.ending →
      ∃ nodes', Chain l'.Joins nodes' costs l'.ending ∧
        nodes'.map Node.entry = nodes.map Node.entry := fun _ _ =>
    realizes.carried realizes' keyed (known'.trans known.symm) carries
  refine ⟨carried, ?_⟩
  intro eos settled
  obtain ⟨relaxed, _⟩ := wf.relaxed_settled settled
  obtain ⟨rfl, finite⟩ := (settle_ok_iff_ending unreachable).mp settled
  obtain ⟨nodes, costs, chain, total⟩ := (wf.optimal relaxed).best
  obtain ⟨nodes', chain', _⟩ := carried nodes costs (chain.mono fun _ _ _ => JoinsBest.joins)
  have cheaper : l'.ending.pathCost ≤ l.ending.pathCost := by
    rw [← total]
    exact wf'.pathCost_le chain' (.inr ⟨_, _, wf'.relaxed_last (List.length_map _) .sentinel⟩)
  refine ⟨rfl, (settle_ok_iff_ending unreachable').mpr ⟨rfl, ?_⟩, cheaper⟩
  intro infinite
  exact finite (Cost.infinite_le.mp (infinite ▸ cheaper))

end Lattice

namespace Halves

def words : List (Fragment Empty × List (Entry Empty Nat)) :=
  [(.text "a", [⟨some (.text "a"), some 0, 5⟩]),
    (.text "b", [⟨some (.text "b"), some 1, .clamp (-4)⟩]),
    (.text "ab", [⟨some (.text "ab"), some 2, 8⟩])]

def links : List ((Option (Fragment Empty) × Option (Fragment Empty)) × Cost) :=
  [((none, some (.text "a")), 1), ((some (.text "a"), some (.text "b")), 1),
    ((some (.text "b"), none), 1), ((none, some (.text "ab")), 1), ((some (.text "ab"), none), 1)]

def vocabulary : Vocabulary Empty Nat := .ofRows words links

/-- The text in one piece. -/
def coarse : Lattice Empty Nat := .ofTexts vocabulary ["ab"]

/-- Its only word. -/
def word : Node Empty Nat := ⟨⟨some (.text "ab"), some 2, 8⟩, 0, some ⟨0, 0⟩, [1], 9⟩

def fine : Lattice Empty Nat := .ofTexts vocabulary ["a", "b"]

/-- "ab" remains a word of its own when it comes in two fragments, and is the cheaper as two. -/
theorem finer_keeps_readings_ab : Refines ["a", "b"] ["ab"] ∧
    coarse.Reads ["ab"] ∧ fine.Reads ["a", "b"] ∧
    (∃ nodes, Chain fine.Joins nodes [1, 8, 1, 0] fine.ending ∧
      nodes.map Node.entry = [.sentinel, ⟨some (.text "ab"), some 2, 8⟩, .sentinel]) ∧
    coarse.settle.result = .ok coarse.ending ∧ coarse.ending.pathCost = 10 ∧
    fine.settle.result = .ok fine.ending ∧ fine.ending.pathCost ≤ 10 := by
  have refines : Refines ["a", "b"] ["ab"] := ⟨[["a", "b"]], rfl, rfl, by decide⟩
  have reads : coarse.Reads ["ab"] := (Lattice.Reads.empty vocabulary .unreachable).accept rfl
  have reads' : fine.Reads ["a", "b"] :=
    ((Lattice.Reads.empty vocabulary .unreachable).accept (s := "a") rfl).accept (s := "b") rfl
  have settled : coarse.settle.result = .ok coarse.ending := rfl
  have tables : (Lexicon.ofLists words links).toVocabulary = vocabulary :=
    Lexicon.toVocabulary_ofLists words links
  obtain ⟨carried, cheaper⟩ := Lattice.finer_keeps_readings (.ofLists words links) refines
    reads reads' tables.symm tables.symm rfl rfl
  have begins : coarse.Joins (.start []) 1 word := ⟨_, _, rfl, rfl, .head _⟩
  have ends : coarse.Joins word 1 coarse.ending := ⟨_, _, rfl, rfl, .head _⟩
  obtain ⟨nodes, chain, same⟩ := carried _ _ (Chain.next (Chain.next .start begins) ends)
  obtain ⟨_, settled', least⟩ := cheaper _ settled
  exact ⟨refines, reads, reads', ⟨nodes, chain, same⟩, settled, rfl, settled', least⟩

end Halves

end Segmentation
