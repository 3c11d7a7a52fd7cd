import Segmentation.Proofs.Undo
import Segmentation.Proofs.Viterbi

/-! What a lattice holds that has read texts.
Whatever else has been refused in between, the step after so many fragments has a node for
each word that ends there. The nodes stand in the order in which the words begin, and each
follows the step at which its word does. -/
namespace Segmentation

variable {σ ν : Type}

/-- The words that end after the first `k` fragments, in the order in which they begin,
each with the number of fragments before it. -/
def Vocabulary.candidates (v : Vocabulary σ ν) (texts : List String) (k : Nat) :
    List (Nat × Entry σ ν) :=
  (List.range k).flatMap fun j =>
    (v.entries (.text (String.join ((texts.take k).drop j)))).map (j, ·)

/-- What the first fragments come to, with what comes between these and fewer of them cut off. -/
theorem join_take_split (texts : List String) {j k : Nat} (before : j ≤ k) :
    String.join (texts.take k) =
      String.join (texts.take j) ++ String.join ((texts.take k).drop j) := by
  have front : texts.take j = (texts.take k).take j := by
    rw [List.take_take, Nat.min_eq_left before]
  rw [front, ← String.join_append, List.take_append_drop]

namespace Lattice

/-- What a run of pushes of texts and of settlings makes of an empty lattice, with the
fragments that it has accepted. -/
inductive Reads [Sequence σ] : List String → Lattice σ ν → Prop where
  | empty (vocabulary : Vocabulary σ ν) (policy : Policy) : Reads [] (.empty vocabulary policy)
  | accept : Reads texts l → (l.push (.text s)).result = .ok () →
      Reads (texts ++ [s]) (l.push (.text s)).lattice
  | refuse {failure : Failure} : Reads texts l → (l.push (.text s)).result = .error failure →
      Reads texts (l.push (.text s)).lattice
  | settle : Reads texts l → Reads texts l.settle.lattice

/-- The node is that of a word which begins after a step: an edge from each node there,
and the first of the cheapest arrivals. -/
structure Realizes (l : Lattice σ ν) (before : Step σ ν) (c : Nat × Entry σ ν) (n : Node σ ν) :
    Prop where
  present : l.steps[c.1]? = some before
  entry : n.entry = c.2
  edges : n.edgeCosts = before.nodes.map fun m => (l.vocabulary.connection m c.2).getD .infinite
  best : ∃ best arrival, n.origin = some ⟨c.1, best⟩ ∧
    FirstLeast (before.arrivals n.edgeCosts) best arrival ∧ n.pathCost = arrival + n.entry.cost

/-- The nodes are those of these words, one after the other. -/
def Spells (l : Lattice σ ν) (words : List (Nat × Entry σ ν)) (nodes : List (Node σ ν)) : Prop :=
  List.Forall₂ (fun c n => ∃ before, l.Realizes before c n) words nodes

/-- What a lattice holds that has read these fragments. -/
structure Holds (l : Lattice σ ν) (texts : List String) : Prop where
  count : l.stepCount = texts.length + 1
  buffer : (texts = [] ∧ l.buffer = none) ∨ l.buffer = some (.text (String.join texts))
  tails : ∀ (k : Nat) (s : Step σ ν), l.steps[k]? = some s →
    s.inputTail = (String.join (texts.take k)).utf8ByteSize
  words : ∀ (k : Nat) (s : Step σ ν), l.steps[k + 1]? = some s →
    l.Spells (l.vocabulary.candidates texts (k + 1)) s.nodes

variable {l l' : Lattice σ ν} {before : Step σ ν} {c : Nat × Entry σ ν} {n : Node σ ν}
  {texts : List String} {s : String} {step k : Nat}

theorem Realizes.grow (realizes : l.Realizes before c n) (same : l'.vocabulary = l.vocabulary)
    (steps : l.steps <+: l'.steps) : l'.Realizes before c n where
  present := getElem?_of_prefix steps realizes.present
  entry := realizes.entry
  edges := same ▸ realizes.edges
  best := realizes.best

theorem Spells.grow {words : List (Nat × Entry σ ν)} {nodes : List (Node σ ν)}
    (spells : l.Spells words nodes) (same : l'.vocabulary = l.vocabulary)
    (steps : l.steps <+: l'.steps) : l'.Spells words nodes :=
  List.Forall₂.imp (fun _ _ ⟨before, realizes⟩ => ⟨before, realizes.grow same steps⟩) spells

theorem realizes_follower (present : l.steps[step]? = some before) (filled : before.nodes ≠ [])
    {e : Entry σ ν} {edgeCosts : List Cost} (found : l.edgeCosts before e = .ok edgeCosts) :
    l.Realizes before (step, e) (before.follower step edgeCosts e) where
  present := present
  entry := rfl
  edges := edgeCosts_eq found
  best := ⟨_, _, rfl,
    firstLeast_leastIndex (Step.arrivals_ne_nil filled (edgeCosts_length found)), rfl⟩

/-- Where a node stands in its own step makes no difference. -/
theorem Spells.numbered {words : List (Nat × Entry σ ν)} {nodes : List (Node σ ν)}
    (spells : l.Spells words nodes) :
    l.Spells words (nodes.mapIdx fun i n => { n with index := i }) := by
  obtain ⟨length, get⟩ := List.forall₂_iff_get.mp spells
  refine List.forall₂_iff_get.mpr ⟨length.trans List.length_mapIdx.symm, ?_⟩
  intro i bound bound'
  obtain ⟨before, realizes⟩ := get i bound (length ▸ bound)
  rw [List.get_eq_getElem (l := List.mapIdx _ _), List.getElem_mapIdx]
  exact ⟨before, realizes.present, realizes.entry, realizes.edges, realizes.best⟩

theorem holds_empty (vocabulary : Vocabulary σ ν) (policy : Policy) :
    (empty vocabulary policy).Holds [] where
  count := rfl
  buffer := .inl ⟨rfl, rfl⟩
  tails k s present := by
    obtain rfl := List.mem_singleton.mp (List.mem_of_getElem? present)
    rw [List.take_nil]
    rfl
  words k s present := by simp [empty] at present

theorem Holds.settle (holds : l.Holds texts) : l.settle.lattice.Holds texts := by
  obtain ⟨settled, same⟩ := settle_lattice l
  rw [same]
  refine ⟨holds.count, holds.buffer, holds.tails, ?_⟩
  intro k s present
  exact (holds.words k s present).grow rfl List.prefix_rfl

theorem candidates_append (v : Vocabulary σ ν) (more : List String) (within : k ≤ texts.length) :
    v.candidates (texts ++ more) k = v.candidates texts k := by
  rw [Vocabulary.candidates, List.take_append_of_le_length within, Vocabulary.candidates]

theorem Holds.tails_sorted (holds : l.Holds texts) :
    l.steps.Pairwise fun first second => first.inputTail ≤ second.inputTail := by
  rw [List.pairwise_iff_getElem]
  intro i j first second below
  rw [holds.tails i _ (List.getElem?_eq_getElem first),
    holds.tails j _ (List.getElem?_eq_getElem second),
    join_take_split texts (Nat.le_of_lt below), String.utf8ByteSize_append]
  exact Nat.le_add_right _ _

/-- A step ends between two fragments, so that the input can be cut there. -/
theorem Holds.split (holds : l.Holds texts) (present : l.steps[step]? = some before) (s : String) :
    ∃ front, String.join (texts ++ [s]) = front ++ String.join ((texts ++ [s]).drop step) ∧
      front.utf8ByteSize = before.inputTail := by
  have inside : step ≤ texts.length := by
    have bound := (List.getElem?_eq_some_iff.mp present).1
    have count := holds.count
    rw [stepCount] at count
    omega
  refine ⟨String.join (texts.take step), ?_, (holds.tails step before present).symm⟩
  rw [← List.take_append_of_le_length inside, ← String.join_append, List.take_append_drop]

variable [Sequence σ]

theorem Reads.reachable (reads : l.Reads texts) : l.Reachable := by
  induction reads with
  | empty vocabulary policy => exact .empty vocabulary policy
  | accept _ _ ih => exact .push _ ih
  | refuse _ _ ih => exact .push _ ih
  | settle _ ih => exact .settle ih

theorem Holds.extended (holds : l.Holds texts) (s : String) :
    l.extended (.text s) = .ok (.text (String.join (texts ++ [s]))) := by
  rw [String.join_append, String.join_cons, String.join_nil, String.append_empty]
  obtain ⟨rfl, nothing⟩ | buffered := holds.buffer
  · rw [Lattice.extended, nothing, String.join_nil, String.empty_append]
  · rw [extended_of_buffered buffered]
    rfl

theorem Holds.slice_tail (holds : l.Holds texts) (present : l.steps[step]? = some before)
    (s : String) :
    (Fragment.text (String.join (texts ++ [s])) : Fragment σ).slice before.inputTail
      ((Fragment.text (String.join (texts ++ [s])) : Fragment σ).length - before.inputTail) =
        .ok (.text (String.join ((texts ++ [s]).drop step))) := by
  obtain ⟨front, split, size⟩ := holds.split present s
  rw [split, ← size, Fragment.slice_append_right]

/-- The words after a step are looked up under what has been read since then. -/
theorem Holds.followers (holds : l.Holds texts) (present : l.steps[step]? = some before)
    (filled : before.nodes ≠ []) {group : List (Node σ ν)}
    (found : l.followers (.text (String.join (texts ++ [s]))) before step = .ok group) :
    l.Spells ((l.vocabulary.entries (.text (String.join ((texts ++ [s]).drop step)))).map (step, ·))
      group := by
  obtain ⟨key, cut, mapped⟩ := bind_ok_iff.mp found
  obtain rfl := Except.ok.inj ((holds.slice_tail present s).symm.trans cut)
  refine List.forall₂_map_left_iff.mpr ((mapM_ok_iff.mp mapped).imp ?_)
  intro e n made
  obtain ⟨edgeCosts, found, same⟩ := bind_ok_iff.mp made
  obtain rfl := Except.ok.inj same
  exact ⟨before, realizes_follower present filled found⟩

theorem Holds.arriving (holds : l.Holds texts) (filled : ∀ s ∈ l.steps, s.nodes ≠ [])
    {nodes : List (Node σ ν)}
    (arrived : l.arriving (.text (String.join (texts ++ [s]))) = .ok nodes) :
    l.Spells (l.vocabulary.candidates (texts ++ [s]) (texts.length + 1)) nodes := by
  obtain ⟨groups, grouped, same⟩ := bind_ok_iff.mp arrived
  obtain rfl := Except.ok.inj same
  have numbers : List.range (texts.length + 1) = l.steps.zipIdx.map Prod.snd := by
    rw [List.zipIdx_map_snd, List.range_eq_range', ← holds.count, stepCount]
  have whole : (texts ++ [s]).take (texts.length + 1) = texts ++ [s] :=
    List.take_of_length_le (by simp)
  rw [Vocabulary.candidates, numbers, List.flatMap_map, whole]
  refine Spells.numbered (List.rel_flatten (List.forall₂_map_left_iff.mpr ?_))
  refine (List.forall₂_and_left _ _).mpr ⟨fun _ member => member, mapM_ok_iff.mp grouped⟩ |>.imp ?_
  rintro ⟨before, step⟩ group ⟨member, found⟩
  have present := List.mk_mem_zipIdx_iff_getElem?.mp member
  exact holds.followers present (filled before (List.mem_of_getElem? present)) found

theorem Holds.push (holds : l.Holds texts) (filled : ∀ s ∈ l.steps, s.nodes ≠ [])
    (pushed : (l.push (.text s)).result = .ok ()) :
    (l.push (.text s)).lattice.Holds (texts ++ [s]) := by
  obtain ⟨input, nodes, extended, arrived, same⟩ := push_ok pushed
  obtain rfl := Except.ok.inj ((holds.extended s).symm.trans extended)
  have count : l.steps.length = texts.length + 1 := holds.count
  rw [same]
  refine ⟨?count, .inr rfl, ?tails, ?words⟩
  case count =>
    rw [stepCount, List.length_append, List.length_append, count]
    rfl
  case tails =>
    intro k t present
    rcases getElem?_concat_iff.mp present with old | ⟨rfl, rfl⟩
    · have bound := (List.getElem?_eq_some_iff.mp old).1
      rw [holds.tails k t old, List.take_append_of_le_length (by omega)]
    · rw [List.take_of_length_le (by simp [count])]
      rfl
  case words =>
    intro k t present
    rcases getElem?_concat_iff.mp present with old | ⟨last, rfl⟩
    · have bound := (List.getElem?_eq_some_iff.mp old).1
      rw [candidates_append _ _ (show k + 1 ≤ texts.length by omega)]
      exact (holds.words k t old).grow rfl (List.prefix_append _ _)
    · obtain rfl : k = texts.length := by omega
      exact (holds.arriving filled arrived).grow rfl (List.prefix_append _ _)

/-- A text that is refused is cut off again. -/
theorem Holds.refuse (holds : l.Holds texts) {failure : Failure}
    (failed : (l.push (.text s)).result = .error failure) : (l.push (.text s)).lattice = l := by
  obtain ⟨same, _⟩ | ⟨_, input, cause, events, extended, undone⟩ := push_failed failed
  · exact same
  rw [undone, undo_eq_iff]
  intro old buffered
  obtain ⟨_, nothing⟩ | known := holds.buffer
  · rw [nothing] at buffered
    contradiction
  · obtain rfl := Option.some.inj (known.symm.trans buffered)
    obtain rfl := Except.ok.inj ((extended_of_buffered known).symm.trans extended)
    exact Fragment.slice_append_left _ _

theorem Reads.holds (reads : l.Reads texts) : l.Holds texts := by
  induction reads with
  | empty vocabulary policy => exact holds_empty vocabulary policy
  | accept before pushed ih => exact ih.push before.reachable.wellFormed.filled pushed
  | refuse _ failed ih => exact (ih.refuse failed).symm ▸ ih
  | settle _ ih => exact ih.settle

/-- In a lattice that has only been given texts, whatever it has refused, the first step is
the start of the input and the offsets never go back. After so many fragments come nodes,
numbered through, for the words that end there, in the order in which these begin. -/
theorem steps_spell_words (reads : l.Reads texts) :
    l.steps[0]? = some .start ∧ l.stepCount = texts.length + 1 ∧
    (l.steps.Pairwise fun first second => first.inputTail ≤ second.inputTail) ∧
    ∀ k s, l.steps[k + 1]? = some s → s.nodes ≠ [] ∧
      (∀ (i : Nat) (n : Node σ ν), s.nodes[i]? = some n → n.index = i) ∧
      l.Spells (l.vocabulary.candidates texts (k + 1)) s.nodes := by
  have wf := reads.reachable.wellFormed
  have holds := reads.holds
  refine ⟨wf.first, holds.count, holds.tails_sorted, ?_⟩
  intro k s present
  have member := List.mem_of_getElem? present
  exact ⟨wf.filled s member, wf.numbered s member, holds.words k s present⟩

end Lattice

namespace Overlap

/-- Between its two fragments the lattice has been given a third, which it refused, and at
the end it has been settled. -/
def interrupted : Lattice Empty Nat :=
  (Lattice.ofTexts vocabulary ["a", "c", "b"]).settle.lattice

/-- Its last step has the word for both fragments first and that for the second after it. -/
theorem interrupted_spells_words : interrupted.Reads ["a", "b"] ∧
    ∃ s, interrupted.steps[2]? = some s ∧
      interrupted.vocabulary.candidates ["a", "b"] 2 =
        [(0, ⟨some (.text "ab"), some 3, 8⟩), (1, ⟨some (.text "b"), some 2, .clamp (-4)⟩)] ∧
      interrupted.Spells (interrupted.vocabulary.candidates ["a", "b"] 2) s.nodes := by
  have one : Lattice.Reads _ _ :=
    ((Lattice.Reads.empty vocabulary .unreachable).accept (s := "a") rfl).refuse (s := "c") rfl
  have reads : interrupted.Reads ["a", "b"] := (one.accept (s := "b") rfl).settle
  obtain ⟨_, _, _, later⟩ := Lattice.steps_spell_words reads
  refine ⟨reads, interrupted.steps.get ⟨2, by decide⟩, rfl, rfl, ?_⟩
  exact (later 1 _ rfl).2.2

end Overlap

end Segmentation
