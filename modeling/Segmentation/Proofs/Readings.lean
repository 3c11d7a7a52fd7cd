import Segmentation.Lexicon
import Segmentation.Proofs.Cuts
import Segmentation.Proofs.EveryPath
import Segmentation.Proofs.TextRuns

/-! A search without a pattern agrees with trying everything out: cutting the texts that have
been read at any fragments, choosing a word for each segment, and keeping what can be
connected.
The lattice groups these choices by their last words, and step by step the chains to the
nodes of a step are the choices for the fragments before it. -/
namespace Segmentation

variable {σ ν : Type}

section Spelling

variable (link : Option (Fragment σ) → Option (Fragment σ) → Option Cost)

/-- Whether a word may follow another one depends on their keys only. -/
def Vocabulary.Keyed (v : Vocabulary σ ν) : Prop :=
  ∀ n e, v.connection n e = link n.entry.key e.key

/-- The connections of a vocabulary that is given by tables are of this kind. -/
theorem Lexicon.keyed [BEq σ] [Hashable σ] (x : Lexicon σ ν) :
    x.toVocabulary.Keyed x.link :=
  fun _ _ => rfl

/-- The costs that are met along words: of each connection, and of each word but the first. -/
def tolls : List (Entry σ ν) → List Cost
  | a :: b :: words => (link a.key b.key).getD .infinite :: b.cost :: tolls (b :: words)
  | _ => []

/-- The words that the texts can be read as, however they are connected. -/
def Vocabulary.readings (v : Vocabulary σ ν) (texts : List String) : List (List (Entry σ ν)) :=
  (cuts texts).flatMap fun segments =>
    (segments.map fun segment => v.entries (.text (String.join segment))).sections

/-- Those among lists of words on which nothing is out of reach. -/
def passable (readings : List (List (Entry σ ν))) : List (List (Entry σ ν)) :=
  readings.filter fun words => .infinite ∉ tolls link words

/-- The readings of the texts that can be connected, between the start and the end. -/
def Vocabulary.sentences (v : Vocabulary σ ν) (texts : List String) : List (List (Entry σ ν)) :=
  passable link ((v.readings texts).map fun words => .sentinel :: words ++ [.sentinel])

end Spelling

variable {link : Option (Fragment σ) → Option (Fragment σ) → Option Cost} {v : Vocabulary σ ν}
  {texts : List String} {words : List (Entry σ ν)} {a e : Entry σ ν}

theorem tolls_concat (last : words.getLast? = some a) (e : Entry σ ν) :
    tolls link (words ++ [e]) =
      tolls link words ++ [(link a.key e.key).getD .infinite, e.cost] := by
  induction words with
  | nil => contradiction
  | cons b words ih =>
    cases words with
    | nil =>
      obtain rfl := Option.some.inj last
      rfl
    | cons c words =>
      rw [List.getLast?_cons_cons] at last
      simp only [List.cons_append, tolls, List.cons.injEq, true_and]
      exact ih last

theorem mem_passable {readings : List (List (Entry σ ν))} :
    words ∈ passable link readings ↔ words ∈ readings ∧ .infinite ∉ tolls link words := by
  rw [passable, List.mem_filter, decide_eq_true_eq]

/-- A sentence is the choice of a word for each segment of a cut, between the start and the
end, and nothing on it is out of reach. -/
theorem Vocabulary.mem_sentences_iff : words ∈ v.sentences link texts ↔
    .infinite ∉ tolls link words ∧ ∃ segments inner, segments.flatten = texts ∧ [] ∉ segments ∧
      List.Forall₂ (fun e segment => e ∈ v.entries (.text (String.join segment))) inner segments ∧
      words = .sentinel :: inner ++ [.sentinel] := by
  have chosen : ∀ inner, inner ∈ v.readings texts ↔ ∃ segments, segments.flatten = texts ∧
      [] ∉ segments ∧ List.Forall₂ (fun e segment =>
        e ∈ v.entries (.text (String.join segment))) inner segments := by
    intro inner
    simp only [readings, List.mem_flatMap, mem_cuts_iff, List.mem_sections,
      List.forall₂_map_right_iff, and_assoc]
  rw [sentences, mem_passable, and_comm, List.mem_map]
  refine and_congr_right fun _ => ?_
  constructor
  · rintro ⟨inner, known, rfl⟩
    obtain ⟨segments, joined, whole, spelled⟩ := (chosen inner).mp known
    exact ⟨segments, inner, joined, whole, spelled, rfl⟩
  · rintro ⟨segments, inner, joined, whole, spelled, rfl⟩
    exact ⟨inner, (chosen inner).mpr ⟨segments, joined, whole, spelled⟩, rfl⟩

/-- The words of a text end with a last word after the words of what is read before. -/
theorem Vocabulary.readings_perm (v : Vocabulary σ ν) {k : Nat} (positive : 0 < k)
    (within : k ≤ texts.length) : (v.readings (texts.take k)).Perm
      ((v.candidates texts k).flatMap fun c =>
        (v.readings (texts.take c.1)).map (· ++ [c.2])) := by
  have length : (texts.take k).length = k := List.length_take_of_le within
  have nonempty : texts.take k ≠ [] := by
    rw [← List.length_pos_iff, length]
    exact positive
  refine ((cuts_perm_byLast nonempty).flatMap_right _).trans ?_
  rw [cutsByLast, length, candidates, List.flatMap_assoc, List.flatMap_assoc]
  refine .flatMap_left _ ?_
  intro j inside
  have earlier : (texts.take k).take j = texts.take j := by
    rw [List.take_take, Nat.min_eq_left (Nat.le_of_lt (List.mem_range.mp inside))]
  simp only [earlier, List.flatMap_map, readings, List.map_flatMap, List.map_append, List.map_cons,
    List.map_nil, sections_concat]
  exact flatMap_perm_comm _ _ _

theorem Vocabulary.candidates_earlier {c : Nat × Entry σ ν} {k : Nat}
    (listed : c ∈ v.candidates texts k) : c.1 < k := by
  obtain ⟨j, inside, listed⟩ := List.mem_flatMap.mp listed
  obtain ⟨e, _, rfl⟩ := List.mem_map.mp listed
  exact List.mem_range.mp inside

theorem perm_flatMap_of_forall₂ {α β γ : Type} {xs : List α} {ys : List β} {f : α → List γ}
    {g : β → List γ} (paired : List.Forall₂ (fun x y => (f x).Perm (g y)) xs ys) :
    (xs.flatMap f).Perm (ys.flatMap g) := by
  induction paired with
  | nil => exact .refl _
  | cons head _ ih =>
    rw [List.flatMap_cons, List.flatMap_cons]
    exact head.append ih

theorem passable_flatMap {α : Type} (xs : List α) (f : α → List (List (Entry σ ν))) :
    passable link (xs.flatMap f) = xs.flatMap fun x => passable link (f x) :=
  List.filter_flatMap

/-- Words that are blocked do not get through by a further word. -/
theorem passable_passable_concat {readings : List (List (Entry σ ν))}
    (begun : ∀ words ∈ readings, words ≠ []) (e : Entry σ ν) :
    passable link ((passable link readings).map (· ++ [e])) =
      passable link (readings.map (· ++ [e])) := by
  unfold passable
  rw [List.filter_map, List.filter_map, List.filter_filter]
  congr 1
  refine List.filter_congr ?_
  intro words member
  have last := List.getLast?_eq_some_getLast (begun words member)
  refine (Bool.eq_self_and.mpr ?_).symm
  simp only [Function.comp, tolls_concat last, decide_eq_true_eq]
  intro free blocked
  exact free (List.mem_append_left _ blocked)

/-- Words with the same last one all get through to a further word, or none of them. -/
theorem passable_concat {readings : List (List (Entry σ ν))}
    (known : ∀ words ∈ readings, words.getLast? = some a ∧ .infinite ∉ tolls link words)
    (e : Entry σ ν) : passable link (readings.map (· ++ [e])) =
      if (link a.key e.key).getD .infinite = .infinite ∨ e.cost = .infinite then []
      else readings.map (· ++ [e]) := by
  split
  next blocked =>
    refine List.filter_eq_nil_iff.mpr ?_
    intro longer listed
    obtain ⟨words, member, rfl⟩ := List.mem_map.mp listed
    rw [tolls_concat (known words member).1]
    rcases blocked with blocked | blocked
    · simp [blocked]
    · simp [blocked]
  next free =>
    refine List.filter_eq_self.mpr ?_
    intro longer listed
    obtain ⟨words, member, rfl⟩ := List.mem_map.mp listed
    obtain ⟨last, passed⟩ := known words member
    rw [tolls_concat last, decide_eq_true_eq]
    rw [not_or] at free
    simp [passed, Ne.symm free.1, Ne.symm free.2]

namespace Lattice

variable {l : Lattice σ ν} {step place : Nat} {before : Step σ ν} {m n eos : Node σ ν}
  {edge : Cost} {nodes : List (Node σ ν)} {costs : List Cost} {c : Nat × Entry σ ν}

theorem Realizes.zip_edges (realizes : l.Realizes before c n) (keyed : l.vocabulary.Keyed link) :
    before.nodes.zip n.edgeCosts =
      before.nodes.map fun m => (m, (link m.entry.key n.entry.key).getD .infinite) := by
  rw [realizes.edges, realizes.entry, ← List.map_prod_left_eq_zip]
  refine List.map_congr_left ?_
  intro m _
  rw [keyed]

theorem Realizes.joins_iff (realizes : l.Realizes before c n) (keyed : l.vocabulary.Keyed link) :
    l.Joins m edge n ↔
      m ∈ before.nodes ∧ edge = (link m.entry.key n.entry.key).getD .infinite := by
  obtain ⟨_, _, origin, _⟩ := realizes.best
  rw [Lattice.joins_iff origin realizes.present, realizes.zip_edges keyed]
  simp [eq_comm]

theorem Holds.start_or_realizes (holds : l.Holds texts) (wf : l.WellFormed)
    (present : l.steps[step]? = some before) (member : n ∈ before.nodes) :
    n = .start [] ∨ ∃ earlier c, l.Realizes earlier c n := by
  cases step with
  | zero =>
    obtain rfl : Step.start = before := Option.some.inj (wf.first.symm.trans present)
    exact .inl (List.mem_singleton.mp member)
  | succ k =>
    obtain ⟨c, _, earlier, realizes⟩ := exists_of_forall₂ (holds.words k before present) member
    exact .inr ⟨earlier, c, realizes⟩

/-- What is met on a chain are the tolls of its words. -/
theorem Holds.chain_tolls (holds : l.Holds texts) (wf : l.WellFormed)
    (keyed : l.vocabulary.Keyed link) (chain : Chain l.Joins nodes costs n)
    (known : n = .start [] ∨ ∃ before c, l.Realizes before c n) :
    costs = tolls link (nodes.map Node.entry) := by
  induction chain with
  | start => rfl
  | @next nodes costs m edge n chain joined ih =>
    obtain ⟨before, c, realizes⟩ := known.resolve_left fun start =>
      not_joins_start [] (start ▸ joined)
    obtain ⟨inside, rfl⟩ := (realizes.joins_iff keyed).mp joined
    have last : (nodes.map Node.entry).getLast? = some m.entry := by
      rw [List.getLast?_map, chain.getLast?]
      rfl
    rw [List.map_append, List.map_singleton, tolls_concat last,
      ← ih (holds.start_or_realizes wf realizes.present inside)]

/-- The chains to a node of a word are those to the step before it, as far as the word can
be connected to them. -/
theorem Realizes.words_along (realizes : l.Realizes before c n) (holds : l.Holds texts)
    (wf : l.WellFormed) (keyed : l.vocabulary.Keyed link) (earlier : c.1 < place) :
    (l.ways place n).map (List.map Node.entry) =
      passable link (((before.nodes.flatMap (l.ways c.1)).map (List.map Node.entry)).map
        (· ++ [c.2])) := by
  -- The chains to one node end with the same word: all of them go on, or none does.
  have known : ∀ m ∈ before.nodes, ∀ words ∈ (l.ways c.1 m).map (List.map Node.entry),
      words.getLast? = some m.entry ∧ .infinite ∉ tolls link words := by
    intro m inside words listed
    obtain ⟨nodes, member, rfl⟩ := List.mem_map.mp listed
    obtain ⟨costs, chain⟩ := (wf.mem_ways realizes.present inside nodes).mp member
    refine ⟨?_, ?_⟩
    · rw [List.getLast?_map, chain.getLast?]
      rfl
    · rw [← holds.chain_tolls wf keyed chain.joins
        (holds.start_or_realizes wf realizes.present inside)]
      exact chain.finite
  rw [List.map_flatMap, List.map_flatMap, passable_flatMap]
  obtain ⟨_, _, origin, _⟩ := realizes.best
  by_cases blocked : n.entry.cost = .infinite
  · rw [ways_of_infinite blocked, List.map_nil, eq_comm, List.flatMap_eq_nil_iff]
    intro m inside
    rw [passable_concat (known m inside), ← realizes.entry, if_pos (.inr blocked)]
  · rw [ways_of_follows origin realizes.present earlier blocked, realizes.zip_edges keyed,
      List.flatMap_map, List.map_flatMap]
    refine List.flatMap_congr ?_
    intro m inside
    rw [passable_concat (known m inside), ← realizes.entry, waysOver]
    simp only [blocked, or_false]
    split
    · rfl
    · simp

/-- If the chains to a step are the readings of what has been read there, those to a node
after it are these readings with the word of the node. -/
theorem Realizes.words_perm (realizes : l.Realizes before c n) (holds : l.Holds texts)
    (wf : l.WellFormed) (keyed : l.vocabulary.Keyed link) (earlier : c.1 < place)
    (right : ((before.nodes.flatMap (l.ways c.1)).map (List.map Node.entry)).Perm
      (passable link ((l.vocabulary.readings (texts.take c.1)).map (.sentinel :: ·)))) :
    ((l.ways place n).map (List.map Node.entry)).Perm
      (passable link ((l.vocabulary.readings (texts.take c.1)).map fun words =>
        .sentinel :: words ++ [c.2])) := by
  have begun : ∀ words ∈ (l.vocabulary.readings (texts.take c.1)).map (Entry.sentinel :: ·),
      words ≠ [] := by
    intro words listed
    obtain ⟨_, _, rfl⟩ := List.mem_map.mp listed
    exact List.cons_ne_nil _ _
  have longer := (right.map (· ++ [c.2])).filter fun words => .infinite ∉ tolls link words
  change (passable link _).Perm (passable link _) at longer
  rw [passable_passable_concat begun, List.map_map (l := l.vocabulary.readings _)] at longer
  rw [realizes.words_along holds wf keyed earlier]
  exact longer

/-- The chains to the nodes of a step are the readings of what has been read there. -/
theorem Holds.words_perm (holds : l.Holds texts) (wf : l.WellFormed)
    (keyed : l.vocabulary.Keyed link) (present : l.steps[step]? = some before) :
    ((before.nodes.flatMap (l.ways step)).map (List.map Node.entry)).Perm
      (passable link ((l.vocabulary.readings (texts.take step)).map (.sentinel :: ·))) := by
  -- The words that end at a step may begin at any earlier one.
  induction step using Nat.strongRecOn generalizing before with
  | ind step ih =>
    cases step with
    | zero =>
      obtain rfl : Step.start = before := Option.some.inj (wf.first.symm.trans present)
      rw [Step.start, List.flatMap_cons, ways_start]
      exact .refl _
    | succ k =>
      have within : k + 1 ≤ texts.length := by
        have bound := (List.getElem?_eq_some_iff.mp present).1
        have count : l.steps.length = texts.length + 1 := holds.count
        omega
      have paired : List.Forall₂ (fun n c => ((l.ways (k + 1) n).map (List.map Node.entry)).Perm
          (passable link ((l.vocabulary.readings (texts.take c.1)).map fun words =>
            .sentinel :: words ++ [c.2])))
          before.nodes (l.vocabulary.candidates texts (k + 1)) := by
        refine .flip (((List.forall₂_and_left _ _).mpr
          ⟨fun _ listed => listed, holds.words k before present⟩).imp ?_)
        rintro c n ⟨listed, earlier, realizes⟩
        have less := Vocabulary.candidates_earlier listed
        exact realizes.words_perm holds wf keyed less (ih c.1 less realizes.present)
      have shared := (l.vocabulary.readings_perm k.succ_pos within).map (Entry.sentinel :: ·)
      simp only [List.map_flatMap, List.map_map] at shared
      rw [List.map_flatMap]
      refine (perm_flatMap_of_forall₂ paired).trans ?_
      rw [← passable_flatMap]
      exact shared.symm.filter _

/-- The end of a settled lattice follows its last step. -/
theorem WellFormed.realizes_settled (wf : l.WellFormed) (settled : l.settle.result = .ok eos) :
    l.Realizes (l.steps.getLastD .start) (l.stepCount - 1, .sentinel) eos := by
  obtain ⟨edgeCosts, found, rfl, _⟩ := settle_eq_ok_iff.mp settled
  exact realizes_follower wf.last_present (wf.filled_of_get wf.last_present) found

/-- The chains to the end of a settled lattice are the sentences of what has been read. -/
theorem Holds.sentences_perm (holds : l.Holds texts) (wf : l.WellFormed)
    (keyed : l.vocabulary.Keyed link) (settled : l.settle.result = .ok eos)
    (earlier : l.stepCount - 1 < place) :
    ((l.ways place eos).map (List.map Node.entry)).Perm (l.vocabulary.sentences link texts) := by
  have realizes := wf.realizes_settled settled
  have listed := realizes.words_perm holds wf keyed earlier
    (holds.words_perm wf keyed realizes.present)
  rwa [holds.count, Nat.add_sub_cancel, List.take_length] at listed

variable [BEq σ] [BEq ν] [Sequence σ]

/-- Where connections depend on keys only and no sentence comes near the ends of the range,
draining a settled lattice of texts gives the sentences of what has been read, each as often
as the texts can be read so, with the integer sum of their costs. -/
theorem drain_sentences (reads : l.Reads texts) (keyed : l.vocabulary.Keyed link)
    (settled : l.settle.result = .ok eos)
    (range : ∀ words ∈ l.vocabulary.sentences link texts, Cost.size (tolls link words) < 2147483647)
    (identity : Nat) : ∃ e, Enumeration.start identity l eos .empty = .ok e ∧
      (e.drain.map fun path => (path.nodes.map Node.entry, path.cost.val)).Perm
        ((l.vocabulary.sentences link texts).map fun words =>
          (words, Cost.exact (tolls link words))) := by
  have wf := reads.reachable.wellFormed
  have holds := reads.holds
  obtain ⟨relaxed, _⟩ := wf.relaxed_settled settled
  have earlier := Nat.lt_succ_self (l.stepCount - 1)
  have sentences := holds.sentences_perm wf keyed settled earlier
  have tolled : ∀ nodes costs, Chain l.Passes nodes costs eos →
      costs = tolls link (nodes.map Node.entry) := fun nodes costs chain =>
    holds.chain_tolls wf keyed chain.joins (.inr ⟨_, _, wf.realizes_settled settled⟩)
  have bounded : l.Bounded eos := by
    intro nodes costs chain
    have listed : nodes ∈ l.ways (l.stepCount - 1 + 1) eos :=
      (mem_ways_of_follows relaxed.origin relaxed.present earlier
        fun m => wf.mem_ways relaxed.present).mpr ⟨costs, chain⟩
    rw [tolled nodes costs chain]
    exact range _ (sentences.mem_iff.mp (List.mem_map_of_mem listed))
  obtain ⟨e, accepted⟩ := Enumeration.start_of_settled wf settled identity .empty
  obtain ⟨origin, _, follows, _, enumerated⟩ := wf.drain_enumerates bounded accepted
  obtain rfl := Option.some.inj (relaxed.origin.symm.trans follows)
  have priced : (e.drain.map fun path => (path.nodes.map Node.entry, path.cost.val)) =
      ((e.drain.map Path.nodes).map (List.map Node.entry)).map fun words =>
        (words, Cost.exact (tolls link words)) := by
    rw [List.map_map, List.map_map]
    refine List.map_congr_left ?_
    intro path member
    obtain ⟨costs, chain, value⟩ := enumerated.cost path member
    simp only [Function.comp, value, tolled path.nodes costs chain]
  refine ⟨e, accepted, ?_⟩
  rw [priced]
  exact ((enumerated.perm.map _).trans sentences).map _

end Lattice

namespace Gap

/-- The two words of "ab" may stand anywhere, the single one may not stand at the end. -/
def connect : Option (Fragment Empty) → Option (Fragment Empty) → Option Cost
  | some (.text "ab"), none => none
  | _, _ => some 1

def vocabulary : Vocabulary Empty Nat :=
  { Overlap.vocabulary with connection := fun before after => connect before.entry.key after.key }

/-- The texts "a" and "b", with an empty one between them. -/
def lattice : Lattice Empty Nat := .ofTexts vocabulary ["a", "", "b"]

/-- The empty text belongs to the first word or to the second, so that both readings of the
first word are met twice. -/
theorem drain_sentences_twice : lattice.Reads ["a", "", "b"] ∧ lattice.vocabulary.Keyed connect ∧
    lattice.settle.result = .ok lattice.ending ∧
    (∀ words ∈ lattice.vocabulary.sentences connect ["a", "", "b"],
      Cost.size (tolls connect words) < 2147483647) ∧
    ∃ e, Enumeration.start 0 lattice lattice.ending .empty = .ok e ∧
      (e.drain.map fun path => (path.nodes.map (·.entry.value), path.cost.val)).Perm
        [([none, some 0, some 2, none], 4), ([none, some 1, some 2, none], 2),
          ([none, some 0, some 2, none], 4), ([none, some 1, some 2, none], 2)] := by
  have reads : lattice.Reads ["a", "", "b"] :=
    (((Lattice.Reads.empty vocabulary .unreachable).accept (s := "a") rfl).accept
      (s := "") rfl).accept (s := "b") rfl
  have keyed : lattice.vocabulary.Keyed connect := fun _ _ => rfl
  have settled : lattice.settle.result = .ok lattice.ending := rfl
  have range : ∀ words ∈ lattice.vocabulary.sentences connect ["a", "", "b"],
      Cost.size (tolls connect words) < 2147483647 := by decide
  obtain ⟨e, accepted, perm⟩ := Lattice.drain_sentences reads keyed settled range 0
  refine ⟨reads, keyed, settled, range, e, accepted, ?_⟩
  have values := perm.map fun found => (found.1.map Entry.value, found.2)
  simp only [List.map_map, Function.comp_def] at values
  exact values.trans (.of_eq rfl)

end Gap

end Segmentation
