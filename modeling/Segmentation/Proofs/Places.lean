import Segmentation.Proofs.Finer

/-! Where a node of a lattice stands.
Nodes are compared without the steps that they belong to. If no fragment is empty, a word and
the step before it still leave one place only, as words of different lengths are written in
different ways. -/
namespace Segmentation

variable {σ ν : Type}

theorem utf8ByteSize_join_pos {texts : List String} (nonempty : "" ∉ texts) (more : texts ≠ []) :
    0 < (String.join texts).utf8ByteSize := by
  obtain ⟨s, rest, rfl⟩ := List.exists_cons_of_ne_nil more
  have first : 0 < s.utf8ByteSize := by
    rw [Nat.pos_iff_ne_zero, Ne, String.utf8ByteSize_eq_zero_iff]
    rintro rfl
    exact nonempty List.mem_cons_self
  rw [String.join_cons, String.utf8ByteSize_append]
  exact Nat.lt_of_lt_of_le first (Nat.le_add_right _ _)

/-- From the same place on, more fragments come to a longer text. -/
theorem join_between_lt {texts : List String} {j k k' : Nat} (nonempty : "" ∉ texts)
    (begun : j ≤ k) (before : k < k') (within : k' ≤ texts.length) :
    (String.join ((texts.take k).drop j)).utf8ByteSize <
      (String.join ((texts.take k').drop j)).utf8ByteSize := by
  have further : 0 < (String.join ((texts.take k').drop k)).utf8ByteSize := by
    apply utf8ByteSize_join_pos
    · intro empty
      exact nonempty (List.mem_of_mem_take (List.mem_of_mem_drop empty))
    · rw [← List.length_pos_iff, List.length_drop, List.length_take]
      omega
  have short := congrArg String.utf8ByteSize (join_take_split texts begun)
  have long := congrArg String.utf8ByteSize (join_take_split texts (Nat.le_of_lt before))
  have whole := congrArg String.utf8ByteSize
    (join_take_split texts (Nat.le_trans begun (Nat.le_of_lt before)))
  rw [String.utf8ByteSize_append] at short long whole
  omega

theorem join_between_injective {texts : List String} {j k k' : Nat} (nonempty : "" ∉ texts)
    (begun : j ≤ k) (begun' : j ≤ k') (within : k ≤ texts.length) (within' : k' ≤ texts.length)
    (same : String.join ((texts.take k).drop j) = String.join ((texts.take k').drop j)) :
    k = k' := by
  have size := congrArg String.utf8ByteSize same
  rcases Nat.lt_trichotomy k k' with before | rfl | after
  · exact absurd size (Nat.ne_of_lt (join_between_lt nonempty begun before within'))
  · rfl
  · exact absurd size (Nat.ne_of_gt (join_between_lt nonempty begun' after within))

/-- Words that are written in different ways have different values, as when each word has a
value of its own. -/
def Vocabulary.Distinguishes [BEq σ] [BEq ν] (v : Vocabulary σ ν) : Prop :=
  ∀ key key' e e', e ∈ v.entries key → e' ∈ v.entries key' → (e.value == e'.value) = true →
    (key == key') = true

/-- A vocabulary from tables does so if no two of the listed words have equal values. -/
theorem Lexicon.distinguishes_ofLists [BEq σ] [Hashable σ] [EquivBEq σ] [LawfulHashable σ]
    [BEq ν] [EquivBEq ν] (words : List (Fragment σ × List (Entry σ ν)))
    (links : List ((Option (Fragment σ) × Option (Fragment σ)) × Cost))
    (own : (words.flatMap Prod.snd).Pairwise fun e e' => (e.value == e'.value) = false) :
    (ofLists words links).toVocabulary.Distinguishes := by
  have listed {key : Fragment σ} {e : Entry σ ν} (known : e ∈ (ofLists words links).find key) :
      ∃ row ∈ words, (row.1 == key) = true ∧ e ∈ row.2 := by
    rw [find_ofLists] at known
    cases last : lastRow words key with
    | none => simp [last] at known
    | some found =>
      rw [last] at known
      obtain ⟨row, inside, same, rfl⟩ := exists_of_lastRow last
      exact ⟨row, inside, same, known⟩
  have symmetric : Std.Symm fun row row' : Fragment σ × List (Entry σ ν) =>
      ∀ e ∈ row.2, ∀ e' ∈ row'.2, (e.value == e'.value) = false :=
    ⟨fun row row' apart e member e' member' => BEq.comm.trans (apart e' member' e member)⟩
  intro key key' e e' known known' same
  obtain ⟨row, inside, written, member⟩ := listed known
  obtain ⟨row', inside', written', member'⟩ := listed known'
  by_cases one : row = row'
  · subst one
    exact BEq.trans (BEq.symm written) written'
  · have apart := (List.pairwise_flatMap.mp own).2.forall inside inside' one e member e' member'
    rw [same] at apart
    contradiction

/-- A place in a step, or the one behind all steps. -/
inductive Place where
  | inside (step index : Nat)
  | ending
deriving DecidableEq

namespace Lattice

/-- The node has this place in the lattice. -/
def Stands (l : Lattice σ ν) : Place → Node σ ν → Prop
  | .inside step index, n => ∃ nodes, l.nodesAt step = .ok nodes ∧ nodes[index]? = some n
  | .ending, n => l.settle.result = .ok n

/-- What a node tells of its place in a lattice that has read these fragments. -/
inductive Tells (l : Lattice σ ν) (texts : List String) : Place → Node σ ν → Prop where
  | start {n : Node σ ν} : n.origin = none → Tells l texts (.inside 0 0) n
  | word {n : Node σ ν} {k i : Nat} {origin : Origin} : n.index = i → n.origin = some origin →
      origin.step ≤ k → k < texts.length →
      n.entry ∈ l.vocabulary.entries (.text (String.join ((texts.take (k + 1)).drop origin.step))) →
      Tells l texts (.inside (k + 1) i) n
  | ending {n : Node σ ν} {origin : Origin} : n.origin = some origin → origin.step = texts.length →
      Tells l texts .ending n

variable {l : Lattice σ ν} {place place' : Place} {n n' : Node σ ν} {texts : List String}

theorem Reads.tells [Sequence σ] (reads : l.Reads texts) (stands : l.Stands place n) :
    l.Tells texts place n := by
  have wf := reads.reachable.wellFormed
  have count : l.steps.length = texts.length + 1 := reads.holds.count
  cases place with
  | ending =>
    have relaxed := (wf.relaxed_settled stands).1
    exact .ending relaxed.origin (by rw [stepCount, count, Nat.add_sub_cancel])
  | inside step i =>
    obtain ⟨nodes, there, get⟩ := stands
    obtain ⟨s, present, rfl⟩ := nodesAt_eq_ok_iff.mp there
    cases step with
    | zero =>
      obtain rfl : Step.start = s := Option.some.inj (wf.first.symm.trans present)
      obtain ⟨bound, rfl⟩ := List.getElem?_eq_some_iff.mp get
      obtain rfl : i = 0 := Nat.lt_one_iff.mp bound
      exact .start rfl
    | succ k =>
      have bound := (List.getElem?_eq_some_iff.mp present).1
      obtain ⟨⟨j, e⟩, listed, before, realizes⟩ :=
        exists_of_forall₂ (reads.holds.words k s present) (List.mem_of_getElem? get)
      obtain ⟨earlier, known⟩ := Vocabulary.mem_candidates_iff.mp listed
      obtain ⟨best, _, origin, _⟩ := realizes.best
      have numbered := wf.numbered s (List.mem_of_getElem? present) i n get
      have entry : n.entry = e := realizes.entry
      exact .word numbered origin (Nat.lt_succ_iff.mp earlier) (by omega) (entry.symm ▸ known)

variable [BEq σ] [BEq ν]

/-- The words of equal nodes begin at the same step, and are written in the same way. -/
theorem Tells.same_place (nonempty : "" ∉ texts) (own : l.vocabulary.Distinguishes)
    (same : (n == n') = true) (tells : l.Tells texts place n) (tells' : l.Tells texts place' n') :
    place = place' := by
  obtain ⟨entry, index, origin, _⟩ := Node.beq_iff.mp same
  obtain ⟨_, value, _⟩ := Entry.beq_iff.mp entry
  cases tells with
  | start nowhere =>
    rw [nowhere] at origin
    cases tells' with
    | start => rfl
    | word _ follows => exact absurd (origin.trans follows) nofun
    | ending follows => exact absurd (origin.trans follows) nofun
  | word numbered follows begun inside known =>
    rw [follows] at origin
    cases tells' with
    | start nowhere => exact absurd (origin.trans nowhere) nofun
    | word numbered' follows' begun' inside' known' =>
      obtain rfl := Option.some.inj (origin.trans follows')
      have written := eq_of_beq (α := String) (own _ _ _ _ known known' value)
      obtain rfl := Nat.succ.inj (join_between_injective nonempty (Nat.le_succ_of_le begun)
        (Nat.le_succ_of_le begun') inside inside' written)
      rw [← numbered, ← numbered', index]
    | ending follows' last =>
      obtain rfl := Option.some.inj (origin.trans follows')
      omega
  | ending follows last =>
    rw [follows] at origin
    cases tells' with
    | start nowhere => exact absurd (origin.trans nowhere) nofun
    | word _ follows' begun inside =>
      obtain rfl := Option.some.inj (origin.trans follows')
      omega
    | ending => rfl

/-- Nodes at different places are unequal, the end included, if the values tell the words apart
and no fragment is empty. A node of a pattern so takes no other node than itself. -/
theorem nodes_elsewhere_unequal [Sequence σ] (reads : l.Reads texts) (nonempty : "" ∉ texts)
    (own : l.vocabulary.Distinguishes) (stands : l.Stands place n)
    (stands' : l.Stands place' n') (elsewhere : place ≠ place') :
    (n == n') = false ∧ ∀ rest, (Element.node n).take [n' :: rest] = [] := by
  have unequal : (n == n') = false := by
    rw [Bool.eq_false_iff]
    intro same
    exact elsewhere ((reads.tells stands).same_place nonempty own same (reads.tells stands'))
  refine ⟨unequal, ?_⟩
  intro rest
  rw [Element.take, List.filterMap_cons_none (by simp [unequal]), List.filterMap_nil]

end Lattice

namespace Twins

/-- Two words of the same key and cost, of which one is the beginning of the other. -/
def words : List (Fragment Empty × List (Entry Empty Nat)) :=
  [(.text "a", [⟨some (.text "x"), some 0, 0⟩]), (.text "ab", [⟨some (.text "x"), some 1, 0⟩])]

def links : List ((Option (Fragment Empty) × Option (Fragment Empty)) × Cost) :=
  [((none, some (.text "x")), 0), ((some (.text "x"), none), 0)]

def vocabulary : Vocabulary Empty Nat := .ofRows words links

def lattice : Lattice Empty Nat := .ofTexts vocabulary ["a", "b"]

/-- The only word of a step. -/
def word (value : Nat) : Node Empty Nat :=
  ⟨⟨some (.text "x"), some value, 0⟩, 0, some ⟨0, 0⟩, [0], 0⟩

/-- Both words follow the start, each as the first of its step. Their values tell them apart. -/
theorem nodes_elsewhere_unequal_twins : lattice.Reads ["a", "b"] ∧ "" ∉ ["a", "b"] ∧
    lattice.vocabulary = (Lexicon.ofLists words links).toVocabulary ∧
    lattice.vocabulary.Distinguishes ∧
    lattice.Stands (.inside 1 0) (word 0) ∧ lattice.Stands (.inside 2 0) (word 1) ∧
    (word 0 == word 1) = false ∧ (∀ rest, (Element.node (word 0)).take [word 1 :: rest] = []) ∧
    lattice.Stands .ending lattice.ending ∧ (word 1 == lattice.ending) = false := by
  have reads : lattice.Reads ["a", "b"] :=
    ((Lattice.Reads.empty vocabulary .unreachable).accept (s := "a") rfl).accept (s := "b") rfl
  have tables : (Lexicon.ofLists words links).toVocabulary = vocabulary :=
    Lexicon.toVocabulary_ofLists words links
  have own : vocabulary.Distinguishes :=
    tables ▸ Lexicon.distinguishes_ofLists words links (by decide)
  have nonempty : "" ∉ ["a", "b"] := by decide
  have first : lattice.Stands (.inside 1 0) (word 0) := ⟨_, rfl, rfl⟩
  have second : lattice.Stands (.inside 2 0) (word 1) := ⟨_, rfl, rfl⟩
  have last : lattice.Stands .ending lattice.ending := rfl
  obtain ⟨unequal, refused⟩ :=
    Lattice.nodes_elsewhere_unequal reads nonempty own first second (by decide)
  exact ⟨reads, nonempty, tables.symm, own, first, second, unequal, refused, last,
    (Lattice.nodes_elsewhere_unequal reads nonempty own second last (by decide)).1⟩

/-- An empty fragment makes a step with the same word in the same place. -/
theorem equal_after_empty : ∃ l : Lattice Empty Nat, l.Reads ["a", ""] ∧
    l.Stands (.inside 1 0) (word 0) ∧ l.Stands (.inside 2 0) (word 0) := by
  have one := (Lattice.Reads.empty vocabulary .unreachable).accept (s := "a") rfl
  exact ⟨_, one.accept (s := "") rfl, ⟨_, rfl, rfl⟩, ⟨_, rfl, rfl⟩⟩

end Twins

end Segmentation
