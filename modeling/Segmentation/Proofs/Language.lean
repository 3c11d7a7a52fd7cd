import Segmentation.Proofs.Matching
import Segmentation.Proofs.Viterbi

/-! The paths that a pattern stands for.
A path matches if it can be cut into one segment for each element, in their order. Matching goes
through it from its end and keeps all places that can be reached. That agrees with trying one
way after the other from the start, and what is admitted as an end of a path can be completed. -/
namespace Segmentation

variable {σ ν : Type} [BEq σ] [BEq ν]

/-- The segments that an element stands for. -/
inductive Element.Covers : Element σ ν → List (Node σ ν) → Prop where
  | node : (n == x) = true → Covers (.node n) [x]
  | exactly : share.length = count → Covers (.exactly count) share
  | any : Covers .any share

/-- The nodes can be cut into one segment for each element, in their order. -/
def Divides (es : List (Element σ ν)) (xs : List (Node σ ν)) : Prop :=
  ∃ segments : List (List (Node σ ν)), segments.flatten = xs ∧
    List.Forall₂ Element.Covers es segments

/-- Matching from the start: where an element can take more or less, each is tried. -/
def backtracks : List (Element σ ν) → List (Node σ ν) → Bool
  | [], path => path.isEmpty
  | .node n :: es, path =>
    match path with
    | [] => false
    | x :: rest => n == x && backtracks es rest
  | .exactly count :: es, path => count ≤ path.length && backtracks es (path.drop count)
  | .any :: es, path =>
    (List.range (path.length + 1)).any fun taken => backtracks es (path.drop taken)

variable {e : Element σ ν} {es : List (Element σ ν)} {xs rest : List (Node σ ν)}

/-- What an element takes from the front is a segment that it stands for. -/
theorem Element.takes_iff :
    e.Takes xs rest ↔ ∃ share, share ++ rest = xs ∧ e.Covers share := by
  constructor
  · intro takes
    cases takes with
    | node same => exact ⟨[_], rfl, .node same⟩
    | @exactly count _ enough =>
      exact ⟨xs.take count, List.take_append_drop _ _, .exactly (List.length_take_of_le enough)⟩
    | any suffix =>
      obtain ⟨share, joined⟩ := suffix
      exact ⟨share, joined, .any⟩
  · rintro ⟨share, rfl, covers⟩
    cases covers with
    | node same => exact .node same
    | exactly length =>
      subst length
      have takes : (Element.exactly share.length : Element σ ν).Takes (share ++ rest)
          ((share ++ rest).drop share.length) := .exactly (by simp)
      rwa [List.drop_left] at takes
    | any => exact .any (List.suffix_append _ _)

theorem divides_cons :
    Divides (e :: es) xs ↔ ∃ rest, e.Takes xs rest ∧ Divides es rest := by
  simp only [Element.takes_iff]
  constructor
  · rintro ⟨segments, rfl, covered⟩
    cases covered with
    | cons covers others => exact ⟨_, ⟨_, rfl, covers⟩, _, rfl, others⟩
  · rintro ⟨_, ⟨share, rfl, covers⟩, segments, rfl, others⟩
    exact ⟨share :: segments, rfl, .cons covers others⟩

theorem shares_iff_divides : Shares es xs ↔ Divides es xs := by
  induction es generalizing xs with
  | nil =>
    constructor
    · rintro rfl
      exact ⟨[], rfl, .nil⟩
    · rintro ⟨_, rfl, ⟨⟩⟩
      rfl
  | cons e es ih =>
    rw [divides_cons]
    exact exists_congr fun rest => and_congr_right fun _ => ih

theorem backtracks_iff : backtracks es xs = true ↔ Divides es xs := by
  rw [← shares_iff_divides]
  induction es generalizing xs with
  | nil => exact List.isEmpty_iff
  | cons e es ih =>
    rw [Shares]
    cases e with
    | node n =>
      cases xs with
      | nil =>
        constructor
        · intro impossible
          cases impossible
        · rintro ⟨_, ⟨⟩, _⟩
      | cons x xs =>
        rw [backtracks, Bool.and_eq_true, ih]
        constructor
        · rintro ⟨same, shares⟩
          exact ⟨xs, .node same, shares⟩
        · rintro ⟨_, ⟨same⟩, shares⟩
          exact ⟨same, shares⟩
    | exactly count =>
      rw [backtracks, Bool.and_eq_true, ih, decide_eq_true_eq]
      constructor
      · rintro ⟨enough, shares⟩
        exact ⟨_, .exactly enough, shares⟩
      · rintro ⟨_, takes, shares⟩
        cases takes with
        | exactly enough => exact ⟨enough, shares⟩
    | any =>
      simp only [backtracks, List.any_eq_true, List.mem_range, ih]
      constructor
      · rintro ⟨taken, _, shares⟩
        exact ⟨_, .any (List.drop_suffix _ _), shares⟩
      · rintro ⟨rest, takes, shares⟩
        cases takes with
        | any suffix =>
          rw [List.suffix_iff_eq_drop.mp suffix] at shares
          exact ⟨xs.length - rest.length, by omega, shares⟩

theorem Element.covers_reverse : e.Covers xs.reverse ↔ e.Covers xs := by
  have turned {ys : List (Node σ ν)} (covers : e.Covers ys) : e.Covers ys.reverse := by
    cases covers with
    | node same => exact .node same
    | exactly length => exact .exactly (by rw [List.length_reverse, length])
    | any => exact .any
  constructor
  · intro covers
    rw [← List.reverse_reverse xs]
    exact turned covers
  · exact turned

/-- Read from the end, a path is cut at the same places. -/
theorem divides_reverse : Divides es.reverse xs.reverse ↔ Divides es xs := by
  have turned {es : List (Element σ ν)} {xs : List (Node σ ν)} (divides : Divides es xs) :
      Divides es.reverse xs.reverse := by
    obtain ⟨segments, rfl, covered⟩ := divides
    refine ⟨(segments.map List.reverse).reverse, List.reverse_flatten.symm, ?_⟩
    rw [List.forall₂_reverse_iff, List.forall₂_map_right_iff]
    exact covered.imp fun _ _ => Element.covers_reverse.mpr
  constructor
  · intro divides
    have again := turned divides
    rwa [List.reverse_reverse, List.reverse_reverse] at again
  · exact turned

namespace Pattern

theorem takeAll_singleton : takeAll es [xs] = true ↔ Divides es xs := by
  rw [takeAll_iff (List.pairwise_singleton _ _), ← shares_iff_divides]
  simp

/-- A complete path matches exactly if the pattern is empty or the path can be cut into segments
for its elements, which is what trying all ways from the start finds out. -/
theorem accepts_iff_divides (p : Pattern σ ν) (path : List (Node σ ν)) :
    (p.accepts path = true ↔ p.elements = [] ∨ Divides p.elements path) ∧
      p.accepts path = (p.isEmpty || backtracks p.elements path) := by
  have cut : p.accepts path = true ↔ p.elements = [] ∨ Divides p.elements path := by
    rw [accepts, Bool.or_eq_true, takeAll_singleton, divides_reverse]
    exact or_congr_left List.isEmpty_iff
  refine ⟨cut, ?_⟩
  rw [Bool.eq_iff_iff, cut, Bool.or_eq_true, backtracks_iff]
  exact or_congr_left List.isEmpty_iff.symm

end Pattern

theorem Element.Takes.append (takes : e.Takes xs rest) (more : List (Node σ ν)) :
    e.Takes (xs ++ more) (rest ++ more) := by
  obtain ⟨share, rfl, covers⟩ := Element.takes_iff.mp takes
  exact Element.takes_iff.mpr ⟨share, (List.append_assoc _ _ _).symm, covers⟩

/-- Nodes can be shared out to the elements and to at least one node more if they can to the
elements once some of the others are there. -/
theorem SharesBeyond.of_shares (rest : List (Node σ ν)) (nonempty : rest ≠ [])
    (shares : Shares es (xs ++ rest)) : SharesBeyond es xs := by
  obtain ⟨front, last, rfl⟩ := (List.eq_nil_or_concat rest).resolve_left nonempty
  rw [List.concat_eq_append, ← List.append_assoc] at shares
  have beyond := shares.beyond
  clear shares nonempty
  -- of what is beyond, one node after the other is left off
  induction front using List.reverseRecOn with
  | nil => rwa [List.append_nil] at beyond
  | append_singleton front x ih =>
    rw [← List.append_assoc] at beyond
    exact ih beyond.shorten

section

variable [ReflBEq σ] [ReflBEq ν]

theorem Node.beq_self (n : Node σ ν) : (n == n) = true := by
  have key (f : Fragment σ) : (f == f) = true := by
    cases f with
    | text s => exact beq_self_eq_true s
    | custom c => exact beq_self_eq_true c
  have entry : (n.entry == n.entry) = true := by
    change (_ && _) = true
    cases found : n.entry.key <;> simp [key]
  change (_ && _) = true
  simp [entry]

theorem Element.exists_covers (e : Element σ ν) :
    ∃ share, e.Covers share := by
  cases e with
  | node n => exact ⟨[n], .node n.beq_self⟩
  | exactly count => exact ⟨List.replicate count (.start []), .exactly List.length_replicate⟩
  | any => exact ⟨[], .any⟩

theorem exists_divides (es : List (Element σ ν)) : ∃ xs, Divides es xs := by
  induction es with
  | nil => exact ⟨[], [], rfl, .nil⟩
  | cons e es ih =>
    obtain ⟨share, covers⟩ := e.exists_covers
    obtain ⟨rest, divides⟩ := ih
    exact ⟨share ++ rest, divides_cons.mpr
      ⟨rest, Element.takes_iff.mpr ⟨share, rfl, covers⟩, divides⟩⟩

/-- An element that needs more nodes, or is content with more, can have them. -/
theorem Element.exists_takes_of_outruns (outruns : e.outruns xs = true) (rest : List (Node σ ν)) :
    ∃ more, more ≠ [] ∧ e.Takes (xs ++ (more ++ rest)) rest := by
  simp only [Element.takes_iff, ← List.append_assoc, List.append_left_inj, exists_eq_left]
  cases e with
  | node n =>
    obtain rfl := List.isEmpty_iff.mp outruns
    exact ⟨[n], List.cons_ne_nil _ _, .node n.beq_self⟩
  | exactly count =>
    have short : xs.length < count := of_decide_eq_true outruns
    refine ⟨List.replicate (count - xs.length) (.start []), ?_, .exactly ?_⟩
    · rw [Ne, List.replicate_eq_nil_iff]
      omega
    · rw [List.length_append, List.length_replicate]
      omega
  | any => exact ⟨[.start []], List.cons_ne_nil _ _, .any⟩

theorem SharesBeyond.exists_shares (beyond : SharesBeyond es xs) :
    ∃ rest, rest ≠ [] ∧ Shares es (xs ++ rest) := by
  induction es generalizing xs with
  | nil => exact beyond.elim
  | cons e es ih =>
    obtain outruns | ⟨rest, takes, beyond⟩ := beyond
    · -- from here on the nodes are unknown, and what the other elements need may be there
      obtain ⟨further, divides⟩ := exists_divides es
      obtain ⟨more, nonempty, takes⟩ := e.exists_takes_of_outruns outruns further
      refine ⟨more ++ further, ?_, further, takes, shares_iff_divides.mpr divides⟩
      exact fun empty => nonempty (List.append_eq_nil_iff.mp empty).1
    · obtain ⟨more, nonempty, shares⟩ := ih beyond
      exact ⟨more, nonempty, rest ++ more, takes.append more, shares⟩

namespace Pattern

theorem takeBeyond_singleton :
    takeBeyond es [xs] = true ↔ ∃ rest, rest ≠ [] ∧ Divides es (xs ++ rest) := by
  rw [takeBeyond_iff (List.pairwise_singleton _ _)]
  simp only [List.mem_singleton, exists_eq_left, ← shares_iff_divides]
  constructor
  · exact SharesBeyond.exists_shares
  · rintro ⟨rest, nonempty, shares⟩
    exact .of_shares rest nonempty shares

/-- The end of a path, listed from its last node on, is admitted exactly if the pattern is empty,
or it reaches the start of the input and can be cut into segments for the elements, or it does
not and there are nodes, at least one, with which it can be. -/
theorem admits_iff_extends (p : Pattern σ ν) (backward : List (Node σ ν)) :
    p.admits backward.reverse = true ↔ p.elements = [] ∨
      if backward.getLast?.any Node.isStart then Divides p.elements.reverse backward
      else ∃ rest, rest ≠ [] ∧ Divides p.elements.reverse (backward ++ rest) := by
  rw [admits, Bool.or_eq_true, List.head?_reverse, List.reverse_reverse]
  refine or_congr List.isEmpty_iff ?_
  split
  · exact takeAll_singleton
  · exact takeBeyond_singleton

end Pattern

end

namespace Overlap

/-- The start, as many nodes as can be counted, the word of both fragments, and the end. -/
def crowded : Pattern Empty Nat :=
  ⟨[.node (.start []), .exactly maxOffset, .node (last.get ⟨0, by decide⟩), .any,
    .node lattice.ending]⟩

/-- The end of a path through the lattice is the end of such a path, but the path itself is none. -/
theorem admits_iff_extends_crowded :
    (∃ rest, rest ≠ [] ∧
      Divides crowded.elements.reverse ([lattice.ending, last.get ⟨0, by decide⟩] ++ rest)) ∧
    ¬ Divides crowded.elements.reverse
      [lattice.ending, last.get ⟨0, by decide⟩, .start []] := by
  constructor
  · have admitted : crowded.admits [last.get ⟨0, by decide⟩, lattice.ending] = true := rfl
    exact ((Pattern.admits_iff_extends crowded
      [lattice.ending, last.get ⟨0, by decide⟩]).mp admitted).resolve_left nofun
  · have refused :
        crowded.admits [.start [], last.get ⟨0, by decide⟩, lattice.ending] = false := rfl
    intro divides
    exact absurd ((Pattern.admits_iff_extends crowded
      [lattice.ending, last.get ⟨0, by decide⟩, .start []]).mpr (.inr divides))
      (Bool.eq_false_iff.mp refused)

end Overlap

end Segmentation
