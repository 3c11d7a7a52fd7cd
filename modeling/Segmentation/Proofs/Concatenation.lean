import Segmentation.Proofs.TextSlice
import Mathlib.Algebra.GroupWithZero.Nat

/-! Fragments that are put together in one piece, which texts can be and lists of the
caller's own.
The piece is as long as they are together, and it can be cut back to what it was before the
last of them. -/
namespace Segmentation

variable {σ α : Type} [Sequence σ]

/-- Sequences of the caller's own, some of which are lists: putting two of them together
concatenates the lists, and a cut within the length takes a part of the list. -/
structure Sequence.Lists (listed : σ → Prop) (view : σ → List α) : Prop where
  ext : ∀ c d, listed c → listed d → view c = view d → c = d
  sameKind : ∀ c d, listed c → listed d → Sequence.sameKind c d = true
  length : ∀ c, listed c → Sequence.length c = (view c).length
  append : ∀ c d, listed c → listed d →
    ∃ e, Sequence.append c d = .ok e ∧ listed e ∧ view e = view c ++ view d
  slice : ∀ c offset length, listed c → offset + length ≤ (view c).length →
    ∃ d, Sequence.slice c offset length = .ok d ∧ listed d ∧
      view d = ((view c).drop offset).take length

namespace Fragment

def IsText (f : Fragment σ) : Prop := ∃ s, f = .text s

def IsList (listed : σ → Prop) (f : Fragment σ) : Prop := ∃ c, f = .custom c ∧ listed c

/-- The fragments are texts, and the whole is what they come to one after the other. -/
def JoinsTexts (whole : Fragment σ) (fragments : List (Fragment σ)) : Prop :=
  ∃ texts : List String, fragments = texts.map .text ∧ whole = .text (String.join texts)

/-- The fragments are lists of the caller's, and the whole is their concatenation. -/
def JoinsLists (listed : σ → Prop) (view : σ → List α) (whole : Fragment σ)
    (fragments : List (Fragment σ)) : Prop :=
  ∃ (c : σ) (parts : List σ), whole = .custom c ∧ fragments = parts.map .custom ∧ listed c ∧
    (∀ part ∈ parts, listed part) ∧ view c = parts.flatMap view

/-- Fragments of one kind can be put together to one piece, and the last of them can be cut
off again. -/
structure Assembles (kind : Fragment σ → Prop)
    (joins : Fragment σ → List (Fragment σ) → Prop) : Prop where
  single : ∀ f, kind f → joins f [f]
  append : ∀ whole fragments f, joins whole fragments → kind f →
    ∃ input, whole.append f = .ok input ∧ joins input (fragments ++ [f]) ∧
      input.slice 0 whole.length = .ok whole
  length : ∀ whole fragments, joins whole fragments →
    whole.length = (fragments.map Fragment.length).sum

theorem length_join (texts : List String) : (text (String.join texts) : Fragment σ).length =
    (texts.map fun s => (text s : Fragment σ).length).sum := by
  induction texts with
  | nil => rfl
  | cons s texts ih =>
    rw [List.map_cons, List.sum_cons, ← ih, String.join_cons]
    exact String.utf8ByteSize_append

theorem assembles_texts : Assembles (σ := σ) IsText JoinsTexts where
  single := by
    rintro f ⟨s, rfl⟩
    exact ⟨[s], rfl, by simp⟩
  append := by
    rintro whole fragments f ⟨texts, rfl, rfl⟩ ⟨s, rfl⟩
    refine ⟨.text (String.join texts ++ s), rfl, ⟨texts ++ [s], by simp, ?_⟩, ?_⟩
    · simp [String.join_append]
    · exact slice_append_left _ _
  length := by
    rintro whole fragments ⟨texts, rfl, rfl⟩
    rw [List.map_map]
    exact length_join texts

variable {listed : σ → Prop} {view : σ → List α}

/-- What has been put together can be cut back to the first of two lists. -/
theorem slice_of_append (lists : Sequence.Lists listed view) {c d e : σ} (first : listed c)
    (second : listed d) (appended : Sequence.append c d = .ok e) :
    Sequence.slice e 0 (Sequence.length c) = .ok c := by
  obtain ⟨e', appended', whole, same⟩ := lists.append c d first second
  obtain rfl := Except.ok.inj (appended.symm.trans appended')
  have within : 0 + Sequence.length c ≤ (view e).length := by
    rw [same, List.length_append, lists.length c first]
    omega
  obtain ⟨b, cut, inside, front⟩ := lists.slice e 0 _ whole within
  rw [same, lists.length c first, List.drop_zero, List.take_left] at front
  rw [cut, lists.ext b c inside first front]

theorem assembles_lists (lists : Sequence.Lists listed view) :
    Assembles (IsList listed) (JoinsLists listed view) where
  single := by
    rintro f ⟨c, rfl, first⟩
    exact ⟨c, [c], rfl, rfl, first, by simpa using first, by simp⟩
  append := by
    rintro whole fragments f ⟨c, parts, rfl, rfl, first, all, same⟩ ⟨d, rfl, second⟩
    obtain ⟨e, appended, both, concatenated⟩ := lists.append c d first second
    refine ⟨.custom e, ?_, ⟨e, parts ++ [d], rfl, by simp, both, ?_, ?_⟩, ?_⟩
    · rw [append, if_pos (lists.sameKind c d first second), appended]
      rfl
    · simpa [or_imp, forall_and] using ⟨all, second⟩
    · simp [concatenated, same]
    · rw [length, slice, slice_of_append lists first second appended]
      rfl
  length := by
    rintro whole fragments ⟨c, parts, rfl, rfl, first, all, same⟩
    rw [length, lists.length c first, same, List.length_flatMap, List.map_map]
    congr 1
    apply List.map_congr_left
    intro part member
    exact (lists.length part (all part member)).symm

end Fragment

end Segmentation
