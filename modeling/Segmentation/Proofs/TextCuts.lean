import Segmentation.Proofs.Viterbi
import Segmentation.Proofs.TextSlice

/-! Which parts of a text can be cut out.
A text has a part exactly if it is made of three texts, the part being the one in the middle.
What is refused, what comes out, and how a cut of a cut or of a join comes out follows from this
alone. That an offset falls between two characters is read off the byte that stands there. -/
namespace Segmentation

namespace Text

/-- The byte at the offset is not the first one of a character. -/
def Inside (s : String) (offset : Nat) : Prop :=
  ∃ within : String.Pos.Raw.mk offset < s.rawEndPos,
    ¬ (s.getUTF8Byte ⟨offset⟩ within).IsUTF8FirstByte

instance (s : String) (offset : Nat) : Decidable (Inside s offset) :=
  inferInstanceAs (Decidable (∃ _ : _ < _, ¬ _))

/-- The part begins after so many bytes of the whole. -/
def HasPart (s : String) (offset : Nat) (t : String) : Prop :=
  ∃ front back, s = front ++ t ++ back ∧ front.utf8ByteSize = offset

variable {s t u : String} {offset length : Nat}

theorem splitAt?_eq_some_iff {n : Nat} {cs front back : List Char} :
    splitAt? n cs = some (front, back) ↔ cs = front ++ back ∧ String.utf8Len front = n := by
  constructor
  · intro split
    induction cs generalizing n front with
    | nil =>
      cases n with
      | zero => simp_all [splitAt?]
      | succ n => simp [splitAt?] at split
    | cons c cs ih =>
      cases n with
      | zero => simp_all [splitAt?]
      | succ n =>
        rw [splitAt?] at split
        split at split
        next fits =>
          obtain ⟨⟨rest, back⟩, split, same⟩ := Option.map_eq_some_iff.mp split
          cases same
          obtain ⟨rfl, length⟩ := ih split
          refine ⟨rfl, ?_⟩
          rw [String.utf8Len_cons, length]
          omega
        next => contradiction
  · rintro ⟨rfl, rfl⟩
    exact splitAt?_append front back

theorem part?_eq_some_iff :
    part? s offset length = some t ↔ HasPart s offset t ∧ t.utf8ByteSize = length := by
  simp only [part?, bind, pure, Option.bind_eq_some_iff, Prod.exists, splitAt?_eq_some_iff,
    Option.some.injEq, HasPart]
  constructor
  · rintro ⟨front, rest, ⟨whole, rfl⟩, cut, back, ⟨rfl, rfl⟩, rfl⟩
    refine ⟨⟨String.ofList front, String.ofList back, ?_, ?_⟩, ?_⟩
    · rw [← s.ofList_toList, whole]
      simp [String.append_assoc]
    · exact String.utf8ByteSize_ofList front
    · exact String.utf8ByteSize_ofList cut
  · rintro ⟨⟨front, back, rfl, rfl⟩, rfl⟩
    refine ⟨front.toList, t.toList ++ back.toList, ⟨?_, (utf8ByteSize_eq front).symm⟩, t.toList,
      back.toList, ⟨rfl, (utf8ByteSize_eq t).symm⟩, String.ofList_toList⟩
    simp

theorem HasPart.within (part : HasPart s offset t) :
    offset + t.utf8ByteSize ≤ s.utf8ByteSize := by
  obtain ⟨front, back, rfl, rfl⟩ := part
  simp only [String.utf8ByteSize_append]
  omega

/-- A cut gives the part with these bytes. -/
theorem slice_ok_iff :
    slice s offset length = .ok t ↔ HasPart s offset t ∧ t.utf8ByteSize = length := by
  rw [← part?_eq_some_iff, slice]
  split
  next beyond =>
    have none : part? s offset length ≠ some t := by
      intro found
      obtain ⟨part, size⟩ := part?_eq_some_iff.mp found
      have := part.within
      omega
    simp [none]
  next => cases part? s offset length <;> simp

theorem slice_error_iff {failure : Failure} : slice s offset length = .error failure ↔
    (s.utf8ByteSize < offset + length ∧
      failure = .outOfRange (min (offset + length) maxOffset) s.utf8ByteSize) ∨
    (offset + length ≤ s.utf8ByteSize ∧ failure = .invalid (.offBoundary offset (offset + length)) ∧
      ∀ t, ¬ (HasPart s offset t ∧ t.utf8ByteSize = length)) := by
  simp only [← part?_eq_some_iff]
  rw [slice]
  split
  next beyond => simp [beyond, eq_comm, Nat.not_le.mpr beyond]
  next within =>
    have within := Nat.not_lt.mp within
    cases part? s offset length <;> simp [within, Nat.not_lt.mpr within, eq_comm]

/-- What is longer of two beginnings of a text goes on with what comes after the other. -/
theorem append_split {front back front' back' : String} (same : front ++ back = front' ++ back')
    (shorter : front.utf8ByteSize ≤ front'.utf8ByteSize) :
    ∃ middle, front' = front ++ middle ∧ back = middle ++ back' := by
  have lists := congrArg String.toList same
  simp only [String.toList_append] at lists
  obtain ⟨middle, first, second⟩ | ⟨middle, first, second⟩ := List.append_eq_append_iff.mp lists
  · exact ⟨String.ofList middle, by simp [← String.toList_inj, first],
      by simp [← String.toList_inj, second]⟩
  · -- what would be longer is as long, so that nothing stands in the middle
    have empty : middle = [] := by
      rw [utf8ByteSize_eq, utf8ByteSize_eq, first, String.utf8Len_append] at shorter
      cases middle with
      | nil => rfl
      | cons c middle =>
        have := c.utf8Size_pos
        simp only [String.utf8Len_cons] at shorter
        omega
    subst empty
    exact ⟨"", by simp_all [← String.toList_inj], by simp_all [← String.toList_inj]⟩

theorem not_inside_iff (within : offset ≤ s.utf8ByteSize) :
    ¬ Inside s offset ↔ ∃ front back, s = front ++ back ∧ front.utf8ByteSize = offset := by
  have valid : ¬ Inside s offset ↔ (String.Pos.Raw.mk offset).IsValid s := by
    rw [String.Pos.Raw.isValid_iff_isUTF8FirstByte, Inside]
    by_cases last : offset = s.utf8ByteSize
    · simp [String.Pos.Raw.ext_iff, String.Pos.Raw.lt_iff, last]
    · have before : String.Pos.Raw.mk offset < s.rawEndPos := by
        rw [String.Pos.Raw.lt_iff]
        exact Nat.lt_of_le_of_ne within last
      simp [String.Pos.Raw.ext_iff, last, before]
  rw [valid, String.Pos.Raw.isValid_iff_exists_append]
  simp [String.Pos.Raw.ext_iff, eq_comm]

theorem exists_part_iff (within : offset + length ≤ s.utf8ByteSize) :
    (∃ t, HasPart s offset t ∧ t.utf8ByteSize = length) ↔
      ¬ Inside s offset ∧ ¬ Inside s (offset + length) := by
  rw [not_inside_iff (Nat.le_of_add_right_le within), not_inside_iff within]
  constructor
  · rintro ⟨t, ⟨front, back, rfl, rfl⟩, rfl⟩
    exact ⟨⟨front, t ++ back, String.append_assoc, rfl⟩,
      ⟨front ++ t, back, rfl, String.utf8ByteSize_append⟩⟩
  · rintro ⟨⟨front, rest, rfl, rfl⟩, ⟨longer, back, same, size⟩⟩
    obtain ⟨t, rfl, rfl⟩ := append_split same (by omega)
    rw [String.utf8ByteSize_append] at size
    exact ⟨t, ⟨front, back, String.append_assoc.symm, rfl⟩, by omega⟩

/-- The bytes of a part are those of the whole in its place. -/
theorem HasPart.bytes (part : HasPart s offset t) :
    t.toByteArray = s.toByteArray.extract offset (offset + t.utf8ByteSize) := by
  obtain ⟨front, back, rfl, rfl⟩ := part
  have cut := ByteArray.extract_append_size_add (a := front.toByteArray)
    (b := t.toByteArray ++ back.toByteArray) (i := 0) (j := t.toByteArray.size)
  rw [ByteArray.extract_append_size_left, ByteArray.extract_zero_size] at cut
  rw [String.append_assoc, String.toByteArray_append, String.toByteArray_append]
  exact cut.symm

/-- A part of a part is a part of the whole that lies within the other. -/
theorem HasPart.part_iff (part : HasPart s offset t) {offset' : Nat}
    (within : offset' + u.utf8ByteSize ≤ t.utf8ByteSize) :
    HasPart t offset' u ↔ HasPart s (offset + offset') u := by
  constructor
  · obtain ⟨front, back, rfl, rfl⟩ := part
    rintro ⟨front', back', rfl, rfl⟩
    exact ⟨front ++ front', back' ++ back, by simp [String.append_assoc], by simp⟩
  · obtain ⟨front, back, rfl, rfl⟩ := part
    rintro ⟨longer, rest, same, size⟩
    rw [String.append_assoc, String.append_assoc] at same
    obtain ⟨front', rfl, inner⟩ := append_split same (by omega)
    rw [String.utf8ByteSize_append] at size
    rw [← String.append_assoc] at inner
    obtain ⟨back', rfl, _⟩ := append_split inner.symm (by
      rw [String.utf8ByteSize_append]
      omega)
    exact ⟨front', back', rfl, by omega⟩

/-- Parts that stand side by side are one part together. -/
theorem HasPart.append (first : HasPart s offset t)
    (second : HasPart s (offset + t.utf8ByteSize) u) : HasPart s offset (t ++ u) := by
  obtain ⟨front, back, rfl, rfl⟩ := first
  obtain ⟨longer, back', same, size⟩ := second
  obtain ⟨middle, rfl, rfl⟩ := append_split (same.trans String.append_assoc) (by simp [size])
  obtain rfl : middle = "" := by
    rw [← String.utf8ByteSize_eq_zero_iff]
    simp only [String.utf8ByteSize_append] at size
    omega
  exact ⟨front, back', by simp [String.append_assoc], rfl⟩

/-- A part that is as long as the whole is the whole. -/
theorem HasPart.eq_of_size (part : HasPart s offset t) (same : t.utf8ByteSize = s.utf8ByteSize) :
    t = s := by
  obtain ⟨front, back, rfl, rfl⟩ := part
  simp only [String.utf8ByteSize_append] at same
  obtain rfl : front = "" := String.utf8ByteSize_eq_zero_iff.mp (by omega)
  obtain rfl : back = "" := String.utf8ByteSize_eq_zero_iff.mp (by omega)
  simp

end Text

namespace Fragment

variable {σ : Type} [Sequence σ] {s : String} {offset length : Nat}

theorem slice_text_ok_iff {f : Fragment σ} : (text s : Fragment σ).slice offset length = .ok f ↔
    ∃ t, Text.HasPart s offset t ∧ t.utf8ByteSize = length ∧ text t = f := by
  simp only [slice, ← and_assoc, ← Text.slice_ok_iff]
  cases Text.slice s offset length <;> simp [Functor.map, Except.map]

theorem slice_text_error_iff {failure : Failure} :
    (text s : Fragment σ).slice offset length = .error failure ↔
      Text.slice s offset length = .error failure := by
  rw [slice]
  cases Text.slice s offset length <;> simp [Functor.map, Except.map]

/-- A cut of a text that goes beyond its end is refused as out of range, with the offset that it
would end at. Any other is refused as invalid exactly if it begins or ends inside a character, and
else gives the text of the bytes there. Cutting what has been cut out is cutting the whole. Texts
that are put together can be cut apart again, and a text that can be cut in two can be put
together from the two. -/
theorem text_cuts_exact (s : String) :
    (∀ offset length,
      ((text s : Fragment σ).slice offset length =
          .error (.outOfRange (min (offset + length) maxOffset) s.utf8ByteSize) ↔
        s.utf8ByteSize < offset + length) ∧
      (offset + length ≤ s.utf8ByteSize →
        ((text s : Fragment σ).slice offset length =
            .error (.invalid (.offBoundary offset (offset + length))) ↔
          Text.Inside s offset ∨ Text.Inside s (offset + length)) ∧
        (¬ Text.Inside s offset → ¬ Text.Inside s (offset + length) →
          ∃ t : String, (text s : Fragment σ).slice offset length = .ok (text t) ∧
            t.toByteArray = s.toByteArray.extract offset (offset + length)))) ∧
    (∀ offset length (f : Fragment σ), (text s : Fragment σ).slice offset length = .ok f →
      ∀ offset' length', offset' + length' ≤ length → ∀ g : Fragment σ,
        f.slice offset' length' = .ok g ↔
          (text s : Fragment σ).slice (offset + offset') length' = .ok g) ∧
    (∀ t : String, ∃ whole, (text s : Fragment σ).append (text t) = .ok whole ∧
      whole.slice 0 (text s : Fragment σ).length = .ok (text s) ∧
      whole.slice (text s : Fragment σ).length (text t : Fragment σ).length = .ok (text t)) ∧
    ∀ k (first second : Fragment σ), (text s : Fragment σ).slice 0 k = .ok first →
      (text s : Fragment σ).slice k ((text s : Fragment σ).length - k) = .ok second →
        first.append second = .ok (text s) := by
  refine ⟨?refused, ?nested, ?joined, ?halves⟩
  case refused =>
    intro offset length
    simp only [slice_text_error_iff, Text.slice_error_iff]
    refine ⟨by simp, ?_⟩
    intro within
    have parts := Text.exists_part_iff within
    constructor
    · simp only [within, Nat.not_lt.mpr within, false_and, false_or, true_and]
      rw [← not_exists, parts, not_and_or, not_not, not_not]
    · intro first last
      obtain ⟨t, part, size⟩ := parts.mpr ⟨first, last⟩
      exact ⟨t, slice_text_ok_iff.mpr ⟨t, part, size, rfl⟩, size ▸ part.bytes⟩
  case nested =>
    intro offset length f cut offset' length' within g
    obtain ⟨t, part, rfl, rfl⟩ := slice_text_ok_iff.mp cut
    simp only [slice_text_ok_iff]
    refine exists_congr fun u => ?_
    constructor
    · rintro ⟨inner, rfl, same⟩
      exact ⟨(part.part_iff within).mp inner, rfl, same⟩
    · rintro ⟨inner, rfl, same⟩
      exact ⟨(part.part_iff within).mpr inner, rfl, same⟩
  case joined =>
    intro t
    refine ⟨text (s ++ t), rfl, slice_append_left s t, ?_⟩
    exact slice_text_ok_iff.mpr ⟨t, ⟨s, "", by simp, rfl⟩, rfl, rfl⟩
  case halves =>
    intro k first second cut cut'
    obtain ⟨t, part, rfl, rfl⟩ := slice_text_ok_iff.mp cut
    obtain ⟨u, part', rest, rfl⟩ := slice_text_ok_iff.mp cut'
    have within := part.within
    have both := part.append (Nat.zero_add t.utf8ByteSize ▸ part')
    refine congrArg (Except.ok ∘ text) (both.eq_of_size ?_)
    rw [String.utf8ByteSize_append, rest, length]
    omega

/-- A letter of two bytes, one of one byte and a sign of three: the first cannot be cut in its
middle, the last two can be cut out and from each other, and the last can be cut off and put
back. -/
theorem text_cuts_exact_euro :
    Text.Inside "äb€" 1 ∧ ¬ Text.Inside "äb€" 2 ∧ ¬ Text.Inside "äb€" 6 ∧
    (text "äb€" : Fragment Empty).slice 1 2 = .error (.invalid (.offBoundary 1 3)) ∧
    (text "äb€" : Fragment Empty).slice 5 maxOffset = .error (.outOfRange maxOffset 6) ∧
    (∃ t : String, (text "äb€" : Fragment Empty).slice 2 4 = .ok (text t) ∧
      t.toByteArray = "äb€".toByteArray.extract 2 6) ∧
    ((text "b€" : Fragment Empty).slice 1 3 = .ok (text "€") ↔
      (text "äb€" : Fragment Empty).slice 3 3 = .ok (text "€")) ∧
    (text "äb" : Fragment Empty).append (text "€") = .ok (text "äb€") := by
  obtain ⟨refused, nested, _, halves⟩ := text_cuts_exact (σ := Empty) "äb€"
  have inside : Text.Inside "äb€" 1 := by decide
  have first : ¬ Text.Inside "äb€" 2 := by decide
  have last : ¬ Text.Inside "äb€" 6 := by decide
  refine ⟨inside, first, last, ?_, ?_, ?_, ?_, ?_⟩
  · exact ((refused 1 2).2 (by decide)).1.mpr (.inl inside)
  · exact (refused 5 maxOffset).1.mpr (by decide)
  · exact ((refused 2 4).2 (by decide)).2 first last
  · exact nested 2 4 (text "b€") rfl 1 3 (by decide) (text "€")
  · exact halves 3 (text "äb") (text "€") rfl rfl

end Fragment

end Segmentation
