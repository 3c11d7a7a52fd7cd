import Segmentation.Fragment
import Mathlib.Data.String.Basic

/-! Cutting a text where two texts were put together gives them back. -/
namespace Segmentation

namespace Text

theorem splitAt?_cons {n : Nat} {c : Char} (cs : List Char) (fits : c.utf8Size ≤ n) :
    splitAt? n (c :: cs) = (splitAt? (n - c.utf8Size) cs).map fun (a, b) => (c :: a, b) := by
  have positive := c.utf8Size_pos
  obtain ⟨n, rfl⟩ := Nat.exists_eq_succ_of_ne_zero (show n ≠ 0 by omega)
  rw [splitAt?, if_pos fits]

theorem splitAt?_append (cs ds : List Char) :
    splitAt? (String.utf8Len cs) (cs ++ ds) = some (cs, ds) := by
  induction cs with
  | nil => rw [String.utf8Len_nil, List.nil_append, splitAt?]
  | cons c cs ih =>
    rw [String.utf8Len_cons, List.cons_append, splitAt?_cons _ (Nat.le_add_left _ _),
      Nat.add_sub_cancel, ih]
    rfl

theorem utf8ByteSize_eq (s : String) : s.utf8ByteSize = String.utf8Len s.toList := by
  rw [← String.utf8ByteSize_ofList, String.ofList_toList]

theorem slice_append_left (s t : String) : slice (s ++ t) 0 s.utf8ByteSize = .ok s := by
  have within : ¬(s ++ t).utf8ByteSize < 0 + s.utf8ByteSize := by
    rw [String.utf8ByteSize_append]
    omega
  have cut : part? (s ++ t) 0 s.utf8ByteSize = some s := by
    rw [part?, splitAt?, utf8ByteSize_eq, String.toList_append]
    simp only [bind, Option.bind_some, splitAt?_append, pure, String.ofList_toList]
  rw [slice, if_neg within, cut]

theorem slice_append_right (s t : String) :
    slice (s ++ t) s.utf8ByteSize t.utf8ByteSize = .ok t := by
  have within : ¬(s ++ t).utf8ByteSize < s.utf8ByteSize + t.utf8ByteSize := by
    rw [String.utf8ByteSize_append]
    exact Nat.lt_irrefl _
  have rest : splitAt? (String.utf8Len t.toList) t.toList = some (t.toList, []) := by
    have whole := splitAt?_append t.toList []
    rwa [List.append_nil] at whole
  have cut : part? (s ++ t) s.utf8ByteSize t.utf8ByteSize = some t := by
    rw [part?, utf8ByteSize_eq s, utf8ByteSize_eq t, String.toList_append]
    simp only [bind, Option.bind_some, splitAt?_append, rest, pure, String.ofList_toList]
  rw [slice, if_neg within, cut]

end Text

namespace Fragment

variable {σ : Type} [Sequence σ]

theorem slice_append_left (s t : String) :
    (text (s ++ t) : Fragment σ).slice 0 (text s : Fragment σ).length = .ok (text s) := by
  simp only [slice, length, Text.slice_append_left, Functor.map, Except.map]

theorem slice_append_right (s t : String) : (text (s ++ t) : Fragment σ).slice s.utf8ByteSize
    ((text (s ++ t) : Fragment σ).length - s.utf8ByteSize) = .ok (text t) := by
  simp only [slice, length, String.utf8ByteSize_append, Nat.add_sub_cancel_left,
    Text.slice_append_right, Functor.map, Except.map]

end Fragment

end Segmentation
