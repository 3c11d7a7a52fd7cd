import Mathlib.Data.List.Sections
import Mathlib.Data.Multiset.Bind

/-! The ways to cut a list into segments, and to choose something for each segment.
Cuts are listed from the front. That they can as well be listed by their last segments
follows from what the list has in it: each way once. -/
namespace Segmentation

variable {α β γ : Type} {x : α} {xs : List α} {c d : List (List α)}

/-- A cut with one more element in front, which is a segment of its own or joins the
first one. -/
def fronted (x : α) : List (List α) → List (List (List α))
  | [] => [[[x]]]
  | s :: ss => [[x] :: s :: ss, (x :: s) :: ss]

/-- The ways to cut a list into segments that are not empty. -/
def cuts : List α → List (List (List α))
  | [] => [[]]
  | x :: xs => (cuts xs).flatMap (fronted x)

/-- What is left of a cut without the first element. -/
def behind : List (List α) → List (List α)
  | (_ :: y :: s) :: ss => (y :: s) :: ss
  | [_] :: ss => ss
  | _ => []

theorem mem_fronted_iff (whole : [] ∉ d) : c ∈ fronted x d ↔
    c.flatten = x :: d.flatten ∧ [] ∉ c ∧ behind c = d := by
  constructor
  · intro member
    match d with
    | [] =>
      obtain rfl := List.mem_singleton.mp member
      simp [behind]
    | [] :: _ => exact absurd List.mem_cons_self whole
    | (y :: s) :: ss =>
      simp only [fronted, List.mem_cons, List.not_mem_nil, or_false] at member
      rcases member with rfl | rfl
      · simpa [behind] using whole
      · simpa [behind] using whole
  · rintro ⟨joined, whole', rfl⟩
    match c with
    | [] => simp at joined
    | [] :: _ => exact absurd List.mem_cons_self whole'
    | [y] :: [] => simpa [behind, fronted] using joined
    | [y] :: s :: ss =>
      obtain ⟨rfl, _⟩ := List.cons.inj joined
      simp [behind, fronted]
    | (y :: z :: s) :: ss =>
      obtain ⟨rfl, _⟩ := List.cons.inj joined
      simp [behind, fronted]

theorem behind_spec (joined : c.flatten = x :: xs) (whole : [] ∉ c) :
    (behind c).flatten = xs ∧ [] ∉ behind c := by
  match c with
  | [] => simp at joined
  | [] :: _ => exact absurd List.mem_cons_self whole
  | [y] :: ss =>
    exact ⟨(List.cons.inj joined).2, fun member => whole (List.mem_cons_of_mem _ member)⟩
  | (y :: z :: s) :: ss =>
    refine ⟨(List.cons.inj joined).2, ?_⟩
    simpa [behind] using whole

/-- What is listed are the ways to cut the list. -/
theorem mem_cuts_iff : c ∈ cuts xs ↔ c.flatten = xs ∧ [] ∉ c := by
  induction xs generalizing c with
  | nil =>
    rw [cuts, List.mem_singleton, List.flatten_eq_nil_iff]
    constructor
    · rintro rfl
      simp
    · rintro ⟨empty, whole⟩
      refine List.eq_nil_iff_forall_not_mem.mpr ?_
      intro s member
      exact whole (empty s member ▸ member)
  | cons x xs ih =>
    rw [cuts, List.mem_flatMap]
    constructor
    · rintro ⟨d, known, member⟩
      obtain ⟨rfl, whole⟩ := ih.mp known
      obtain ⟨joined, whole', _⟩ := (mem_fronted_iff whole).mp member
      exact ⟨joined, whole'⟩
    · rintro ⟨joined, whole⟩
      obtain ⟨rfl, whole'⟩ := behind_spec joined whole
      exact ⟨behind c, ih.mpr ⟨rfl, whole'⟩, (mem_fronted_iff whole').mpr ⟨joined, whole, rfl⟩⟩

/-- Each of them is listed once. -/
theorem nodup_cuts (xs : List α) : (cuts xs).Nodup := by
  induction xs with
  | nil => exact List.nodup_singleton _
  | cons x xs ih =>
    rw [cuts, List.nodup_flatMap]
    constructor
    · rintro (_ | ⟨s, ss⟩) known
      · exact List.nodup_singleton _
      · have nonempty : s ≠ [] := fun empty =>
          (mem_cuts_iff.mp known).2 (empty ▸ List.mem_cons_self)
        simp [fronted, nonempty.symm]
    · refine ih.imp_of_mem ?_
      intro d d' known known' different c member member'
      obtain ⟨_, _, same⟩ := (mem_fronted_iff (mem_cuts_iff.mp known).2).mp member
      obtain ⟨_, _, same'⟩ := (mem_fronted_iff (mem_cuts_iff.mp known').2).mp member'
      exact different (same.symm.trans same')

/-- The ways to cut a list, taken together by where the last segment begins. -/
def cutsByLast (xs : List α) : List (List (List α)) :=
  (List.range xs.length).flatMap fun j => (cuts (xs.take j)).map (· ++ [xs.drop j])

theorem mem_cutsByLast_iff (nonempty : xs ≠ []) :
    c ∈ cutsByLast xs ↔ c.flatten = xs ∧ [] ∉ c := by
  rw [cutsByLast, List.mem_flatMap]
  constructor
  · rintro ⟨j, inside, listed⟩
    obtain ⟨d, known, rfl⟩ := List.mem_map.mp listed
    obtain ⟨joined, whole⟩ := mem_cuts_iff.mp known
    refine ⟨?_, ?_⟩
    · rw [List.flatten_concat, joined, List.take_append_drop]
    · rw [List.mem_append, List.mem_singleton, not_or]
      refine ⟨whole, ?_⟩
      intro empty
      have length := congrArg List.length empty
      rw [List.length_drop, List.length_nil] at length
      have := List.mem_range.mp inside
      omega
  · rintro ⟨rfl, whole⟩
    obtain rfl | ⟨d, s, rfl⟩ := List.eq_nil_or_concat c
    · contradiction
    rw [List.concat_eq_append] at whole ⊢
    simp only [List.mem_append, List.mem_singleton, not_or] at whole
    rw [List.flatten_concat]
    refine ⟨d.flatten.length, ?_, ?_⟩
    · rw [List.mem_range, List.length_append]
      have := List.length_pos_iff.mpr (Ne.symm whole.2)
      omega
    · rw [List.take_left, List.drop_left]
      exact List.mem_map_of_mem (mem_cuts_iff.mpr ⟨rfl, whole.1⟩)

theorem nodup_cutsByLast (xs : List α) : (cutsByLast xs).Nodup := by
  rw [cutsByLast, List.nodup_flatMap]
  constructor
  · intro j _
    exact (nodup_cuts _).map (List.append_left_injective _)
  · refine List.nodup_range.imp_of_mem ?_
    intro i j inside inside' different c listed listed'
    obtain ⟨d, _, rfl⟩ := List.mem_map.mp listed
    obtain ⟨d', _, same⟩ := List.mem_map.mp listed'
    have last := (List.append_inj' same rfl).2
    have length := congrArg List.length (List.cons.inj last).1
    rw [List.length_drop, List.length_drop] at length
    have := List.mem_range.mp inside
    have := List.mem_range.mp inside'
    omega

theorem cuts_perm_byLast (nonempty : xs ≠ []) : (cuts xs).Perm (cutsByLast xs) := by
  rw [List.perm_ext_iff_of_nodup (nodup_cuts xs) (nodup_cutsByLast xs)]
  intro c
  rw [mem_cuts_iff, mem_cutsByLast_iff nonempty]

/-- Choosing from several lists is choosing from the last of them after the others. -/
theorem sections_concat (lists : List (List α)) (last : List α) :
    (lists ++ [last]).sections = last.flatMap fun x => lists.sections.map (· ++ [x]) := by
  induction lists with
  | nil => simp [List.sections, List.map_eq_flatMap]
  | cons list lists ih =>
    rw [List.cons_append, List.sections, ih, List.flatMap_assoc]
    simp only [List.sections, List.flatMap_map, List.map_flatMap, List.map_map]
    rfl

/-- Two choices that do not depend on each other can be made in either order. -/
theorem flatMap_perm_comm (xs : List α) (ys : List β) (f : α → β → List γ) :
    (xs.flatMap fun x => ys.flatMap fun y => f x y).Perm
      (ys.flatMap fun y => xs.flatMap fun x => f x y) := by
  have same := Multiset.bind_bind (xs : Multiset α) (ys : Multiset β)
    (f := fun x y => (f x y : Multiset γ))
  simpa only [Multiset.coe_bind, Multiset.coe_eq_coe] using same

end Segmentation
