import Segmentation.Pattern
import Mathlib.Data.List.Infix

/-! What a pattern shares out.
The lists of what can be left stand for a choice at each element. A part at the end of
a path that fits the pattern still fits when its first nodes are left off. -/
namespace Segmentation

variable {σ ν : Type}

theorem mem_suffixes {α : Type} {xs rest : List α} : rest ∈ suffixes xs ↔ rest <:+ xs := by
  induction xs with
  | nil => simp [suffixes]
  | cons x xs ih => rw [suffixes, List.mem_cons, List.suffix_cons_iff, ih]

/-- Lists of which each is a suffix of all before it. -/
def Nested {α : Type} (rests : List (List α)) : Prop :=
  rests.Pairwise fun xs ys => ys <:+ xs

theorem nested_suffixes {α : Type} (xs : List α) : Nested (suffixes xs) := by
  induction xs with
  | nil => exact List.pairwise_singleton _ _
  | cons x xs ih =>
    refine .cons ?_ ih
    intro ys member
    exact (mem_suffixes.mp member).trans (List.suffix_cons x xs)

theorem drop_suffix_drop {α : Type} {xs ys : List α} (suffix : ys <:+ xs) (count : Nat) :
    ys.drop count <:+ xs.drop count := by
  obtain ⟨front, rfl⟩ := suffix
  have same : ys.drop count = ((front ++ ys).drop count).drop front.length := by
    rw [List.drop_drop, Nat.add_comm, ← List.drop_drop, List.drop_left]
  rw [same]
  exact List.drop_suffix _ _

variable [BEq σ] [BEq ν]

/-- An element takes a share from the front of a list and leaves the rest. -/
inductive Element.Takes : Element σ ν → List (Node σ ν) → List (Node σ ν) → Prop where
  | node : (n == x) = true → Takes (.node n) (x :: rest) rest
  | exactly : count ≤ xs.length → Takes (.exactly count) xs (xs.drop count)
  | any : rest <:+ xs → Takes .any xs rest

/-- The elements share out a whole list. -/
def Shares : List (Element σ ν) → List (Node σ ν) → Prop
  | [], xs => xs = []
  | e :: es, xs => ∃ rest, e.Takes xs rest ∧ Shares es rest

/-- The elements share out a whole list and at least one node more. -/
def SharesBeyond : List (Element σ ν) → List (Node σ ν) → Prop
  | [], _ => False
  | e :: es, xs => e.outruns xs = true ∨ ∃ rest, e.Takes xs rest ∧ SharesBeyond es rest

variable {e : Element σ ν} {es : List (Element σ ν)} {rests : List (List (Node σ ν))}
  {xs rest : List (Node σ ν)} {x : Node σ ν}

theorem Element.mem_take (nested : Nested rests) :
    rest ∈ e.take rests ↔ ∃ xs ∈ rests, e.Takes xs rest := by
  cases e with
  | node n =>
    rw [take, List.mem_filterMap]
    constructor
    · rintro ⟨_ | ⟨x, xs⟩, member, taken⟩
      · contradiction
      · obtain ⟨same, ⟨⟩⟩ := Option.ite_none_right_eq_some.mp taken
        exact ⟨_, member, .node same⟩
    · rintro ⟨_, member, taken⟩
      cases taken with
      | node same => exact ⟨_, member, if_pos same⟩
  | exactly count =>
    rw [take, List.mem_filterMap]
    constructor
    · rintro ⟨xs, member, taken⟩
      obtain ⟨enough, ⟨⟩⟩ := Option.ite_none_right_eq_some.mp taken
      exact ⟨xs, member, .exactly enough⟩
    · rintro ⟨xs, member, taken⟩
      cases taken with
      | exactly enough => exact ⟨xs, member, if_pos enough⟩
  | any =>
    cases nested with
    | nil => simp [take]
    | @cons longest others shorter _ =>
      rw [take, mem_suffixes]
      constructor
      · intro suffix
        exact ⟨longest, List.mem_cons_self, .any suffix⟩
      · rintro ⟨xs, member, taken⟩
        cases taken with
        | any suffix =>
          rcases List.mem_cons.mp member with rfl | member
          · exact suffix
          · exact suffix.trans (shorter xs member)

theorem Element.nested_take (e : Element σ ν) (nested : Nested rests) : Nested (e.take rests) := by
  cases e with
  | node n =>
    refine List.Pairwise.filterMap _ ?_ nested
    intro xs ys suffix zs first zs' second
    cases xs with
    | nil => contradiction
    | cons x xs =>
      cases ys with
      | nil => contradiction
      | cons y ys =>
        obtain ⟨_, ⟨⟩⟩ := Option.ite_none_right_eq_some.mp first
        obtain ⟨_, ⟨⟩⟩ := Option.ite_none_right_eq_some.mp second
        rcases List.suffix_cons_iff.mp suffix with same | suffix
        · cases same
          exact List.suffix_rfl
        · exact (List.suffix_cons y _).trans suffix
  | exactly count =>
    refine List.Pairwise.filterMap _ ?_ nested
    intro xs ys suffix zs first zs' second
    obtain ⟨_, ⟨⟩⟩ := Option.ite_none_right_eq_some.mp first
    obtain ⟨_, ⟨⟩⟩ := Option.ite_none_right_eq_some.mp second
    exact drop_suffix_drop suffix count
  | any =>
    cases rests with
    | nil => exact .nil
    | cons longest others => exact nested_suffixes longest

namespace Pattern

theorem takeAll_iff (nested : Nested rests) :
    takeAll es rests = true ↔ ∃ xs ∈ rests, Shares es xs := by
  induction es generalizing rests with
  | nil => simp [takeAll, Shares, List.any_eq_true]
  | cons e es ih =>
    rw [takeAll, ih (e.nested_take nested)]
    constructor
    · rintro ⟨rest, member, shares⟩
      obtain ⟨xs, inside, takes⟩ := (Element.mem_take nested).mp member
      exact ⟨xs, inside, rest, takes, shares⟩
    · rintro ⟨xs, inside, rest, takes, shares⟩
      exact ⟨rest, (Element.mem_take nested).mpr ⟨xs, inside, takes⟩, shares⟩

theorem takeBeyond_iff (nested : Nested rests) :
    takeBeyond es rests = true ↔ ∃ xs ∈ rests, SharesBeyond es xs := by
  induction es generalizing rests with
  | nil => simp [takeBeyond, SharesBeyond]
  | cons e es ih =>
    rw [takeBeyond, Bool.or_eq_true, List.any_eq_true, ih (e.nested_take nested)]
    constructor
    · rintro (⟨xs, inside, outruns⟩ | ⟨rest, member, shares⟩)
      · exact ⟨xs, inside, .inl outruns⟩
      · obtain ⟨xs, inside, takes⟩ := (Element.mem_take nested).mp member
        exact ⟨xs, inside, .inr ⟨rest, takes, shares⟩⟩
    · rintro ⟨xs, inside, outruns | ⟨rest, takes, shares⟩⟩
      · exact .inl ⟨xs, inside, outruns⟩
      · exact .inr ⟨rest, (Element.mem_take nested).mpr ⟨xs, inside, takes⟩, shares⟩

end Pattern

omit [BEq σ] [BEq ν] in
theorem Element.outruns_of_concat (outruns : e.outruns (xs ++ [x]) = true) :
    e.outruns xs = true := by
  cases e with
  | node n => simp [Element.outruns] at outruns
  | exactly count =>
    simp only [Element.outruns, List.length_append, List.length_singleton,
      decide_eq_true_eq] at outruns ⊢
    omega
  | any => rfl

/-- A share that ends in a longer list ends in the shorter one or behind it. -/
theorem Element.Takes.of_concat (takes : e.Takes (xs ++ [x]) rest) :
    e.outruns xs = true ∨ ∃ rest', rest = rest' ++ [x] ∧ e.Takes xs rest' := by
  cases e with
  | node n =>
    cases xs with
    | nil => exact .inl rfl
    | cons y ys =>
      cases takes with
      | node same => exact .inr ⟨ys, rfl, .node same⟩
  | exactly count =>
    cases takes with
    | exactly enough =>
      rw [List.length_append, List.length_singleton] at enough
      by_cases fits : count ≤ xs.length
      · exact .inr ⟨xs.drop count, List.drop_append_of_le_length fits, .exactly fits⟩
      · left
        simp only [Element.outruns, decide_eq_true_eq]
        omega
  | any => exact .inl rfl

theorem Shares.beyond (shares : Shares es (xs ++ [x])) : SharesBeyond es xs := by
  induction es generalizing xs with
  | nil => simp [Shares] at shares
  | cons e es ih =>
    obtain ⟨rest, takes, shares⟩ := shares
    rcases takes.of_concat with outruns | ⟨rest', rfl, shorter⟩
    · exact .inl outruns
    · exact .inr ⟨rest', shorter, ih shares⟩

theorem SharesBeyond.shorten (shares : SharesBeyond es (xs ++ [x])) : SharesBeyond es xs := by
  induction es generalizing xs with
  | nil => exact shares
  | cons e es ih =>
    rcases shares with outruns | ⟨rest, takes, shares⟩
    · exact .inl (Element.outruns_of_concat outruns)
    · rcases takes.of_concat with outruns | ⟨rest', rfl, shorter⟩
      · exact .inl outruns
      · exact .inr ⟨rest', shorter, ih shares⟩

namespace Pattern

variable {p : Pattern σ ν} {m n : Node σ ν} {tail : List (Node σ ν)}

theorem empty_admits (tail : List (Node σ ν)) : (empty : Pattern σ ν).admits tail = true := rfl

theorem admits_of_start (start : n.isStart = true) (tail : List (Node σ ν)) :
    p.admits (n :: tail) = p.accepts (n :: tail) := by
  unfold admits accepts
  rw [List.head?_cons, Option.any_some, start, if_pos rfl]

/-- What can be the end of a path that matches can be so without its first node. -/
theorem admits_of_cons (inner : n.isStart = false)
    (admitted : p.admits (m :: n :: tail) = true) : p.admits (n :: tail) = true := by
  have single (xs : List (Node σ ν)) : Nested [xs] := List.pairwise_singleton _ _
  unfold admits at admitted ⊢
  rw [Bool.or_eq_true] at admitted ⊢
  refine admitted.imp_right ?_
  intro fits
  rw [List.head?_cons, Option.any_some, inner, if_neg Bool.false_ne_true,
    takeBeyond_iff (single _)]
  refine ⟨_, List.mem_singleton_self _, ?_⟩
  rw [List.head?_cons, Option.any_some, List.reverse_cons] at fits
  split at fits
  · obtain ⟨xs, member, shares⟩ := (takeAll_iff (single _)).mp fits
    obtain rfl := List.mem_singleton.mp member
    exact shares.beyond
  · obtain ⟨xs, member, shares⟩ := (takeBeyond_iff (single _)).mp fits
    obtain rfl := List.mem_singleton.mp member
    exact shares.shorten

end Pattern

end Segmentation
