import Segmentation.Cost
import Mathlib.Algebra.Order.BigOperators.Group.List
import Mathlib.Algebra.Order.Group.Nat
import Mathlib.Algebra.Order.Ring.Int
import Mathlib.Data.List.Induction

/-! Sums of costs, from left to right.
Adding is monotone and what cannot be reached absorbs. As long as the absolute
values stay within the range, a sum is the one of the integers. -/
namespace Segmentation.Cost

variable {a b c : Cost} {costs : List Cost}

@[simp] theorem zero_val : (0 : Cost).val = 0 := rfl

@[simp] theorem infinite_val : infinite.val = 2147483647 := rfl

theorem zero_ne_infinite : (0 : Cost) ≠ infinite := by decide

theorem le_infinite (a : Cost) : a ≤ infinite := a.upper

theorem infinite_le : infinite ≤ a ↔ a = infinite := by
  rw [le_iff, eq_infinite_iff, infinite_val]
  have := a.upper
  omega

theorem le_refl (a : Cost) : a ≤ a := Int.le_refl a.val

theorem le_trans (first : a ≤ b) (second : b ≤ c) : a ≤ c := Int.le_trans first second

@[simp] theorem infinite_add (a : Cost) : infinite + a = infinite := by
  change add infinite a = _
  rw [add, if_pos (Or.inl rfl)]

@[simp] theorem add_infinite (a : Cost) : a + infinite = infinite := by
  change add a infinite = _
  rw [add, if_pos (Or.inr rfl)]

theorem add_val (ha : a ≠ infinite) (hb : b ≠ infinite) :
    (a + b).val = max (-2147483648) (min (a.val + b.val) 2147483647) := by
  change (add a b).val = _
  rw [add, if_neg (not_or.mpr ⟨ha, hb⟩), clamp]

theorem add_eq_infinite_iff : a + b = infinite ↔
    a = infinite ∨ b = infinite ∨ infinite.val ≤ a.val + b.val := by
  by_cases ha : a = infinite
  · simp [ha]
  by_cases hb : b = infinite
  · simp [hb]
  rw [eq_infinite_iff, add_val ha hb, infinite_val]
  simp only [ha, hb, false_or]
  omega

theorem add_zero (a : Cost) : a + 0 = a := by
  by_cases ha : a = infinite
  · rw [ha, infinite_add]
  apply ext_val
  rw [add_val ha zero_ne_infinite, zero_val]
  have := a.lower
  have := a.upper
  omega

theorem add_le_add_right (h : a ≤ b) (c : Cost) : a + c ≤ b + c := by
  by_cases hb : b = infinite
  · rw [hb, infinite_add]
    exact le_infinite _
  by_cases hc : c = infinite
  · rw [hc, add_infinite, add_infinite]
    exact le_refl _
  have ha : a ≠ infinite := fun ha => hb (infinite_le.mp (ha ▸ h))
  rw [le_iff] at h ⊢
  rw [add_val ha hc, add_val hb hc]
  omega

theorem add_comm (a b : Cost) : a + b = b + a := by
  change add a b = add b a
  simp only [add, or_comm, Int.add_comm]

theorem zero_add (a : Cost) : 0 + a = a := by
  rw [add_comm, add_zero]

theorem add_le_add_left (h : a ≤ b) (c : Cost) : c + a ≤ c + b := by
  rw [add_comm c a, add_comm c b]
  exact add_le_add_right h c

theorem ne_infinite_of_small (small : a.val.natAbs < 2147483647) : a ≠ infinite := by
  rw [Ne, eq_infinite_iff]
  omega

/-- A sum that keeps away from both ends is exact. -/
theorem add_exact (ha : a ≠ infinite) (hb : b ≠ infinite)
    (range : (a.val + b.val).natAbs < 2147483647) : (a + b).val = a.val + b.val := by
  rw [add_val ha hb]
  omega

theorem add_small {x y : Nat} (ha : a.val.natAbs ≤ x) (hb : b.val.natAbs ≤ y)
    (range : x + y < 2147483647) :
    (a + b).val = a.val + b.val ∧ (a + b).val.natAbs ≤ x + y := by
  have sum : (a + b).val = a.val + b.val :=
    add_exact (ne_infinite_of_small (by omega)) (ne_infinite_of_small (by omega)) (by omega)
  refine ⟨sum, ?_⟩
  rw [sum]
  omega

theorem add_left_ne_infinite (finite : a + b ≠ infinite) : a ≠ infinite := by
  rintro rfl
  exact finite (infinite_add b)

theorem add_right_ne_infinite (finite : a + b ≠ infinite) : b ≠ infinite := by
  rintro rfl
  exact finite (add_infinite a)

/-- The sum of two costs lies below the range, and is raised to its lower end. -/
def Sinks (a b : Cost) : Prop :=
  a ≠ infinite ∧ b ≠ infinite ∧ a.val + b.val < -2147483648

instance (a b : Cost) : Decidable (Sinks a b) := inferInstanceAs (Decidable (_ ∧ _ ∧ _))

/-- A finite sum is at least the one of the integers. -/
theorem le_add_val (finite : a + b ≠ infinite) : a.val + b.val ≤ (a + b).val := by
  have sum := add_val (add_left_ne_infinite finite) (add_right_ne_infinite finite)
  rw [Ne, eq_infinite_iff] at finite
  omega

/-- A sum that does not sink is at most the one of the integers. -/
theorem add_val_le (ha : a ≠ infinite) (hb : b ≠ infinite) (floats : ¬Sinks a b) :
    (a + b).val ≤ a.val + b.val := by
  have low : ¬a.val + b.val < -2147483648 := fun low => floats ⟨ha, hb, low⟩
  rw [add_val ha hb]
  omega

/-- What the costs come to, added up from the first on. -/
def total (costs : List Cost) : Cost := costs.foldl (· + ·) 0

/-- What they come to as integers. -/
def exact (costs : List Cost) : Int := (costs.map val).sum

/-- The sum of their absolute values. -/
def size (costs : List Cost) : Nat := (costs.map fun c => c.val.natAbs).sum

/-- Somewhere the sum leaves the range at its upper end. -/
def Overruns (costs : List Cost) : Prop :=
  ∃ before cost after, costs = before ++ cost :: after ∧
    infinite.val ≤ (total before).val + cost.val

@[simp] theorem total_nil : total [] = 0 := rfl

@[simp] theorem total_concat (costs : List Cost) (c : Cost) :
    total (costs ++ [c]) = total costs + c := by
  simp only [total, List.foldl_append, List.foldl_cons, List.foldl_nil]

@[simp] theorem exact_nil : exact [] = 0 := rfl

@[simp] theorem exact_cons (c : Cost) (costs : List Cost) :
    exact (c :: costs) = c.val + exact costs := rfl

@[simp] theorem exact_append (first second : List Cost) :
    exact (first ++ second) = exact first + exact second := by
  simp only [exact, List.map_append, List.sum_append]

@[simp] theorem size_nil : size [] = 0 := rfl

@[simp] theorem size_cons (c : Cost) (costs : List Cost) :
    size (c :: costs) = c.val.natAbs + size costs := rfl

@[simp] theorem size_append (first second : List Cost) :
    size (first ++ second) = size first + size second := by
  simp only [size, List.map_append, List.sum_append]

theorem exact_natAbs_le (costs : List Cost) : (exact costs).natAbs ≤ size costs := by
  induction costs with
  | nil => exact Nat.le_refl 0
  | cons c costs ih =>
    rw [exact_cons, size_cons]
    omega

theorem size_mem_le (member : c ∈ costs) : c.val.natAbs ≤ size costs :=
  List.single_le_sum (fun _ _ => Nat.zero_le _) _
    (List.mem_map_of_mem (f := fun c => c.val.natAbs) member)

theorem overruns_concat : Overruns (costs ++ [c]) ↔
    Overruns costs ∨ infinite.val ≤ (total costs).val + c.val := by
  constructor
  · rintro ⟨before, cost, after, same, beyond⟩
    rcases List.eq_nil_or_concat after with rfl | ⟨after, last, rfl⟩
    · obtain ⟨rfl, last⟩ := List.append_inj' same rfl
      obtain rfl : c = cost := List.head_eq_of_cons_eq last
      exact .inr beyond
    · rw [List.concat_eq_append, ← List.cons_append, ← List.append_assoc] at same
      exact .inl ⟨before, cost, after, (List.append_inj' same rfl).1, beyond⟩
  · rintro (⟨before, cost, after, rfl, beyond⟩ | beyond)
    · exact ⟨before, cost, after ++ [c], by simp, beyond⟩
    · exact ⟨costs, c, [], rfl, beyond⟩

/-- A sum comes to "no way" exactly through an infinite cost or by leaving the
range at its upper end. -/
theorem total_eq_infinite_iff : total costs = infinite ↔ infinite ∈ costs ∨ Overruns costs := by
  induction costs using List.reverseRecOn with
  | nil => simp [Overruns, zero_ne_infinite]
  | append_singleton costs c ih =>
    rw [total_concat, add_eq_infinite_iff, ih, overruns_concat, List.mem_append,
      List.mem_singleton, eq_comm (a := infinite) (b := c)]
    tauto

theorem infinite_not_mem (h : total costs ≠ infinite) : infinite ∉ costs :=
  fun member => h (total_eq_infinite_iff.mpr (.inl member))

/-- Costs whose absolute values stay within the range are added up exactly. -/
theorem total_exact (range : size costs < 2147483647) :
    total costs ≠ infinite ∧ (total costs).val = exact costs := by
  induction costs using List.reverseRecOn with
  | nil => exact ⟨zero_ne_infinite, rfl⟩
  | append_singleton costs c ih =>
    simp only [size_append, size_cons, size_nil] at range
    obtain ⟨finite, same⟩ := ih (by omega)
    have bound := exact_natAbs_le costs
    have hc : c ≠ infinite := by
      rw [Ne, eq_infinite_iff]
      omega
    have sum : (total costs + c).val = (total costs).val + c.val :=
      add_exact finite hc (by omega)
    rw [total_concat, exact_append, exact_cons, exact_nil, Ne, eq_infinite_iff, sum, same]
    omega

end Segmentation.Cost
