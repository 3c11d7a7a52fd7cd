/-! Costs of edges, nodes and paths.
A cost is a signed integer of 32 bits. The greatest one stands for "no way": it
absorbs whatever is added to it. All other sums stop at the two ends of the
range, so that a sum that outgrows the range upward is "no way" as well. -/
namespace Segmentation

structure Cost where
  val : Int
  lower : -2147483648 ≤ val
  upper : val ≤ 2147483647
deriving DecidableEq

namespace Cost

/-- The cost of what cannot be reached. -/
def infinite : Cost := ⟨2147483647, by decide, by decide⟩

/-- The cost nearest to an integer. -/
def clamp (n : Int) : Cost :=
  ⟨max (-2147483648) (min n 2147483647), by omega, by omega⟩

instance (n : Nat) : OfNat Cost n := ⟨clamp n⟩

instance : Inhabited Cost := ⟨0⟩

/-- Sums are clamped, and what cannot be reached stays so. -/
def add (a b : Cost) : Cost :=
  if a = infinite ∨ b = infinite then infinite else clamp (a.val + b.val)

instance : Add Cost := ⟨add⟩

instance : LE Cost := ⟨fun a b => a.val ≤ b.val⟩

instance : LT Cost := ⟨fun a b => a.val < b.val⟩

instance (a b : Cost) : Decidable (a ≤ b) := inferInstanceAs (Decidable (a.val ≤ b.val))

instance (a b : Cost) : Decidable (a < b) := inferInstanceAs (Decidable (a.val < b.val))

theorem le_iff {a b : Cost} : a ≤ b ↔ a.val ≤ b.val := Iff.rfl

theorem lt_iff {a b : Cost} : a < b ↔ a.val < b.val := Iff.rfl

theorem ext_val {a b : Cost} (h : a.val = b.val) : a = b := by
  cases a
  cases b
  simpa using h

theorem eq_infinite_iff {a : Cost} : a = infinite ↔ a.val = 2147483647 :=
  ⟨fun h => h ▸ rfl, fun h => ext_val h⟩

end Cost

end Segmentation
