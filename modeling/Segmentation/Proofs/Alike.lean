import Segmentation.Proofs.Draining
import Mathlib.Data.List.Forall2

/-! Nodes and patterns that are equal, though they need not be the same.
If the equality of the caller's sequences and values is an equivalence, so is that of nodes and
patterns, and no search can tell equal ones apart. -/
namespace Segmentation

variable {α β σ ν : Type}

/-- Lists with equal members in the same places. -/
def Alike [BEq α] (xs ys : List α) : Prop :=
  List.Forall₂ (fun x y => (x == y) = true) xs ys

theorem beq_iff_alike [BEq α] {xs ys : List α} : (xs == ys) = true ↔ Alike xs ys := by
  unfold Alike
  induction xs generalizing ys with
  | nil => cases ys <;> simp
  | cons x xs ih => cases ys <;> simp [ih]

namespace Alike

variable [BEq α] {xs ys zs : List α}

theorem symm [PartialEquivBEq α] (alike : Alike xs ys) : Alike ys xs := by
  apply List.Forall₂.flip
  exact alike.imp fun _ _ same => BEq.symm same

theorem trans [PartialEquivBEq α] (first : Alike xs ys) (second : Alike ys zs) : Alike xs zs := by
  induction first generalizing zs with
  | nil => exact second
  | cons same _ ih =>
    cases second with
    | cons same' rest => exact .cons (BEq.trans same same') (ih rest)

theorem append_inv {xs' ys' : List α} (alike : Alike (xs ++ ys) (xs' ++ ys'))
    (same : xs.length = xs'.length) : Alike xs xs' ∧ Alike ys ys' := by
  constructor
  · have front := List.forall₂_take xs.length alike
    rwa [List.take_left' rfl, List.take_left' same.symm] at front
  · have back := List.forall₂_drop xs.length alike
    rwa [List.drop_left' rfl, List.drop_left' same.symm] at back

theorem head? (alike : Alike xs ys) : (xs.head? == ys.head?) = true := by
  cases alike with
  | nil => rfl
  | cons same _ => exact same

theorem getLast? (alike : Alike xs ys) : (xs.getLast? == ys.getLast?) = true := by
  rw [← List.head?_reverse, ← List.head?_reverse]
  exact head? (List.forall₂_reverse_iff.mpr alike)

end Alike

instance equivBEq_list [BEq α] [EquivBEq α] : EquivBEq (List α) where
  symm same := beq_iff_alike.mpr (beq_iff_alike.mp same).symm
  trans first second :=
    beq_iff_alike.mpr ((beq_iff_alike.mp first).trans (beq_iff_alike.mp second))

instance equivBEq_option [BEq α] [EquivBEq α] : EquivBEq (Option α) where
  symm {a b} same := by
    cases a <;> cases b <;> simp_all [BEq.comm]
  trans {a b c} first second := by
    cases a <;> cases b <;> cases c <;> simp_all
    exact BEq.trans first second

section Equality

variable [BEq σ] [BEq ν]

instance [EquivBEq σ] : EquivBEq (Fragment σ) where
  rfl {f} := by
    cases f with
    | text s => exact BEq.rfl (a := s)
    | custom c => exact BEq.rfl (a := c)
  symm {f g} same := by
    cases f <;> cases g
    · exact BEq.symm (α := String) same
    · cases same
    · cases same
    · exact BEq.symm (α := σ) same
  trans {f g h} first second := by
    cases f <;> cases g <;> cases h <;> try contradiction
    · exact BEq.trans (α := String) first second
    · exact BEq.trans (α := σ) first second

theorem Entry.beq_iff {a b : Entry σ ν} : (a == b) = true ↔
    (a.key == b.key) = true ∧ (a.value == b.value) = true ∧ a.cost = b.cost := by
  change (_ && _) = true ↔ _
  simp [and_assoc]

theorem Node.beq_iff {n m : Node σ ν} : (n == m) = true ↔
    (n.entry == m.entry) = true ∧ n.index = m.index ∧ n.origin = m.origin ∧
      n.edgeCosts = m.edgeCosts ∧ n.pathCost = m.pathCost := by
  change (_ && _) = true ↔ _
  simp [and_assoc]

theorem Path.beq_iff {p q : Path σ ν} :
    (p == q) = true ↔ Alike p.nodes q.nodes ∧ p.cost = q.cost := by
  rw [← beq_iff_alike]
  change (_ && _) = true ↔ _
  simp

theorem Pattern.beq_iff {p q : Pattern σ ν} : (p == q) = true ↔ Alike p.elements q.elements :=
  beq_iff_alike

theorem Node.isStart_alike {n m : Node σ ν} (same : (n == m) = true) : n.isStart = m.isStart := by
  obtain ⟨entry, _, origin, _⟩ := Node.beq_iff.mp same
  obtain ⟨key, _⟩ := Entry.beq_iff.mp entry
  rw [isStart, isStart, origin, Entry.isSentinel, Entry.isSentinel]
  cases found : n.entry.key <;> cases found' : m.entry.key <;> simp_all

variable [EquivBEq σ] [EquivBEq ν]

instance : EquivBEq (Entry σ ν) where
  rfl := Entry.beq_iff.mpr ⟨BEq.rfl, BEq.rfl, rfl⟩
  symm same := by
    obtain ⟨key, value, cost⟩ := Entry.beq_iff.mp same
    exact Entry.beq_iff.mpr ⟨BEq.symm key, BEq.symm value, cost.symm⟩
  trans first second := by
    obtain ⟨key, value, cost⟩ := Entry.beq_iff.mp first
    obtain ⟨key', value', cost'⟩ := Entry.beq_iff.mp second
    exact Entry.beq_iff.mpr ⟨BEq.trans key key', BEq.trans value value', cost.trans cost'⟩

instance : EquivBEq (Node σ ν) where
  rfl := Node.beq_iff.mpr ⟨BEq.rfl, rfl, rfl, rfl, rfl⟩
  symm same := by
    obtain ⟨entry, index, origin, edges, cost⟩ := Node.beq_iff.mp same
    exact Node.beq_iff.mpr ⟨BEq.symm entry, index.symm, origin.symm, edges.symm, cost.symm⟩
  trans first second := by
    obtain ⟨entry, index, origin, edges, cost⟩ := Node.beq_iff.mp first
    obtain ⟨entry', index', origin', edges', cost'⟩ := Node.beq_iff.mp second
    exact Node.beq_iff.mpr ⟨BEq.trans entry entry', index.trans index', origin.trans origin',
      edges.trans edges', cost.trans cost'⟩

instance : EquivBEq (Element σ ν) where
  rfl {e} := by
    cases e with
    | node n => exact BEq.rfl (a := n)
    | exactly count => exact BEq.rfl (a := count)
    | any => rfl
  symm {e f} same := by
    cases e <;> cases f <;> try contradiction
    · exact BEq.symm (α := Node σ ν) same
    · exact BEq.symm (α := Nat) same
    · rfl
  trans {e f g} first second := by
    cases e <;> cases f <;> cases g <;> try contradiction
    · exact BEq.trans (α := Node σ ν) first second
    · exact BEq.trans (α := Nat) first second
    · rfl

instance : EquivBEq (Pattern σ ν) where
  rfl {p} := BEq.rfl (a := p.elements)
  symm same := BEq.symm (α := List (Element σ ν)) same
  trans first second := BEq.trans (α := List (Element σ ν)) first second

end Equality

theorem any_eq_of_forall₂ {R : α → β → Prop} {xs : List α} {ys : List β} {p : α → Bool}
    {q : β → Bool} (paired : List.Forall₂ R xs ys) (same : ∀ x y, R x y → p x = q y) :
    xs.any p = ys.any q := by
  induction paired with
  | nil => rfl
  | cons related _ ih => rw [List.any_cons, List.any_cons, same _ _ related, ih]

theorem Alike.suffixes [BEq α] {xs ys : List α} (alike : Alike xs ys) :
    List.Forall₂ Alike (suffixes xs) (suffixes ys) := by
  induction alike with
  | nil => exact .cons .nil .nil
  | cons same rest ih => exact .cons (.cons same rest) ih

section Matching

variable [BEq σ] [BEq ν] [EquivBEq σ] [EquivBEq ν] {e f : Element σ ν} {p q : Pattern σ ν}
  {nodes nodes' : List (Node σ ν)} {rests rests' : List (List (Node σ ν))}
  {elements elements' : List (Element σ ν)}

theorem Element.take_alike (same : (e == f) = true) (alike : List.Forall₂ Alike rests rests') :
    List.Forall₂ Alike (e.take rests) (f.take rests') := by
  cases e <;> cases f <;> try contradiction
  case node.node n m =>
    have equal : (n == m) = true := same
    refine List.rel_filterMap ?_ alike
    intro xs ys related
    cases related with
    | nil => exact .none
    | cons first rest =>
      dsimp only
      rw [BEq.congr_left equal, BEq.congr_right first]
      split
      · exact .some rest
      · exact .none
  case exactly.exactly count count' =>
    obtain rfl : count = count' := eq_of_beq (α := Nat) same
    refine List.rel_filterMap ?_ alike
    intro xs ys related
    dsimp only
    rw [related.length_eq]
    split
    · exact .some (List.forall₂_drop count related)
    · exact .none
  case any.any =>
    cases alike with
    | nil => exact .nil
    | cons first _ => exact first.suffixes

omit [EquivBEq σ] [EquivBEq ν] in
theorem Element.outruns_alike (same : (e == f) = true) (alike : Alike nodes nodes') :
    e.outruns nodes = f.outruns nodes' := by
  cases e <;> cases f <;> try contradiction
  case node.node => cases alike <;> rfl
  case exactly.exactly count count' =>
    obtain rfl : count = count' := eq_of_beq (α := Nat) same
    simp only [outruns, alike.length_eq]
  case any.any => rfl

theorem Pattern.takeAll_alike (same : Alike elements elements')
    (alike : List.Forall₂ Alike rests rests') :
    takeAll elements rests = takeAll elements' rests' := by
  induction same generalizing rests rests' with
  | nil =>
    apply any_eq_of_forall₂ alike
    intro xs ys related
    cases related <;> rfl
  | cons equal _ ih => exact ih (Element.take_alike equal alike)

theorem Pattern.takeBeyond_alike (same : Alike elements elements')
    (alike : List.Forall₂ Alike rests rests') :
    takeBeyond elements rests = takeBeyond elements' rests' := by
  induction same generalizing rests rests' with
  | nil => rfl
  | cons equal _ ih =>
    rw [takeBeyond, takeBeyond, ih (Element.take_alike equal alike)]
    rw [any_eq_of_forall₂ alike fun xs ys related => Element.outruns_alike equal related]

/-- Equal patterns admit ends of paths that are alike, or neither of them does. -/
theorem Pattern.admits_alike (same : (p == q) = true) (alike : Alike nodes nodes') :
    p.admits nodes = q.admits nodes' := by
  have elements := Pattern.beq_iff.mp same
  have reversed : Alike p.elements.reverse q.elements.reverse :=
    List.forall₂_reverse_iff.mpr elements
  have whole : List.Forall₂ Alike [nodes.reverse] [nodes'.reverse] :=
    .cons (List.forall₂_reverse_iff.mpr alike) .nil
  have start : nodes.head?.any Node.isStart = nodes'.head?.any Node.isStart := by
    cases alike with
    | nil => rfl
    | cons first _ => exact Node.isStart_alike first
  have empty : p.isEmpty = q.isEmpty := by
    obtain ⟨es⟩ := p
    obtain ⟨fs⟩ := q
    cases elements <;> rfl
  unfold admits
  rw [empty, start, takeAll_alike reversed whole, takeBeyond_alike reversed whole]

end Matching

end Segmentation
