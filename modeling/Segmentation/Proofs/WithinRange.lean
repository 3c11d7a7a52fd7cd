import Segmentation.Proofs.Finding
import Mathlib.Data.List.Infix

/-! Complete chains that are found because their costs stay within the range.
It is not enough that they do when they are added up from the start, as it is done to
choose the best predecessors: a search adds up from the end. -/
namespace Segmentation

variable {σ ν : Type}

namespace Cost

variable {a b : Cost} {costs part : List Cost}

/-- Added up from the first on, the costs never leave the range of finite costs. -/
def Within (costs : List Cost) : Prop :=
  ∀ front, front <+: costs → -2147483648 ≤ exact front ∧ exact front < infinite.val

instance (costs : List Cost) : Decidable (Within costs) :=
  decidable_of_iff (∀ front ∈ costs.inits, -2147483648 ≤ exact front ∧ exact front < infinite.val)
    (by simp only [List.mem_inits, Within])

theorem Within.forth (within : Within costs) (first : part <+: costs) : Within part :=
  fun _ shorter => within _ (shorter.trans first)

theorem exact_reverse (costs : List Cost) : exact costs.reverse = exact costs := by
  induction costs with
  | nil => rfl
  | cons c costs ih =>
    rw [List.reverse_cons, exact_append, ih, exact_cons, exact_cons, exact_nil]
    omega

theorem Within.back (within : Within costs.reverse) (last : part <:+ costs) :
    -2147483648 ≤ exact part ∧ exact part < infinite.val := by
  have bounds := within part.reverse (List.reverse_prefix.mpr last)
  rwa [exact_reverse] at bounds

theorem add_within (ha : a ≠ infinite) (hb : b ≠ infinite)
    (bounds : -2147483648 ≤ a.val + b.val ∧ a.val + b.val < infinite.val) :
    a + b ≠ infinite ∧ (a + b).val = a.val + b.val := by
  rw [infinite_val] at bounds
  rw [Ne, eq_infinite_iff, add_val ha hb]
  omega

theorem ne_infinite_of_lt {n : Int} (value : a.val = n) (below : n < infinite.val) :
    a ≠ infinite := by
  rintro rfl
  omega

theorem ne_infinite_of_le (below : a ≤ b) (finite : b ≠ infinite) : a ≠ infinite := by
  rintro rfl
  exact finite (infinite_le.mp below)

/-- Costs that stay within the range are added up exactly. -/
theorem total_within (within : Within costs) (finite : infinite ∉ costs) :
    total costs ≠ infinite ∧ (total costs).val = exact costs := by
  induction costs using List.reverseRecOn with
  | nil => exact ⟨zero_ne_infinite, rfl⟩
  | append_singleton costs c ih =>
    rw [List.mem_append, List.mem_singleton, not_or] at finite
    obtain ⟨before, same⟩ := ih (within.forth (List.prefix_append costs [c])) finite.1
    have bounds := within _ List.prefix_rfl
    rw [exact_append, exact_cons, exact_nil, Int.add_zero, ← same] at bounds ⊢
    rw [total_concat]
    exact add_within before (Ne.symm finite.2) bounds

end Cost

namespace Lattice

variable {l : Lattice σ ν} {m n eos : Node σ ν} {edge cost : Cost} {nodes : List (Node σ ν)}
  {met after : List Cost}

theorem WellFormed.pathCost_le_of_joins (wf : l.WellFormed) (joined : l.Joins m edge n)
    (chain : Chain l.Joins nodes met m) : m.pathCost ≤ Cost.total met := by
  obtain ⟨origin, _, _, there, member⟩ := joined
  obtain ⟨before, present, rfl⟩ := nodesAt_eq_ok_iff.mp there
  exact wf.pathCost_le chain (wf.start_or_relaxed present (List.of_mem_zip member).1)

/-- A chain is found in front of a tail whose cost is exact, if nothing that is added up
on it from either side leaves the range. -/
theorem WellFormed.finds_of_within (wf : l.WellFormed) (chain : Chain l.Passes nodes met n)
    (forth : Cost.Within (met ++ after)) (back : Cost.Within (met ++ after).reverse)
    (value : cost.val = n.entry.cost.val + Cost.exact after) : l.Finds nodes n cost := by
  -- Whether a predecessor is the best one does not matter: it is never given up.
  induction chain generalizing cost after with
  | start => exact .start
  | @next nodes met m edge n chain passes ih =>
    obtain ⟨joined, finite, passable⟩ := passes
    rw [List.append_assoc, List.cons_append, List.singleton_append] at forth back
    have own := back.back (show n.entry.cost :: after <:+ _ from ⟨met ++ [edge], by simp⟩)
    have both := back.back (show edge :: n.entry.cost :: after <:+ _ from ⟨met, rfl⟩)
    simp only [Cost.exact_cons] at own both
    have tail : cost ≠ .infinite := Cost.ne_infinite_of_lt value own.2
    obtain ⟨base_finite, base⟩ := Cost.add_within tail finite (by omega)
    have further : (cost + edge + m.entry.cost).val =
        m.entry.cost.val + Cost.exact (edge :: n.entry.cost :: after) := by
      obtain ⟨_, _, rfl⟩ | ⟨_, first, _, edge', _, passes, _, rfl⟩ := chain.invert
      · have zero : cost + edge + (Node.start [] : Node σ ν).entry.cost = cost + edge :=
          Cost.add_zero _
        rw [zero, base, value, Cost.exact_cons, Cost.exact_cons]
        change _ = 0 + _
        omega
      · have next := back.back (show m.entry.cost :: edge :: n.entry.cost :: after <:+ _ from
          ⟨first ++ [edge'], by simp⟩)
        simp only [Cost.exact_cons] at next ⊢
        rw [(Cost.add_within base_finite passes.2.2 (by omega)).2, base, value]
        omega
    have whole : cost + edge + m.pathCost ≠ .infinite := by
      obtain ⟨met_finite, exact⟩ :=
        Cost.total_within (forth.forth (List.prefix_append _ _)) chain.finite
      have all := forth _ List.prefix_rfl
      simp only [Cost.exact_append, Cost.exact_cons] at all
      have least := wf.pathCost_le_of_joins joined chain.joins
      exact Cost.ne_infinite_of_le (Cost.add_le_add_left least _)
        (Cost.add_within base_finite met_finite (by omega)).1
    exact .aside joined whole (ih forth back further)

variable [BEq σ] [BEq ν]

/-- The paths of a settled lattice are different from each other and those that are found
from its end. Among them are all chains whose costs stay within the range when they are
added up from the start and when they are added up from the end. -/
theorem drain_within_range [Sequence σ] (reachable : l.Reachable)
    (settled : l.settle.result = .ok eos) (identity : Nat) :
    ∃ e, Enumeration.start identity l eos .empty = .ok e ∧ (e.drain.map Path.nodes).Nodup ∧
      (∀ nodes, nodes ∈ e.drain.map Path.nodes ↔ l.Finds nodes eos eos.entry.cost) ∧
      ∀ nodes costs, Chain l.Passes nodes costs eos → Cost.Within costs →
        Cost.Within costs.reverse → nodes ∈ e.drain.map Path.nodes := by
  have wf := reachable.wellFormed
  obtain ⟨e, accepted, once, finds⟩ := wf.drain_found settled identity
  refine ⟨e, accepted, once, finds, ?_⟩
  intro nodes costs chain forth back
  have value : eos.entry.cost.val = eos.entry.cost.val + Cost.exact [] := (Int.add_zero _).symm
  rw [← List.append_nil costs] at forth back
  exact (finds nodes).mpr (wf.finds_of_within chain forth back value)

end Lattice

namespace Overlap

/-- The readings of the first word. -/
def first : List (Node Empty Nat) := (lattice.steps[1]?.map Step.nodes).getD []

/-- Both words of "ab", the first with its dearer reading. -/
def twoWords : List (Node Empty Nat) :=
  [.start [], first.get ⟨0, by decide⟩, last.get ⟨1, by decide⟩, lattice.ending]

theorem chain_twoWords :
    Chain lattice.Passes twoWords [1, 5, 1, .clamp (-4), 1, 0] lattice.ending := by
  have begins : lattice.Passes (.start []) 1 (first.get ⟨0, by decide⟩) :=
    ⟨⟨⟨0, 0⟩, _, rfl, rfl, List.mem_of_getElem? (i := 0) rfl⟩, by decide, by decide⟩
  have goes : lattice.Passes (first.get ⟨0, by decide⟩) 1 (last.get ⟨1, by decide⟩) :=
    ⟨⟨⟨1, 0⟩, _, rfl, rfl, List.mem_of_getElem? (i := 0) rfl⟩, by decide, by decide⟩
  have ends : lattice.Passes (last.get ⟨1, by decide⟩) 1 lattice.ending :=
    ⟨⟨⟨2, 1⟩, _, rfl, rfl, List.mem_of_getElem? (i := 1) rfl⟩, by decide, by decide⟩
  exact ((Chain.start.next begins).next goes).next ends

/-- They are found, for their costs stay within the range from both ends. -/
theorem drain_two_words_found : lattice.Reachable ∧
    lattice.settle.result = .ok lattice.ending ∧
    Cost.Within [1, 5, 1, .clamp (-4), 1, 0] ∧ Cost.Within [1, 5, 1, .clamp (-4), 1, 0].reverse ∧
    ∃ e, Enumeration.start 0 lattice lattice.ending .empty = .ok e ∧
      (e.drain.map Path.nodes).Nodup ∧ twoWords ∈ e.drain.map Path.nodes := by
  have forth : Cost.Within [1, 5, 1, .clamp (-4), 1, 0] := by decide
  have back : Cost.Within [1, 5, 1, .clamp (-4), 1, 0].reverse := by decide
  obtain ⟨e, accepted, once, _, found⟩ := Lattice.drain_within_range reachable
    (show lattice.settle.result = .ok lattice.ending from rfl) 0
  exact ⟨reachable, rfl, forth, back, e, accepted, once, found _ _ chain_twoWords forth back⟩

end Overlap

namespace Steep

/-- The first word, of two equal readings, leads far down, and the second word and the
edge to the end each lead up again. -/
def vocabulary : Vocabulary Empty Nat where
  entries
    | .text "a" => [⟨some (.text "a"), some 0, .clamp (-2000000000)⟩,
        ⟨some (.text "a"), some 1, .clamp (-2000000000)⟩]
    | .text "b" => [⟨some (.text "b"), some 2, 2000000000⟩]
    | _ => []
  connection before _ := some (if before.entry.value = some 2 then 2000000000 else 0)

def lattice : Lattice Empty Nat := .ofTexts vocabulary ["a", "b"]

def words (step : Nat) : List (Node Empty Nat) := (lattice.steps[step]?.map Step.nodes).getD []

/-- The path with the second of the two readings. -/
def second : List (Node Empty Nat) :=
  [.start [], (words 1).get ⟨1, by decide⟩, (words 2).get ⟨0, by decide⟩, lattice.ending]

def costs : List Cost := [0, .clamp (-2000000000), 0, 2000000000, 2000000000, 0]

theorem chain_second : Chain lattice.Passes second costs lattice.ending := by
  have begins : lattice.Passes (.start []) 0 ((words 1).get ⟨1, by decide⟩) :=
    ⟨⟨⟨0, 0⟩, _, rfl, rfl, List.mem_of_getElem? (i := 0) rfl⟩, by decide, by decide⟩
  have goes : lattice.Passes ((words 1).get ⟨1, by decide⟩) 0 ((words 2).get ⟨0, by decide⟩) :=
    ⟨⟨⟨1, 0⟩, _, rfl, rfl, List.mem_of_getElem? (i := 1) rfl⟩, by decide, by decide⟩
  have ends : lattice.Passes ((words 2).get ⟨0, by decide⟩) 2000000000 lattice.ending :=
    ⟨⟨⟨2, 0⟩, _, rfl, rfl, List.mem_of_getElem? (i := 0) rfl⟩, by decide, by decide⟩
  exact ((Chain.start.next begins).next goes).next ends

/-- From the start it stays within the range, but it is not found: from the end the edge
and the second word come to "no way". -/
theorem drain_loses_second : lattice.Reachable ∧ lattice.settle.result = .ok lattice.ending ∧
    Chain lattice.Passes second costs lattice.ending ∧ Cost.Within costs ∧
    ∃ e, Enumeration.start 0 lattice lattice.ending .empty = .ok e ∧
      second ∉ e.drain.map Path.nodes := by
  have reachable : lattice.Reachable := .ofTexts _ _
  have settled : lattice.settle.result = .ok lattice.ending := rfl
  have reported : (fun e => e.drain.map fun path => path.nodes.map (·.entry.value)) <$>
      Enumeration.start 0 lattice lattice.ending .empty =
        .ok [[none, some 0, some 2, none]] := by decide +kernel
  obtain ⟨e, accepted⟩ := Enumeration.start_of_settled reachable.wellFormed settled 0 .empty
  refine ⟨reachable, settled, chain_second, by decide, e, accepted, ?_⟩
  rw [accepted] at reported
  have values : (e.drain.map fun path => path.nodes.map (·.entry.value)) = _ :=
    Except.ok.inj reported
  intro member
  obtain ⟨path, inside, nodes⟩ := List.mem_map.mp member
  have value := List.mem_map_of_mem (f := fun path => path.nodes.map (·.entry.value)) inside
  rw [values, nodes] at value
  exact absurd value (by decide)

end Steep

end Segmentation
