import Segmentation.Proofs.Reachable
import Segmentation.Proofs.TextSlice

/-! What a push that fails leaves behind.
The steps and the settling always stay. The input stays exactly if cutting off what
has been added to it gives it back, which texts do and sequences need not. -/
namespace Segmentation

variable {σ ν : Type} [Sequence σ]

namespace Lattice

variable {l : Lattice σ ν} {fragment : Fragment σ} {failure : Failure}

/-- An input that takes the fragment in can be cut back to what it was. -/
def Restorable (l : Lattice σ ν) (fragment : Fragment σ) : Prop :=
  ∀ old input, l.buffer = some old → old.append fragment = .ok input →
    input.slice 0 old.length = .ok old

theorem extended_of_buffered {old : Fragment σ} (buffered : l.buffer = some old) :
    l.extended fragment = old.append fragment := by
  rw [extended, buffered]

theorem restorable_of_texts
    (texts : ∀ old, l.buffer = some old → ∃ s t, old = .text s ∧ fragment = .text t) :
    l.Restorable fragment := by
  intro old input buffered appended
  obtain ⟨s, t, rfl, rfl⟩ := texts old buffered
  cases appended
  exact Fragment.slice_append_left s t

theorem undo_eq_iff (input : Fragment σ) (events : List Event) :
    (l.undo input failure events).lattice = l ↔
      ∀ old, l.buffer = some old → input.slice 0 old.length = .ok old := by
  obtain ⟨vocabulary, policy, buffer, steps, settled⟩ := l
  unfold undo
  cases buffer with
  | none => simp
  | some old =>
    cases cut : input.slice 0 old.length with
    | ok again => simp [cut]
    | error refusal => simp [cut]

/-- A push fails before it takes the fragment in, or is undone. -/
theorem push_failed (failed : (l.push fragment).result = .error failure) :
    ((l.push fragment).lattice = l ∧
      (l.settled = true ∨ ∃ refusal, l.extended fragment = .error refusal)) ∨
    l.settled = false ∧ ∃ input cause events, l.extended fragment = .ok input ∧
      l.push fragment = l.undo input cause events := by
  obtain ⟨cause, refused, early⟩ | ⟨accepts, input, extended, undone | added⟩ :=
    l.push_cases fragment
  · rw [refused]
    exact .inl ⟨rfl, early.imp_right fun refusal => ⟨cause, refusal⟩⟩
  · obtain ⟨cause, events, undone⟩ := undone
    exact .inr ⟨accepts, input, cause, events, extended, undone⟩
  · obtain ⟨_, _, _, _, added⟩ := added
    rw [added] at failed
    contradiction

/-- A push that fails keeps the steps and whether the lattice is settled. It leaves no
trace at all exactly if the lattice was settled before or its input is restorable,
and so never a trace among texts. -/
theorem failed_push_unchanged_iff (failed : (l.push fragment).result = .error failure) :
    (l.push fragment).lattice.steps = l.steps ∧
    (l.push fragment).lattice.settled = l.settled ∧
    ((l.push fragment).lattice = l ↔ l.settled = true ∨ l.Restorable fragment) ∧
    ((∀ old, l.buffer = some old → ∃ s t, old = .text s ∧ fragment = .text t) →
      (l.push fragment).lattice = l) := by
  obtain ⟨same, early⟩ | ⟨accepts, input, cause, events, extended, undone⟩ := push_failed failed
  · rw [same]
    refine ⟨rfl, rfl, ⟨fun _ => ?_, fun _ => rfl⟩, fun _ => rfl⟩
    refine early.imp_right ?_
    rintro ⟨refusal, refused⟩ old input buffered appended
    rw [extended_of_buffered buffered, appended] at refused
    contradiction
  · obtain ⟨buffer, left⟩ := undo_lattice l input cause events
    have exactly : (l.push fragment).lattice = l ↔ l.settled = true ∨ l.Restorable fragment := by
      rw [undone, undo_eq_iff, accepts]
      constructor
      · intro back
        refine .inr ?_
        intro old taken buffered appended
        rw [extended_of_buffered buffered, appended] at extended
        exact Except.ok.inj extended ▸ back old buffered
      · rintro (settled | restorable) old buffered
        · contradiction
        · rw [extended_of_buffered buffered] at extended
          exact restorable old input buffered extended
    refine ⟨?_, ?_, exactly, fun texts => exactly.mpr (.inr (restorable_of_texts texts))⟩
    · rw [undone, left]
    · rw [undone, left]

end Lattice

/-- Numbers in a row, which cannot be cut once a seven is among them. -/
structure Brittle where
  numbers : List Nat
deriving DecidableEq

namespace Brittle

instance : Sequence Brittle where
  sameKind _ _ := true
  length c := c.numbers.length
  slice c offset length :=
    if 7 ∈ c.numbers then .error (.invalid (.refused "a seven cannot be cut"))
    else if c.numbers.length < offset + length then
      .error (.outOfRange (offset + length) c.numbers.length)
    else .ok ⟨(c.numbers.drop offset).take length⟩
  append c d := .ok ⟨c.numbers ++ d.numbers⟩

/-- A single one is the only word. -/
def vocabulary : Vocabulary Brittle Nat where
  entries key := if key == .custom ⟨[1]⟩ then [⟨some key, some 0, 0⟩] else []
  connection _ _ := some 0

def lattice : Lattice Brittle Nat :=
  ((Lattice.empty vocabulary .unreachable).push (.custom ⟨[1]⟩)).lattice

/-- A two is no word, and after it has been refused the input is the old one. -/
theorem failed_push_unchanged_two :
    (lattice.push (.custom ⟨[2]⟩)).result = .error (.invalid .noNode) ∧
    (lattice.push (.custom ⟨[2]⟩)).lattice = lattice := by
  have failed : (lattice.push (.custom ⟨[2]⟩)).result = .error (.invalid .noNode) := rfl
  refine ⟨failed, (Lattice.failed_push_unchanged_iff failed).2.2.1.mpr (.inr ?_)⟩
  intro old input buffered appended
  cases buffered
  cases appended
  rfl

/-- With a seven at its end the input cannot even be cut back, and is lost. -/
theorem failed_push_loses_input :
    lattice.Reachable ∧ lattice.buffer = some (.custom ⟨[1]⟩) ∧
    (lattice.push (.custom ⟨[7]⟩)).result =
      .error (.invalid (.refused "a seven cannot be cut")) ∧
    (lattice.push (.custom ⟨[7]⟩)).lattice.buffer = none :=
  ⟨.push _ (.empty _ _), rfl, rfl, rfl⟩

end Brittle

end Segmentation
