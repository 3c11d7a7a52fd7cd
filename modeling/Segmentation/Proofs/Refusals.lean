import Segmentation.Proofs.Finer
import Segmentation.Proofs.Policies

/-! Which texts a lattice refuses.
The input can always be cut where a step ends, and cut back after a refusal. What is left is
that no word ends with it, or that a word may not stand after a node and this is not allowed. -/
namespace Segmentation

variable {σ ν : Type}

theorem bind_error_iff {α β ε : Type} {x : Except ε α} {f : α → Except ε β} {failure : ε} :
    (x >>= f) = .error failure ↔
      x = .error failure ∨ ∃ a, x = .ok a ∧ f a = .error failure := by
  cases x <;> simp [bind, Except.bind]

/-- A checked map over a list fails as one of the members does. -/
theorem exists_of_mapM_error {α β ε : Type} {f : α → Except ε β} {xs : List α} {failure : ε}
    (failed : xs.mapM f = .error failure) : ∃ x ∈ xs, f x = .error failure := by
  induction xs with
  | nil => cases failed
  | cons x xs ih =>
    rw [List.mapM_cons] at failed
    obtain here | ⟨_, _, later⟩ := bind_error_iff.mp failed
    · exact ⟨x, List.mem_cons_self, here⟩
    · obtain rest | ⟨_, _, done⟩ := bind_error_iff.mp later
      · obtain ⟨y, member, found⟩ := ih rest
        exact ⟨y, List.mem_cons_of_mem _ member, found⟩
      · cases done

namespace Lattice

/-- The word is written as the input is from the end of the step on. -/
def Offers (l : Lattice σ ν) (input : String) (t : Step σ ν) (e : Entry σ ν) : Prop :=
  t ∈ l.steps ∧ ∃ front key, input = front ++ key ∧ front.utf8ByteSize = t.inputTail ∧
    e ∈ l.vocabulary.entries (.text key)

/-- A connection is missing, from a node of the step to a word after it, and must not be. -/
def Misses (l : Lattice σ ν) (input : String) (t : Step σ ν) (n : Node σ ν) (e : Entry σ ν) :
    Prop :=
  l.policy = .reject ∧ l.Offers input t e ∧ n ∈ t.nodes ∧ l.vocabulary.connection n e = none

/-- What becomes of a push that makes this the input. -/
inductive Judged (l : Lattice σ ν) (input : String) : Outcome σ ν Unit → Prop where
  | closed : l.settled = true → Judged l input ⟨.error (.misuse .settled), l, []⟩
  | wordless {events : List Event} : l.settled = false → (∀ t e, ¬l.Offers input t e) →
      Judged l input ⟨.error (.invalid .noNode), l, events⟩
  | unconnected {t : Step σ ν} {n : Node σ ν} {e : Entry σ ν} : l.settled = false →
      l.Misses input t n e →
      Judged l input ⟨.error (.invalid (.noConnection n.index t.inputTail)), l, []⟩
  | taken {t : Step σ ν} {e : Entry σ ν} {nodes : List (Node σ ν)} {events : List Event} :
      l.settled = false → l.Offers input t e → (∀ t n e, ¬l.Misses input t n e) →
      Judged l input ⟨.ok (), { l with
        buffer := some (.text input), steps := l.steps ++ [⟨input.utf8ByteSize, nodes⟩] }, events⟩

variable {l : Lattice σ ν} {t : Step σ ν} {n : Node σ ν} {e : Entry σ ν} {failure : Failure}
  {nodes : List (Node σ ν)} {texts : List String} {s input : String}

theorem edgeCosts_error (failed : l.edgeCosts t e = .error failure) :
    ∃ n ∈ t.nodes, l.policy = .reject ∧ l.vocabulary.connection n e = none ∧
      failure = .invalid (.noConnection n.index t.inputTail) := by
  obtain ⟨n, member, refused⟩ := exists_of_mapM_error failed
  refine ⟨n, member, ?_⟩
  cases known : l.vocabulary.connection n e with
  | some cost =>
    rw [known] at refused
    contradiction
  | none =>
    cases policy : l.policy with
    | unreachable =>
      rw [known, policy] at refused
      contradiction
    | reject =>
      rw [known, policy] at refused
      exact ⟨rfl, rfl, (Except.error.inj refused).symm⟩

variable [Sequence σ]

theorem Offers.meets (offered : l.Offers input t e) (member : n ∈ t.nodes) :
    l.Meets (.text input) n e := by
  obtain ⟨present, front, key, rfl, size, known⟩ := offered
  refine ⟨t, present, member, .text key, ?_, known⟩
  rw [← size]
  exact Fragment.slice_append_right front key

theorem connects_of_reject {input : Fragment σ} (strict : l.policy = .reject)
    (arrived : l.arriving input = .ok nodes) (met : l.Meets input n e) : l.Connects n e := by
  have same : l.under .reject = l := by rw [under, ← strict]
  rw [← same] at arrived
  exact (arriving_reject_iff.mp arrived).1 n e met

/-- What is looked up after a step is what the input has from its end on. -/
theorem Holds.offers_iff {k : Nat} (holds : l.Holds texts) (present : l.steps[k]? = some t) :
    l.Offers (String.join (texts ++ [s])) t e ↔
      e ∈ l.vocabulary.entries (.text (String.join ((texts ++ [s]).drop k))) := by
  constructor
  · rintro ⟨_, front, key, split, size, known⟩
    have cut := holds.slice_tail present s
    rw [split, ← size, Fragment.slice_append_right] at cut
    exact Except.ok.inj cut ▸ known
  · intro known
    obtain ⟨front, split, size⟩ := holds.split present s
    exact ⟨List.mem_of_getElem? present, front, _, split, size, known⟩

theorem Holds.arriving_error (holds : l.Holds texts)
    (failed : l.arriving (.text (String.join (texts ++ [s]))) = .error failure) :
    ∃ t n e, l.Misses (String.join (texts ++ [s])) t n e ∧
      failure = .invalid (.noConnection n.index t.inputTail) := by
  obtain refused | ⟨_, _, done⟩ := bind_error_iff.mp failed
  case inr => cases done
  obtain ⟨⟨t, k⟩, listed, refused⟩ := exists_of_mapM_error refused
  have place := List.mk_mem_zipIdx_iff_getElem?.mp listed
  change l.followers _ t k = _ at refused
  rw [Lattice.followers, holds.slice_tail place s] at refused
  obtain ⟨e, known, refused⟩ := exists_of_mapM_error refused
  obtain refused | ⟨_, _, done⟩ := bind_error_iff.mp refused
  case inr => cases done
  obtain ⟨n, member, strict, missing, cause⟩ := edgeCosts_error refused
  exact ⟨t, n, e, ⟨strict, (holds.offers_iff place).mpr known, member, missing⟩, cause⟩

/-- There is a node for the new step exactly if there is a word for it. -/
theorem Holds.arriving_nil_iff (holds : l.Holds texts) (filled : ∀ s ∈ l.steps, s.nodes ≠ [])
    (arrived : l.arriving (.text (String.join (texts ++ [s]))) = .ok nodes) :
    nodes = [] ↔ ∀ t e, ¬l.Offers (String.join (texts ++ [s])) t e := by
  have spells := holds.arriving filled arrived
  have whole : (texts ++ [s]).take (texts.length + 1) = texts ++ [s] :=
    List.take_of_length_le (by simp)
  constructor
  · rintro rfl t e offered
    obtain ⟨k, place⟩ := List.mem_iff_getElem?.mp offered.1
    have bound := (List.getElem?_eq_some_iff.mp place).1
    have count : l.steps.length = texts.length + 1 := holds.count
    have listed : (k, e) ∈ l.vocabulary.candidates (texts ++ [s]) (texts.length + 1) := by
      rw [Vocabulary.mem_candidates_iff, whole]
      exact ⟨count ▸ bound, (holds.offers_iff place).mp offered⟩
    rw [List.forall₂_nil_right_iff.mp spells] at listed
    contradiction
  · intro nothing
    by_contra more
    obtain ⟨n, member⟩ := List.exists_mem_of_ne_nil _ more
    obtain ⟨⟨k, e⟩, listed, t, realizes⟩ := exists_of_forall₂ spells member
    rw [Vocabulary.mem_candidates_iff, whole] at listed
    exact nothing t e ((holds.offers_iff realizes.present).mpr listed.2)

/-- Texts are always cut off again. -/
theorem Holds.undo (holds : l.Holds texts) (s : String) (failure : Failure) (events : List Event) :
    l.undo (.text (String.join (texts ++ [s]))) failure events = ⟨.error failure, l, events⟩ := by
  obtain ⟨vocabulary, policy, buffer, steps, settled⟩ := l
  obtain ⟨_, nothing⟩ | buffered := holds.buffer
  · dsimp only at nothing
    subst nothing
    rfl
  · dsimp only at buffered
    subst buffered
    rw [Lattice.undo, String.join_append]
    dsimp only
    rw [Fragment.slice_append_left]

theorem Holds.judged (holds : l.Holds texts) (filled : ∀ s ∈ l.steps, s.nodes ≠ []) (s : String) :
    l.Judged (String.join (texts ++ [s])) (l.push (.text s)) := by
  rw [Lattice.push, holds.extended s]
  by_cases settled : l.settled = true
  · rw [if_pos settled]
    exact .closed settled
  have unsettled := Bool.eq_false_iff.mpr settled
  rw [if_neg settled]
  dsimp only
  cases arrived : l.arriving (.text (String.join (texts ++ [s]))) with
  | error failure =>
    obtain ⟨t, n, e, misses, rfl⟩ := holds.arriving_error arrived
    dsimp only
    rw [holds.undo]
    exact .unconnected unsettled misses
  | ok nodes =>
    have exactly := holds.arriving_nil_iff filled arrived
    cases nodes with
    | nil =>
      dsimp only
      rw [holds.undo]
      exact .wordless unsettled (exactly.mp rfl)
    | cons n nodes =>
      have offered := exactly.not.mp (List.cons_ne_nil n nodes)
      push Not at offered
      obtain ⟨t, e, offered⟩ := offered
      refine .taken unsettled offered ?_
      rintro t n e ⟨strict, offered, member, missing⟩
      obtain ⟨cost, known⟩ := connects_of_reject strict arrived (offered.meets member)
      rw [missing] at known
      contradiction

/-- A text that is pushed is refused as misuse exactly if the lattice is settled. Before that it
is refused exactly if no word ends with it, or if a missing connection is refused and one is
missing between a node and a word that begins after its step. There is no other failure, and
none leaves a trace. A text that is not refused adds one step. -/
theorem push_text_fails_iff (reads : l.Reads texts) (s : String) :
    ∃ input, l.extended (.text s) = .ok (.text input) ∧
      ((∃ cause, (l.push (.text s)).result = .error (.misuse cause)) ↔ l.settled = true) ∧
      (l.settled = false →
        ((∃ cause, (l.push (.text s)).result = .error (.invalid cause)) ↔
          (∀ t e, ¬l.Offers input t e) ∨ ∃ t n e, l.Misses input t n e)) ∧
      (∀ failure, (l.push (.text s)).result = .error failure →
        (l.push (.text s)).lattice = l ∧ (failure = .misuse .settled ∨
          failure = .invalid .noNode ∨
          ∃ index offset, failure = .invalid (.noConnection index offset))) ∧
      ((l.push (.text s)).result = .ok () →
        ∃ nodes, (l.push (.text s)).lattice = { l with
          buffer := some (.text input), steps := l.steps ++ [⟨input.utf8ByteSize, nodes⟩] }) := by
  have judged := reads.holds.judged reads.reachable.wellFormed.filled s
  refine ⟨_, reads.holds.extended s, ?_⟩
  generalize String.join (texts ++ [s]) = input, l.push (.text s) = outcome at judged ⊢
  cases judged with
  | closed settled => simp [settled]
  | wordless unsettled nothing => simp [unsettled, nothing]
  | unconnected unsettled misses =>
    have missing : ∃ t n e, l.Misses input t n e := ⟨_, _, _, misses⟩
    simp [unsettled, missing]
  | taken unsettled offered connected =>
    have word : ∃ t e, l.Offers input t e := ⟨_, _, offered⟩
    simp [unsettled, word, connected]

end Lattice

namespace Umlaut

/-- Two words of one letter each, of which the second may not stand after the first. -/
def vocabulary : Vocabulary Empty Nat where
  entries
    | .text "ä" => [⟨some (.text "ä"), some 0, 1⟩]
    | .text "ß" => [⟨some (.text "ß"), some 1, 1⟩]
    | _ => []
  connection before _ := if before.entry.value = some 0 then none else some 0

def lattice : Lattice Empty Nat := ((Lattice.empty vocabulary .reject).push (.text "ä")).lattice

/-- After two bytes the second word is offered, and refused without a trace. An empty text is taken,
as the first word ends with it as well. -/
theorem push_text_fails_iff_umlaut : lattice.Reads ["ä"] ∧
    (∃ t n e, lattice.Misses "äß" t n e) ∧
    (∃ cause, (lattice.push (.text "ß")).result = .error (.invalid cause)) ∧
    (lattice.push (.text "ß")).lattice = lattice ∧
    ∃ nodes, (lattice.push (.text "")).lattice.steps = lattice.steps ++ [⟨2, nodes⟩] := by
  have reads : lattice.Reads ["ä"] := (Lattice.Reads.empty vocabulary .reject).accept rfl
  have misses : ∃ t n e, lattice.Misses "äß" t n e :=
    ⟨lattice.steps.get ⟨1, by decide⟩, _, ⟨some (.text "ß"), some 1, 1⟩, rfl,
      ⟨List.get_mem _ _, "ä", "ß", rfl, rfl, .head _⟩, .head _, rfl⟩
  obtain ⟨input, extended, _, exactly, failures, _⟩ := Lattice.push_text_fails_iff reads "ß"
  cases (show lattice.extended (.text "ß") = .ok (.text "äß") from rfl).symm.trans extended
  obtain ⟨cause, refused⟩ := (exactly rfl).mpr (.inr misses)
  obtain ⟨input', extended', _, _, _, taken⟩ := Lattice.push_text_fails_iff reads ""
  cases (show lattice.extended (.text "") = .ok (.text "ä") from rfl).symm.trans extended'
  obtain ⟨nodes, grown⟩ := taken rfl
  exact ⟨reads, misses, ⟨cause, refused⟩, (failures _ refused).1, nodes,
    congrArg Lattice.steps grown⟩

end Umlaut

end Segmentation
