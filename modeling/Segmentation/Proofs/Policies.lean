import Segmentation.Proofs.Settling

/-! The two rules for a word that may not stand after a node.
A lattice that refuses the input asks for the same connections as one that keeps such a word out
of reach, up to the first that is missing. If it accepts everything, there is no difference. -/
namespace Segmentation

variable {σ ν : Type}

/-- Pushes, and a settling after them. -/
def closing (fragments : List (Fragment σ)) : List (Call σ) := fragments.map .push ++ [.settle]

def Turn.Succeeds : Turn σ ν → Prop
  | .pushed _ result => result = .ok ()
  | .settled result => ∃ eos, result = .ok eos

instance : (turn : Turn σ ν) → Decidable turn.Succeeds
  | .pushed _ (.ok ()) => .isTrue rfl
  | .pushed _ (.error _) => .isFalse fun done => by cases done
  | .settled (.ok eos) => .isTrue ⟨eos, rfl⟩
  | .settled (.error _) => .isFalse fun ⟨_, done⟩ => by cases done

def AllSucceed (log : List (Turn σ ν)) : Prop := ∀ turn ∈ log, turn.Succeeds

instance (log : List (Turn σ ν)) : Decidable (AllSucceed log) :=
  inferInstanceAs (Decidable (∀ turn ∈ log, turn.Succeeds))

theorem allSucceed_cons {turn : Turn σ ν} {log : List (Turn σ ν)} :
    AllSucceed (turn :: log) ↔ turn.Succeeds ∧ AllSucceed log :=
  List.forall_mem_cons

/-- If on each member one function succeeds where another one does and a condition holds, it does
so on the whole list. -/
theorem mapM_of_guarded {α β ε : Type} {f g : α → Except ε β} {p : α → Prop} {xs : List α}
    {ys : List β} (guarded : ∀ x y, f x = .ok y ↔ p x ∧ g x = .ok y) :
    xs.mapM f = .ok ys ↔ (∀ x ∈ xs, p x) ∧ xs.mapM g = .ok ys := by
  simp only [mapM_ok_iff, guarded, List.forall₂_and_left]

namespace Lattice

/-- The lattice as it is, under a rule that need not be its own. -/
def under (l : Lattice σ ν) (policy : Policy) : Lattice σ ν := { l with policy := policy }

/-- A word may stand after a node, at whatever cost. -/
def Connects (l : Lattice σ ν) (n : Node σ ν) (e : Entry σ ν) : Prop :=
  ∃ cost, l.vocabulary.connection n e = some cost

variable [Sequence σ]

/-- With this input, a push comes upon a word that begins after the step, which has the node. -/
def MeetsAfter (l : Lattice σ ν) (input : Fragment σ) (s : Step σ ν) (n : Node σ ν)
    (e : Entry σ ν) : Prop :=
  n ∈ s.nodes ∧ ∃ key, input.slice s.inputTail (input.length - s.inputTail) = .ok key ∧
    e ∈ l.vocabulary.entries key

/-- It does so after one of the steps. -/
def Meets (l : Lattice σ ν) (input : Fragment σ) (n : Node σ ν) (e : Entry σ ν) : Prop :=
  ∃ s ∈ l.steps, l.MeetsAfter input s n e

/-- One of several pushes comes upon the word after the node, or the settling after them does. -/
def MeetsAlong (l : Lattice σ ν) : List (Fragment σ) → Node σ ν → Entry σ ν → Prop
  | [], n, e => n ∈ (l.steps.getLastD .start).nodes ∧ e = .sentinel
  | fragment :: fragments, n, e =>
    (∃ input, l.extended fragment = .ok input ∧ l.Meets input n e) ∨
      (l.push fragment).lattice.MeetsAlong fragments n e

variable {l : Lattice σ ν} {s : Step σ ν} {e : Entry σ ν} {n : Node σ ν} {step : Nat}
  {fragment input : Fragment σ} {fragments : List (Fragment σ)} {nodes : List (Node σ ν)}

omit [Sequence σ] in
theorem edgeCosts_reject_iff {costs : List Cost} :
    (l.under .reject).edgeCosts s e = .ok costs ↔
      (∀ n ∈ s.nodes, l.Connects n e) ∧ (l.under .unreachable).edgeCosts s e = .ok costs := by
  refine mapM_of_guarded ?_
  intro n edge
  simp only [under, Connects]
  cases l.vocabulary.connection n e <;> simp

theorem followers_reject_iff : (l.under .reject).followers input s step = .ok nodes ↔
    (∀ n e, l.MeetsAfter input s n e → l.Connects n e) ∧
    (l.under .unreachable).followers input s step = .ok nodes := by
  unfold followers MeetsAfter
  cases input.slice s.inputTail (input.length - s.inputTail) with
  | error failure => simp [bind, Except.bind]
  | ok key =>
    have guarded : (∀ e ∈ l.vocabulary.entries key, ∀ n ∈ s.nodes, l.Connects n e) ↔
        ∀ n e, (n ∈ s.nodes ∧ ∃ key', Except.ok key = Except.ok (ε := Failure) key' ∧
          e ∈ l.vocabulary.entries key') → l.Connects n e := by
      simp only [Except.ok.injEq, exists_eq_left', and_imp]
      exact ⟨fun all n e inside known => all e known n inside,
        fun all e known n inside => all n e inside known⟩
    rw [← guarded]
    refine mapM_of_guarded ?_
    intro e n
    simp only [bind_ok_iff, edgeCosts_reject_iff, and_assoc, exists_and_left]

theorem arriving_reject_iff : (l.under .reject).arriving input = .ok nodes ↔
    (∀ n e, l.Meets input n e → l.Connects n e) ∧
    (l.under .unreachable).arriving input = .ok nodes := by
  have groups (found : List (List (Node σ ν))) :
      l.steps.zipIdx.mapM (fun place => (l.under .reject).followers input place.1 place.2) =
          .ok found ↔
        (∀ place ∈ l.steps.zipIdx, ∀ n e, l.MeetsAfter input place.1 n e → l.Connects n e) ∧
        l.steps.zipIdx.mapM (fun place => (l.under .unreachable).followers input place.1 place.2) =
          .ok found := mapM_of_guarded fun _ _ => followers_reject_iff
  have met : (∀ place ∈ l.steps.zipIdx, ∀ n e,
      l.MeetsAfter input place.1 n e → l.Connects n e) ↔
      ∀ n e, l.Meets input n e → l.Connects n e := by
    constructor
    · rintro all n e ⟨s, present, met⟩
      obtain ⟨step, inside⟩ := List.mem_iff_getElem?.mp present
      exact all (s, step) (List.mk_mem_zipIdx_iff_getElem?.mpr inside) n e met
    · rintro all ⟨s, step⟩ listed n e met
      have inside := List.mk_mem_zipIdx_iff_getElem?.mp listed
      exact all n e ⟨s, List.mem_of_getElem? inside, met⟩
  rw [← met, arriving, arriving, bind_ok_iff, bind_ok_iff, ← exists_and_left]
  refine exists_congr fun found => ?_
  rw [← and_assoc]
  exact and_congr_left' (groups found)

theorem push_reject_iff : ((l.under .reject).push fragment).result = .ok () ↔
    (∀ input, l.extended fragment = .ok input → ∀ n e, l.Meets input n e → l.Connects n e) ∧
    ((l.under .unreachable).push fragment).result = .ok () := by
  simp only [push_ok_iff, arriving_reject_iff]
  constructor
  · rintro ⟨accepts, input, nodes, extended, ⟨connected, arrived⟩, nonempty⟩
    refine ⟨?_, accepts, input, nodes, extended, arrived, nonempty⟩
    intro input' extended'
    obtain rfl := Except.ok.inj (extended.symm.trans extended')
    exact connected
  · rintro ⟨connected, accepts, input, nodes, extended, arrived, nonempty⟩
    exact ⟨accepts, input, nodes, extended, ⟨connected input extended, arrived⟩, nonempty⟩

/-- A push that nothing is missing for leads to the same lattice under both rules. -/
theorem push_of_reject (pushed : ((l.under .reject).push fragment).result = .ok ()) :
    ∃ l' : Lattice σ ν, l'.vocabulary = l.vocabulary ∧
      ((l.under .reject).push fragment).lattice = l'.under .reject ∧
      ((l.under .unreachable).push fragment).lattice = l'.under .unreachable := by
  obtain ⟨input, nodes, extended, arrived, added⟩ := push_ok pushed
  obtain ⟨input', nodes', extended', arrived', added'⟩ := push_ok (push_reject_iff.mp pushed).2
  obtain rfl := Except.ok.inj (extended.symm.trans extended')
  obtain rfl := Except.ok.inj ((arriving_reject_iff.mp arrived).2.symm.trans arrived')
  exact ⟨{ l with buffer := some input, steps := l.steps ++ [⟨input.length, nodes⟩] },
    rfl, added, added'⟩

omit [Sequence σ] in
theorem settle_reject_iff {eos : Node σ ν} : (l.under .reject).settle.result = .ok eos ↔
    (∀ n ∈ (l.steps.getLastD .start).nodes, l.Connects n .sentinel) ∧
    (l.under .unreachable).settle.result = .ok eos := by
  simp only [settle_eq_ok_iff, edgeCosts_reject_iff, and_assoc, exists_and_left]
  rfl

theorem run_closing_cons (l : Lattice σ ν) (fragment : Fragment σ) (fragments : List (Fragment σ)) :
    l.run (closing (fragment :: fragments)) =
      (.pushed fragment (l.push fragment).result ::
          ((l.push fragment).lattice.run (closing fragments)).1,
        ((l.push fragment).lattice.run (closing fragments)).2) := rfl

/-- A run succeeds under the rule that refuses exactly if it does under the other one and no
connection is missing that is asked for. -/
theorem run_reject_iff (l : Lattice σ ν) (fragments : List (Fragment σ)) :
    AllSucceed ((l.under .reject).run (closing fragments)).1 ↔
      (∀ n e, (l.under .unreachable).MeetsAlong fragments n e → l.Connects n e) ∧
      AllSucceed ((l.under .unreachable).run (closing fragments)).1 := by
  induction fragments generalizing l with
  | nil =>
    have single (policy : Policy) : AllSucceed ((l.under policy).run (closing [])).1 ↔
        ∃ eos, (l.under policy).settle.result = .ok eos :=
      List.forall_mem_singleton
    rw [single, single]
    simp only [settle_reject_iff, exists_and_left, MeetsAlong]
    refine and_congr_left' ⟨?_, fun connected n inside => connected n _ ⟨inside, rfl⟩⟩
    rintro connected n _ ⟨inside, rfl⟩
    exact connected n inside
  | cons fragment fragments ih =>
    rw [run_closing_cons, run_closing_cons, allSucceed_cons, allSucceed_cons]
    constructor
    · rintro ⟨pushed, onward⟩
      obtain ⟨connected, pushed'⟩ := push_reject_iff.mp pushed
      obtain ⟨l', same, strictly, leniently⟩ := push_of_reject pushed
      rw [strictly] at onward
      rw [leniently]
      obtain ⟨further, onward'⟩ := (ih l').mp onward
      refine ⟨?_, pushed', onward'⟩
      rintro n e (⟨input, extended, met⟩ | met)
      · exact connected input extended n e met
      · rw [leniently] at met
        rw [Connects, ← same]
        exact further n e met
    · rintro ⟨connected, pushed', onward'⟩
      have pushed := push_reject_iff.mpr
        ⟨fun input extended n e met => connected n e (.inl ⟨input, extended, met⟩), pushed'⟩
      obtain ⟨l', same, strictly, leniently⟩ := push_of_reject pushed
      rw [leniently] at onward'
      rw [strictly]
      refine ⟨pushed, (ih l').mpr ⟨?_, onward'⟩⟩
      intro n e met
      rw [Connects, same]
      refine connected n e (.inr ?_)
      rw [leniently]
      exact met

/-- If it does, both rules lead to the same answers and the same lattice. -/
theorem run_of_reject (l : Lattice σ ν) (fragments : List (Fragment σ))
    (done : AllSucceed ((l.under .reject).run (closing fragments)).1) :
    (l.under .unreachable).run (closing fragments) =
      (((l.under .reject).run (closing fragments)).1,
        ((l.under .reject).run (closing fragments)).2.under .unreachable) := by
  induction fragments generalizing l with
  | nil =>
    obtain ⟨eos, settled⟩ := List.forall_mem_singleton.mp done
    have settled' := (settle_reject_iff.mp settled).2
    change ([.settled (l.under .unreachable).settle.result],
        (l.under .unreachable).settle.lattice) =
      (([.settled (l.under .reject).settle.result] : List (Turn σ ν)),
        (l.under .reject).settle.lattice.under .unreachable)
    rw [settled, settled', settle_of_ok settled, settle_of_ok settled']
    rfl
  | cons fragment fragments ih =>
    rw [run_closing_cons, allSucceed_cons] at done
    obtain ⟨pushed, onward⟩ := done
    have pushed' := (push_reject_iff.mp pushed).2
    obtain ⟨l', _, strictly, leniently⟩ := push_of_reject pushed
    rw [strictly] at onward
    rw [run_closing_cons, run_closing_cons, strictly, leniently, pushed, pushed', ih l' onward]

/-- Pushes and a settling that all succeed where a missing connection is refused do so, with the
same answers and steps, where it is only out of reach. Where it is out of reach and all succeed,
they also do where it is refused exactly if no connection is missing between a node and a word
after it, the end included, that they come upon. A push that fails where it is only out of reach
fails for the same lattice where it is refused. -/
theorem policies_agree (vocabulary : Vocabulary σ ν) (fragments : List (Fragment σ))
    {strictly leniently : List (Turn σ ν)} {l l' : Lattice σ ν}
    (rejecting : (empty vocabulary .reject).run (closing fragments) = (strictly, l))
    (keeping : (empty vocabulary .unreachable).run (closing fragments) = (leniently, l')) :
    (AllSucceed strictly → leniently = strictly ∧ l' = l.under .unreachable) ∧
    (AllSucceed leniently → (AllSucceed strictly ↔ ∀ n e,
      (empty vocabulary .unreachable).MeetsAlong fragments n e →
        ∃ cost, vocabulary.connection n e = some cost)) ∧
    ∀ (now : Lattice σ ν) fragment cause,
      ((now.under .unreachable).push fragment).result = .error cause →
        ∃ cause', ((now.under .reject).push fragment).result = .error cause' := by
  have agree : AllSucceed ((empty vocabulary .reject).run (closing fragments)).1 →
      (empty vocabulary .unreachable).run (closing fragments) =
        (((empty vocabulary .reject).run (closing fragments)).1,
          ((empty vocabulary .reject).run (closing fragments)).2.under .unreachable) :=
    run_of_reject (empty vocabulary .reject) fragments
  have exactly : AllSucceed ((empty vocabulary .reject).run (closing fragments)).1 ↔
      (∀ n e, (empty vocabulary .unreachable).MeetsAlong fragments n e →
        ∃ cost, vocabulary.connection n e = some cost) ∧
      AllSucceed ((empty vocabulary .unreachable).run (closing fragments)).1 :=
    run_reject_iff (empty vocabulary .reject) fragments
  rw [rejecting, keeping] at agree exactly
  refine ⟨fun done => Prod.mk.inj (agree done), ?_, ?_⟩
  · intro done
    rw [exactly, and_iff_left done]
  · intro now fragment cause failed
    cases pushed : ((now.under .reject).push fragment).result with
    | error cause' => exact ⟨cause', rfl⟩
    | ok =>
      rw [(push_reject_iff.mp pushed).2] at failed
      contradiction

end Lattice

namespace Overlap

/-- Nothing is missing for "a" alone. With "b" after it both rules differ, as this word may not
stand after one of the readings of the other. -/
theorem policies_agree_first :
    ((Lattice.empty vocabulary .unreachable).run (closing [.text "a"])).1 =
      ((Lattice.empty vocabulary .reject).run (closing [.text "a"])).1 ∧
    AllSucceed ((Lattice.empty vocabulary .unreachable).run (closing [.text "a", .text "b"])).1 ∧
    ¬ AllSucceed ((Lattice.empty vocabulary .reject).run (closing [.text "a", .text "b"])).1 ∧
    ∃ n e, (Lattice.empty vocabulary .unreachable).MeetsAlong [.text "a", .text "b"] n e ∧
      ¬ ∃ cost, vocabulary.connection n e = some cost := by
  have kept : AllSucceed ((Lattice.empty vocabulary .unreachable).run
    (closing [.text "a", .text "b"])).1 := by decide
  have refused : ¬ AllSucceed ((Lattice.empty vocabulary .reject).run
    (closing [.text "a", .text "b"])).1 := by decide
  obtain ⟨agree, _⟩ := Lattice.policies_agree vocabulary [.text "a"] rfl rfl
  obtain ⟨_, exactly, _⟩ := Lattice.policies_agree vocabulary [.text "a", .text "b"] rfl rfl
  refine ⟨(agree (by decide)).1, kept, refused, ?_⟩
  simpa only [not_forall, exists_prop] using mt (exactly kept).mpr refused

end Overlap

end Segmentation
