import Segmentation.Proofs.Readings
import Segmentation.Proofs.Runs

/-! The life of a lattice, from its first push until after it is settled.
Its steps are only ever added to, and not even that once a settling has succeeded. Until then a
settling might as well not have been tried. -/
namespace Segmentation

variable {σ ν : Type}

/-- What can be done with a lattice: a call that may change it, or a look at one of its steps. -/
inductive Operation (σ : Type) where
  | call (call : Call σ)
  | look (step : Nat)

/-- An operation with its answer. -/
inductive Act (σ ν : Type) where
  | called (turn : Turn σ ν)
  | looked (step : Nat) (result : Except Failure (List (Node σ ν)))

namespace Act

def operation : Act σ ν → Operation σ
  | .called turn => .call turn.call
  | .looked step _ => .look step

/-- Whether it is a settling that has failed. -/
def isVain : Act σ ν → Bool
  | .called (.settled (.error _)) => true
  | _ => false

/-- Whether a lattice that has been settled with this end can answer so. -/
def Final (eos : Node σ ν) : Act σ ν → Prop
  | .called (.pushed _ result) => result = .error (.misuse .settled)
  | .called (.settled result) => result = .ok eos
  | .looked _ _ => True

end Act

/-- The acts without the settlings that have failed. -/
def effective (log : List (Act σ ν)) : List (Act σ ν) := log.filter fun act => !act.isVain

namespace Lattice

variable {l : Lattice σ ν} {eos : Node σ ν}

/-- A settling that fails leaves no trace, one that succeeds leaves its mark and nothing else. -/
theorem settle_cases (l : Lattice σ ν) :
    (∃ cause, l.settle.result = .error cause ∧ l.settle.lattice = l) ∨
    ∃ eos, l.settle.result = .ok eos ∧ l.settle.lattice = { l with settled := true } := by
  unfold settle
  dsimp only
  split
  next cause _ => exact .inl ⟨cause, rfl, rfl⟩
  next =>
    split
    · exact .inl ⟨_, rfl, rfl⟩
    · exact .inr ⟨_, rfl, rfl⟩

theorem settle_of_ok (settled : l.settle.result = .ok eos) :
    l.settle.lattice = { l with settled := true } := by
  obtain ⟨_, failed, _⟩ | ⟨_, _, marked⟩ := l.settle_cases
  · rw [failed] at settled
    contradiction
  · exact marked

theorem settle_of_error {cause : Failure} (failed : l.settle.result = .error cause) :
    l.settle.lattice = l := by
  obtain ⟨_, _, unchanged⟩ | ⟨_, settled, _⟩ := l.settle_cases
  · exact unchanged
  · rw [settled] at failed
    contradiction

/-- Whether a lattice can be settled, and with which end, depends on what has been pushed, and
not on whether it has been settled before. -/
theorem settle_result_of_settled (settled : Bool) :
    ({ l with settled := settled } : Lattice σ ν).settle.result = l.settle.result := by
  unfold settle edgeCosts stepCount
  dsimp only
  split
  · rfl
  · split <;> rfl

variable [Sequence σ]

theorem push_settled (l : Lattice σ ν) (fragment : Fragment σ) :
    (l.push fragment).lattice.settled = l.settled := by
  obtain ⟨_, refused, _⟩ | ⟨_, input, _, undone | added⟩ := l.push_cases fragment
  · rw [refused]
  · obtain ⟨failure, events, undone⟩ := undone
    obtain ⟨buffer, left⟩ := l.undo_lattice input failure events
    rw [undone, left]
  · obtain ⟨_, _, _, _, added⟩ := added
    rw [added]

theorem push_of_settled (settled : l.settled = true) (fragment : Fragment σ) :
    l.push fragment = ⟨.error (.misuse .settled), l, []⟩ := by
  rw [push, if_pos settled]

def act (l : Lattice σ ν) : Operation σ → Act σ ν × Lattice σ ν
  | .call call => (.called (l.turn call).1, (l.turn call).2)
  | .look step => (.looked step (l.nodesAt step), l)

/-- Operations one after the other, with what they lead to. -/
def acts (l : Lattice σ ν) : List (Operation σ) → List (Act σ ν) × Lattice σ ν
  | [] => ([], l)
  | operation :: operations =>
    let (first, l) := l.act operation
    let (later, l) := l.acts operations
    (first :: later, l)

variable {operation : Operation σ} {operations : List (Operation σ)}

theorem acts_cons (l : Lattice σ ν) (operation : Operation σ) (operations : List (Operation σ)) :
    l.acts (operation :: operations) =
      ((l.act operation).1 :: ((l.act operation).2.acts operations).1,
        ((l.act operation).2.acts operations).2) := rfl

theorem act_operation (l : Lattice σ ν) (operation : Operation σ) :
    (l.act operation).1.operation = operation := by
  cases operation with
  | call call => exact congrArg Operation.call (l.turn_call call)
  | look step => rfl

/-- The steps are only ever added to. -/
theorem act_steps (l : Lattice σ ν) (operation : Operation σ) :
    l.steps <+: (l.act operation).2.steps := by
  cases operation with
  | look step => exact List.prefix_rfl
  | call call =>
    cases call with
    | settle => simp [act, turn, settle_steps]
    | push fragment =>
      obtain same | ⟨_, _, _, _, grown⟩ := l.push_steps fragment
      · simp [act, turn, same]
      · exact ⟨_, grown.symm⟩

theorem acts_steps (l : Lattice σ ν) (operations : List (Operation σ)) :
    l.steps <+: (l.acts operations).2.steps := by
  induction operations generalizing l with
  | nil => exact List.prefix_rfl
  | cons operation operations ih => exact (l.act_steps operation).trans (ih _)

omit [Sequence σ] in
theorem nodesAt_of_longer {l' : Lattice σ ν} (longer : l.steps <+: l'.steps) {step : Nat}
    {nodes : List (Node σ ν)} (there : l.nodesAt step = .ok nodes) :
    l'.nodesAt step = .ok nodes := by
  obtain ⟨s, present, rfl⟩ := nodesAt_eq_ok_iff.mp there
  exact nodesAt_eq_ok_iff.mpr ⟨s, getElem?_of_prefix longer present, rfl⟩

/-- Once there is a step, every look at it shows the same nodes. -/
theorem acts_looked {step : Nat} {nodes : List (Node σ ν)} (there : l.nodesAt step = .ok nodes)
    {result : Except Failure (List (Node σ ν))}
    (looked : .looked step result ∈ (l.acts operations).1) : result = .ok nodes := by
  induction operations generalizing l with
  | nil => cases looked
  | cons operation operations ih =>
    rw [acts_cons, List.mem_cons] at looked
    obtain now | later := looked
    · cases operation with
      | call call => cases now
      | look step =>
        cases now
        exact there
    · exact ih (nodesAt_of_longer (l.act_steps operation) there) later

/-- A settling that succeeds settles the lattice, and nothing else does. -/
theorem act_settled (l : Lattice σ ν) (operation : Operation σ) :
    (l.act operation).2.settled = true ↔
      l.settled = true ∨ ∃ eos, (l.act operation).1 = .called (.settled (.ok eos)) := by
  cases operation with
  | look step => simp [act]
  | call call =>
    cases call with
    | push fragment => simp [act, turn, push_settled]
    | settle =>
      cases result : l.settle.result with
      | ok eos => simp [act, turn, result, settle_of_ok result]
      | error cause => simp [act, turn, result, settle_of_error result]

theorem acts_settled (l : Lattice σ ν) (operations : List (Operation σ)) :
    (l.acts operations).2.settled = true ↔
      l.settled = true ∨ ∃ eos, .called (.settled (.ok eos)) ∈ (l.acts operations).1 := by
  induction operations generalizing l with
  | nil => simp [acts]
  | cons operation operations ih =>
    simp only [acts_cons, ih, act_settled, List.mem_cons, exists_or, or_assoc,
      eq_comm (a := Act.called _)]

/-- A lattice that has been settled, with this end. -/
structure Closed (l : Lattice σ ν) (eos : Node σ ν) : Prop where
  settled : l.settled = true
  again : l.settle.result = .ok eos

theorem Closed.act (closed : l.Closed eos) (operation : Operation σ) :
    (l.act operation).2 = l ∧ (l.act operation).1.Final eos := by
  cases operation with
  | look step => exact ⟨rfl, trivial⟩
  | call call =>
    cases call with
    | push fragment =>
      have refused := push_of_settled closed.settled fragment
      exact ⟨congrArg Outcome.lattice refused, congrArg Outcome.result refused⟩
    | settle =>
      have unchanged : { l with settled := true } = l := closed.settled ▸ rfl
      exact ⟨(settle_of_ok closed.again).trans unchanged, closed.again⟩

theorem Closed.acts (closed : l.Closed eos) (operations : List (Operation σ)) :
    (l.acts operations).2 = l ∧ ∀ act ∈ (l.acts operations).1, act.Final eos := by
  induction operations with
  | nil => exact ⟨rfl, by simp [Lattice.acts]⟩
  | cons operation operations ih =>
    obtain ⟨same, final⟩ := closed.act operation
    simp only [acts_cons, same]
    exact ⟨ih.1, List.forall_mem_cons.mpr ⟨final, ih.2⟩⟩

/-- After the first settling that succeeds the lattice is closed. -/
theorem closed_of_mem (l : Lattice σ ν)
    (settled : .called (.settled (.ok eos)) ∈ (l.acts operations).1) :
    (l.acts operations).2.Closed eos := by
  induction operations generalizing l with
  | nil => cases settled
  | cons operation operations ih =>
    rw [acts_cons, List.mem_cons] at settled
    obtain now | later := settled
    · -- from here on nothing changes any more
      have closed : (l.act operation).2.Closed eos := by
        obtain (fragment | _) | step := operation
        · cases now
        · have found : l.settle.result = .ok eos := by
            simpa [act, turn, eq_comm] using now
          have marked : (l.act (.call .settle)).2 = { l with settled := true } := settle_of_ok found
          rw [marked]
          exact ⟨rfl, (settle_result_of_settled true).trans found⟩
        · cases now
      rw [acts_cons, (closed.acts operations).1]
      exact closed
    · exact ih _ later

theorem act_of_vain (vain : (l.act operation).1.isVain = true) : (l.act operation).2 = l := by
  obtain (fragment | _) | step := operation
  · cases vain
  · cases result : l.settle.result with
    | ok eos => simp [act, turn, result, Act.isVain] at vain
    | error cause => exact settle_of_error result
  · cases vain

/-- Without the settlings that fail, everything else is answered as before. -/
theorem acts_effective (l : Lattice σ ν) (operations : List (Operation σ)) :
    l.acts ((effective (l.acts operations).1).map Act.operation) =
      (effective (l.acts operations).1, (l.acts operations).2) := by
  induction operations generalizing l with
  | nil => rfl
  | cons operation operations ih =>
    have onward := ih (l.act operation).2
    rw [acts_cons, effective, List.filter_cons]
    cases vain : (l.act operation).1.isVain with
    | false =>
      rw [Bool.not_false, if_pos rfl, List.map_cons, act_operation, acts_cons]
      exact congrArg (fun rest => (_ :: rest.1, rest.2)) onward
    | true =>
      rw [act_of_vain vain] at onward ⊢
      exact onward

/-- Whatever is done with an empty lattice: it is settled exactly if some settling has succeeded.
A settling that fails changes nothing, and without those that have failed everything else is
answered as it was. After one that has succeeded every push is refused, every settling gives the
same end, and the lattice stays as it is. A step that there is never changes. -/
theorem acts_consistent (vocabulary : Vocabulary σ ν) (policy : Policy) {log : List (Act σ ν)}
    (done : (empty vocabulary policy).acts operations = (log, l)) :
    (l.settled = true ↔ ∃ eos, .called (.settled (.ok eos)) ∈ log) ∧
    (∀ cause, l.settle.result = .error cause → l.settle.lattice = l) ∧
    (empty vocabulary policy).acts ((effective log).map Act.operation) = (effective log, l) ∧
    ∀ further log' l', l.acts further = (log', l') →
      (∀ eos, .called (.settled (.ok eos)) ∈ log → l' = l ∧ ∀ act ∈ log', act.Final eos) ∧
      l.steps <+: l'.steps ∧
      ∀ step nodes, l.nodesAt step = .ok nodes → l'.nodesAt step = .ok nodes ∧
        ∀ result, .looked step result ∈ log' → result = .ok nodes := by
  obtain ⟨rfl, rfl⟩ := Prod.mk.inj done
  refine ⟨?settled, fun cause => settle_of_error, acts_effective _ operations, ?onward⟩
  case settled => simp [acts_settled, empty]
  case onward =>
    intro further log' l' continued
    obtain ⟨rfl, rfl⟩ := Prod.mk.inj continued
    refine ⟨?_, acts_steps _ further, ?_⟩
    · intro eos settled
      exact (closed_of_mem _ settled).acts further
    · intro step nodes there
      exact ⟨nodesAt_of_longer (acts_steps _ further) there, fun result => acts_looked there⟩

end Lattice

namespace Gap

def operations : List (Operation Empty) :=
  [.call (.push (.text "ab")), .call .settle, .look 1, .call (.push (.text "a")), .call .settle]

/-- The same without the first settling and the look at a step. -/
def direct : Lattice Empty Nat := .ofTexts vocabulary ["ab", "a"]

/-- After "ab" there is no settling, as this word may not stand at the end, but another push is
possible. After the second settling none is. -/
theorem acts_consistent_ab : ∃ log l,
    (Lattice.empty vocabulary .unreachable).acts operations = (log, l) ∧
    log.map Act.isVain = [false, true, false, false, false] ∧
    .called (.settled (.ok direct.ending)) ∈ log ∧ l.settled = true ∧
    (l.acts [.call (.push (.text "b")), .call .settle]).2 = l ∧
    ∀ act ∈ (l.acts [.call (.push (.text "b")), .call .settle]).1, act.Final direct.ending := by
  have done : (Lattice.empty vocabulary .unreachable).acts operations = _ := rfl
  have last : (((Lattice.empty vocabulary .unreachable).acts operations).1)[4]? =
      some (.called (.settled (.ok direct.ending))) := rfl
  have settled := List.mem_of_getElem? last
  obtain ⟨closed, _, _, onward⟩ := Lattice.acts_consistent vocabulary .unreachable done
  obtain ⟨same, final⟩ := (onward _ _ _ rfl).1 direct.ending settled
  exact ⟨_, _, done, rfl, settled, closed.mpr ⟨_, settled⟩, same, final⟩

end Gap

end Segmentation
