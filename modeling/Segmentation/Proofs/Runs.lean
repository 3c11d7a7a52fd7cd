import Segmentation.Proofs.Concatenation
import Segmentation.Proofs.Undo

/-! Runs of pushes and settlings, with the answer to each of them.
A push that is refused leaves no trace: the buffer is what has been accepted, in one piece, and
a run without the refused pushes gives the same answers and the same lattice. -/
namespace Segmentation

variable {σ ν α : Type}

/-- What a lattice is asked to do. -/
inductive Call (σ : Type) where
  | push (fragment : Fragment σ)
  | settle

/-- A call with its answer. -/
inductive Turn (σ ν : Type) where
  | pushed (fragment : Fragment σ) (result : Except Failure Unit)
  | settled (result : Except Failure (Node σ ν))

namespace Turn

def call : Turn σ ν → Call σ
  | .pushed fragment _ => .push fragment
  | .settled _ => .settle

/-- The fragment of a push that has succeeded. -/
def accepted : Turn σ ν → Option (Fragment σ)
  | .pushed fragment (.ok ()) => some fragment
  | _ => none

/-- Whether the turn is a push that has failed. -/
def isRefused : Turn σ ν → Bool
  | .pushed _ (.error _) => true
  | _ => false

end Turn

/-- The fragments that have been accepted, in their order. -/
def accepted (log : List (Turn σ ν)) : List (Fragment σ) := log.filterMap Turn.accepted

theorem accepted_cons (turn : Turn σ ν) (log : List (Turn σ ν)) :
    accepted (turn :: log) = turn.accepted.toList ++ accepted log := by
  rw [accepted, List.filterMap_cons]
  cases turn.accepted <;> rfl

/-- The turns without the pushes that have been refused. -/
def kept (log : List (Turn σ ν)) : List (Turn σ ν) := log.filter fun turn => !turn.isRefused

namespace Lattice

/-- What a lattice has taken in: the buffer is made of these fragments, and each step ends
where as many of them end as there are steps before it. -/
structure TakenIn [Sequence σ] (joins : Fragment σ → List (Fragment σ) → Prop) (l : Lattice σ ν)
    (fragments : List (Fragment σ)) : Prop where
  buffer : (l.buffer = none ∧ fragments = []) ∨
    ∃ input, l.buffer = some input ∧ fragments ≠ [] ∧ joins input fragments
  count : l.stepCount = fragments.length + 1
  tails : ∀ (i : Nat) (s : Step σ ν), l.steps[i]? = some s →
    s.inputTail = ((fragments.take i).map Fragment.length).sum

variable [Sequence σ]

def turn (l : Lattice σ ν) : Call σ → Turn σ ν × Lattice σ ν
  | .push fragment => (.pushed fragment (l.push fragment).result, (l.push fragment).lattice)
  | .settle => (.settled l.settle.result, l.settle.lattice)

/-- Calls one after the other, with what they lead to. -/
def run (l : Lattice σ ν) : List (Call σ) → List (Turn σ ν) × Lattice σ ν
  | [] => ([], l)
  | call :: calls =>
    let (first, l) := l.turn call
    let (later, l) := l.run calls
    (first :: later, l)

variable {l : Lattice σ ν} {kind : Fragment σ → Prop} {fragment : Fragment σ}
  {joins : Fragment σ → List (Fragment σ) → Prop} {fragments : List (Fragment σ)}

theorem run_cons (l : Lattice σ ν) (call : Call σ) (calls : List (Call σ)) :
    l.run (call :: calls) =
      ((l.turn call).1 :: ((l.turn call).2.run calls).1, ((l.turn call).2.run calls).2) := rfl

theorem turn_call (l : Lattice σ ν) (call : Call σ) : (l.turn call).1.call = call := by
  cases call <;> rfl

theorem takenIn_empty (joins : Fragment σ → List (Fragment σ) → Prop)
    (vocabulary : Vocabulary σ ν) (policy : Policy) :
    (empty vocabulary policy).TakenIn joins [] where
  buffer := .inl ⟨rfl, rfl⟩
  count := rfl
  tails i s present := by
    obtain rfl := List.mem_singleton.mp (List.mem_of_getElem? present)
    rw [List.take_nil]
    rfl

namespace TakenIn

theorem settle (taken : l.TakenIn joins fragments) : l.settle.lattice.TakenIn joins fragments := by
  obtain ⟨settled, same⟩ := settle_lattice l
  rw [same]
  exact ⟨taken.buffer, taken.count, taken.tails⟩

/-- The buffer is as long as the fragments together. -/
theorem length (assembles : Fragment.Assembles kind joins) (taken : l.TakenIn joins fragments) :
    (l.buffer.map Fragment.length).getD 0 = (fragments.map Fragment.length).sum := by
  obtain ⟨nothing, rfl⟩ | ⟨input, buffered, _, joined⟩ := taken.buffer
  · rw [nothing]
    rfl
  · rw [buffered]
    exact assembles.length input fragments joined

/-- The last step ends with the buffer. -/
theorem last (assembles : Fragment.Assembles kind joins) (taken : l.TakenIn joins fragments)
    {s : Step σ ν} (present : l.steps.getLast? = some s) :
    s.inputTail = (l.buffer.map Fragment.length).getD 0 := by
  have count : l.steps.length = fragments.length + 1 := taken.count
  rw [List.getLast?_eq_getElem?, count] at present
  rw [taken.tails _ s present, taken.length assembles, Nat.add_sub_cancel, List.take_length]

/-- No step ends beyond the buffer. -/
theorem inputTail_le (taken : l.TakenIn joins fragments) {s : Step σ ν} (member : s ∈ l.steps) :
    s.inputTail ≤ (fragments.map Fragment.length).sum := by
  obtain ⟨i, present⟩ := List.mem_iff_getElem?.mp member
  have whole := congrArg (fun all => (all.map Fragment.length).sum)
    (List.take_append_drop i fragments)
  simp only [List.map_append, List.sum_append] at whole
  rw [taken.tails i s present, ← whole]
  exact Nat.le_add_right _ _

theorem extended (assembles : Fragment.Assembles kind joins) (taken : l.TakenIn joins fragments)
    (same : kind fragment) : ∃ input, l.extended fragment = .ok input ∧
      joins input (fragments ++ [fragment]) ∧ l.Restorable fragment := by
  obtain ⟨nothing, rfl⟩ | ⟨whole, buffered, _, joined⟩ := taken.buffer
  · refine ⟨fragment, ?_, assembles.single fragment same, ?_⟩
    · rw [Lattice.extended, nothing]
    · intro old _ buffered
      rw [nothing] at buffered
      contradiction
  · obtain ⟨input, appended, joined', cut⟩ := assembles.append whole fragments fragment joined same
    refine ⟨input, ?_, joined', ?_⟩
    · rw [extended_of_buffered buffered, appended]
    · intro old other buffered' appended'
      obtain rfl := Option.some.inj (buffered.symm.trans buffered')
      obtain rfl := Except.ok.inj (appended.symm.trans appended')
      exact cut

/-- A fragment of the right kind is taken in, or leaves the lattice as it was. -/
theorem push (assembles : Fragment.Assembles kind joins) (taken : l.TakenIn joins fragments)
    (same : kind fragment) :
    ((l.push fragment).result = .ok () ∧
      (l.push fragment).lattice.TakenIn joins (fragments ++ [fragment])) ∨
    ∃ failure, (l.push fragment).result = .error failure ∧ (l.push fragment).lattice = l := by
  obtain ⟨input, extended, joined, restorable⟩ := taken.extended assembles same
  cases pushed : (l.push fragment).result with
  | error failure =>
    refine .inr ⟨failure, rfl, ?_⟩
    obtain ⟨unchanged, _⟩ | ⟨_, again, cause, events, extended', undone⟩ := push_failed pushed
    · exact unchanged
    · rw [undone, undo_eq_iff]
      intro old buffered
      rw [extended_of_buffered buffered] at extended'
      exact restorable old again buffered extended'
  | ok =>
    obtain ⟨again, nodes, extended', _, added⟩ := push_ok pushed
    obtain rfl := Except.ok.inj (extended.symm.trans extended')
    have count : l.steps.length = fragments.length + 1 := taken.count
    refine .inl ⟨rfl, ?_⟩
    rw [added]
    refine ⟨.inr ⟨input, rfl, by simp, joined⟩, by simp [stepCount, count], ?_⟩
    intro i s present
    obtain old | ⟨rfl, rfl⟩ := getElem?_concat_iff.mp present
    · have inside := (List.getElem?_eq_some_iff.mp old).1
      rw [List.take_append_of_le_length (by omega)]
      exact taken.tails i s old
    · rw [count, List.take_of_length_le (by simp)]
      exact assembles.length input _ joined

/-- What a turn adds is what it accepts, and nothing if it is refused. -/
theorem turn (assembles : Fragment.Assembles kind joins) (taken : l.TakenIn joins fragments)
    {call : Call σ} (same : ∀ f, call = .push f → kind f) :
    (l.turn call).2.TakenIn joins (fragments ++ (l.turn call).1.accepted.toList) ∧
      ((l.turn call).1.isRefused = true → (l.turn call).2 = l) := by
  cases call with
  | settle =>
    rw [Lattice.turn]
    simpa [Turn.accepted, Turn.isRefused] using taken.settle
  | push fragment =>
    obtain ⟨pushed, further⟩ | ⟨failure, failed, unchanged⟩ :=
      taken.push assembles (same fragment rfl)
    · simpa [Lattice.turn, pushed, Turn.accepted, Turn.isRefused] using further
    · simpa [Lattice.turn, failed, unchanged, Turn.accepted, Turn.isRefused] using taken

theorem run (assembles : Fragment.Assembles kind joins) (taken : l.TakenIn joins fragments)
    {calls : List (Call σ)} (same : ∀ f, .push f ∈ calls → kind f) :
    (l.run calls).2.TakenIn joins (fragments ++ accepted (l.run calls).1) := by
  induction calls generalizing l fragments with
  | nil => simpa [Lattice.run, accepted] using taken
  | cons call calls ih =>
    have first := (taken.turn assembles fun f pushes => same f (pushes ▸ List.mem_cons_self)).1
    have onward := ih first fun f member => same f (List.mem_cons_of_mem call member)
    rw [List.append_assoc, ← accepted_cons] at onward
    exact onward

/-- Without the pushes that are refused, a run gives the same answers to the other calls and
leads to the same lattice. -/
theorem run_kept (assembles : Fragment.Assembles kind joins) (taken : l.TakenIn joins fragments)
    {calls : List (Call σ)} (same : ∀ f, .push f ∈ calls → kind f) :
    l.run ((kept (l.run calls).1).map Turn.call) = (kept (l.run calls).1, (l.run calls).2) := by
  induction calls generalizing l fragments with
  | nil => rfl
  | cons call calls ih =>
    obtain ⟨further, unchanged⟩ :=
      taken.turn assembles fun f pushes => same f (pushes ▸ List.mem_cons_self)
    have onward := ih further fun f member => same f (List.mem_cons_of_mem call member)
    rw [run_cons, kept, List.filter_cons]
    cases refused : (l.turn call).1.isRefused with
    | true =>
      rw [unchanged refused] at onward ⊢
      exact onward
    | false =>
      rw [Bool.not_false, if_pos rfl, List.map_cons, turn_call, run_cons]
      change (_ :: (Lattice.run _ ((kept _).map _)).1, (Lattice.run _ ((kept _).map _)).2) = _
      rw [onward]
      rfl

end TakenIn

/-- After a run with texts alone, or with lists of the caller's alone, the buffer is made of
what has been accepted, each step ends where its share of it does, and in no push is a step
found to end beyond the input. Without the refused pushes the run gives the same answers and
the same lattice. -/
theorem run_consistent (listed : σ → Prop) (view : σ → List α) (vocabulary : Vocabulary σ ν)
    (policy : Policy) {calls : List (Call σ)} {log : List (Turn σ ν)}
    (same : (∀ f, .push f ∈ calls → f.IsText) ∨
      Sequence.Lists listed view ∧ ∀ f, .push f ∈ calls → f.IsList listed)
    (ran : (empty vocabulary policy).run calls = (log, l)) :
    ((l.buffer = none ↔ accepted log = []) ∧ ∀ input, l.buffer = some input →
      input.JoinsTexts (accepted log) ∨ input.JoinsLists listed view (accepted log)) ∧
    l.stepCount = 1 + (accepted log).length ∧
    (∀ (i : Nat) (s : Step σ ν), l.steps[i]? = some s →
      s.inputTail = (((accepted log).take i).map Fragment.length).sum) ∧
    (∀ s, l.steps.getLast? = some s → s.inputTail = (l.buffer.map Fragment.length).getD 0) ∧
    (∀ before fragment after, calls = before ++ .push fragment :: after →
      ∀ input, ((empty vocabulary policy).run before).2.extended fragment = .ok input →
        ∀ s ∈ ((empty vocabulary policy).run before).2.steps, s.inputTail ≤ input.length) ∧
    (empty vocabulary policy).run ((kept log).map Turn.call) = (kept log, l) := by
  obtain ⟨kind, joins, assembles, shape, same⟩ : ∃ kind joins, Fragment.Assembles kind joins ∧
      (∀ (input : Fragment σ) fragments, joins input fragments →
        input.JoinsTexts fragments ∨ input.JoinsLists listed view fragments) ∧
      ∀ f, .push f ∈ calls → kind f := by
    obtain texts | ⟨lists, all⟩ := same
    · exact ⟨_, _, Fragment.assembles_texts, fun _ _ => .inl, texts⟩
    · exact ⟨_, _, Fragment.assembles_lists lists, fun _ _ => .inr, all⟩
  have nothing := takenIn_empty joins vocabulary policy
  have taken := nothing.run assembles same
  have again := nothing.run_kept assembles same
  rw [ran] at taken again
  rw [List.nil_append] at taken
  dsimp only at taken again
  refine ⟨⟨?absent, ?whole⟩, ?count, taken.tails, fun s => taken.last assembles, ?within, again⟩
  case absent =>
    obtain ⟨absent, none⟩ | ⟨input, buffered, some, _⟩ := taken.buffer
    · simp [absent, none]
    · simp [buffered, some]
  case whole =>
    intro input buffered
    obtain ⟨absent, _⟩ | ⟨input', buffered', _, joined⟩ := taken.buffer
    · rw [absent] at buffered
      contradiction
    · obtain rfl := Option.some.inj (buffered.symm.trans buffered')
      exact shape input _ joined
  case count =>
    rw [taken.count, Nat.add_comm]
  case within =>
    rintro before fragment after rfl input extended s member
    have earlier := nothing.run assembles fun f pushes => same f (List.mem_append_left _ pushes)
    obtain ⟨input', extended', joined, _⟩ :=
      earlier.extended assembles (same fragment (by simp))
    obtain rfl := Except.ok.inj (extended.symm.trans extended')
    rw [assembles.length input _ joined, List.map_append, List.sum_append]
    exact Nat.le_add_right_of_le (earlier.inputTail_le member)

end Lattice

namespace Brittle

/-- Without a seven, numbers in a row can always be cut. -/
theorem lists : Sequence.Lists (fun c : Brittle => 7 ∉ c.numbers) numbers where
  ext := by
    rintro ⟨_⟩ ⟨_⟩ _ _ rfl
    rfl
  sameKind _ _ _ _ := rfl
  length _ _ := rfl
  append c d first second := ⟨_, rfl, by simpa using ⟨first, second⟩, rfl⟩
  slice c offset length first within := by
    refine ⟨⟨(c.numbers.drop offset).take length⟩, ?_, ?_, rfl⟩
    · simp only [Sequence.slice]
      rw [if_neg first, if_neg (Nat.not_lt.mpr within)]
    · exact fun member => first (List.mem_of_mem_drop (List.mem_of_mem_take member))

def calls : List (Call Brittle) :=
  [.push (.custom ⟨[1]⟩), .push (.custom ⟨[2]⟩), .push (.custom ⟨[1]⟩), .settle,
    .push (.custom ⟨[1]⟩)]

/-- The two is no word, and the last push comes too late. Without them all is as before. -/
theorem run_consistent_ones : ∃ log l,
    (Lattice.empty vocabulary .unreachable).run calls = (log, l) ∧
    log.map Turn.isRefused = [false, true, false, false, true] ∧
    l.buffer = some (.custom ⟨[1, 1]⟩) ∧
    (Lattice.empty vocabulary .unreachable).run ((kept log).map Turn.call) = (kept log, l) := by
  have same : ∀ f, Call.push f ∈ calls → f.IsList fun c : Brittle => 7 ∉ c.numbers := by
    intro f pushes
    simp only [calls, List.mem_cons, Call.push.injEq, List.not_mem_nil, or_false, reduceCtorEq,
      false_or] at pushes
    obtain rfl | rfl | rfl | rfl := pushes
    all_goals exact ⟨_, rfl, by decide⟩
  refine ⟨_, _, rfl, rfl, rfl, ?_⟩
  exact (Lattice.run_consistent _ numbers vocabulary .unreachable (.inr ⟨lists, same⟩)
    rfl).2.2.2.2.2

end Brittle

end Segmentation
