import Segmentation.Proofs.Settling
import Segmentation.Proofs.Tables

/-! Vocabularies with the same words, in one of which nothing costs more than in the other.
The same fragments are accepted with both, and every node has the lower cost in the lattice of
the cheaper one, although its best way may be another. -/
namespace Segmentation

variable {σ ν ν' α β γ δ ε : Type}

section Likewise

/-- Two computations that both fail, for the same reason, or both succeed with results that are
related. -/
inductive Likewise (R : α → β → Prop) : Except ε α → Except ε β → Prop where
  | ok {a b} : R a b → Likewise R (.ok a) (.ok b)
  | error (failure : ε) : Likewise R (.error failure) (.error failure)

variable {R : α → β → Prop} {S : γ → δ → Prop}

theorem Likewise.refl (x : Except ε α) : Likewise Eq x x := by
  cases x with
  | ok a => exact .ok rfl
  | error failure => exact .error failure

theorem Likewise.bind {x : Except ε α} {y : Except ε β} {f : α → Except ε γ} {g : β → Except ε δ}
    (first : Likewise R x y) (second : ∀ a b, R a b → Likewise S (f a) (g b)) :
    Likewise S (x >>= f) (y >>= g) := by
  cases first with
  | ok related => exact second _ _ related
  | error failure => exact .error failure

theorem Likewise.mapM {f : α → Except ε γ} {g : β → Except ε δ} {xs : List α} {ys : List β}
    (paired : List.Forall₂ R xs ys) (each : ∀ a b, R a b → Likewise S (f a) (g b)) :
    Likewise (List.Forall₂ S) (xs.mapM f) (ys.mapM g) := by
  induction paired with
  | nil => exact .ok .nil
  | cons first _ ih =>
    rw [List.mapM_cons, List.mapM_cons]
    apply (each _ _ first).bind
    intro c d head
    apply ih.bind
    intro cs ds tail
    exact .ok (.cons head tail)

end Likewise

section Paired

variable {R : α → β → Prop} {xs : List α} {ys : List β}

/-- Members that stand in the same place are related, and so they are with the place. -/
theorem forall₂_zipIdx (paired : List.Forall₂ R xs ys) (k : Nat) :
    List.Forall₂ (fun x y => R x.1 y.1 ∧ x.2 = y.2) (xs.zipIdx k) (ys.zipIdx k) := by
  induction paired generalizing k with
  | nil => exact .nil
  | cons first _ ih => exact .cons ⟨first, rfl⟩ (ih (k + 1))

theorem forall₂_getLastD (paired : List.Forall₂ R xs ys) {a : α} {b : β} (otherwise : R a b) :
    R (xs.getLastD a) (ys.getLastD b) := by
  induction paired generalizing a b with
  | nil => exact otherwise
  | cons first _ ih => simpa only [List.getLastD_cons] using ih first

end Paired

theorem leastIndex_mono {costs costs' : List Cost} (below : List.Forall₂ (· ≤ ·) costs costs') :
    (leastIndex costs).2 ≤ (leastIndex costs').2 := by
  by_cases nonempty : costs' = []
  · obtain rfl := nonempty
    obtain rfl := List.forall₂_nil_right_iff.mp below
    exact Cost.le_refl _
  · have member := List.mem_of_getElem? (leastIndex_get nonempty)
    obtain ⟨c, inside, less⟩ := exists_of_forall₂ below member
    exact Cost.le_trans (leastIndex_le inside) less

variable [BEq σ]

/-- A word with the key of another that costs no more. -/
structure Entry.NoDearer (e : Entry σ ν) (e' : Entry σ ν') : Prop where
  key : (e.key == e'.key) = true
  cost : e.cost ≤ e'.cost

instance (e : Entry σ ν) (e' : Entry σ ν') : Decidable (e.NoDearer e') :=
  decidable_of_iff ((e.key == e'.key) = true ∧ e.cost ≤ e'.cost)
    ⟨fun ⟨key, cost⟩ => ⟨key, cost⟩, fun ⟨key, cost⟩ => ⟨key, cost⟩⟩

/-- A node whose word has the key of another's and which is reached at no higher cost. -/
structure Node.NoDearer (n : Node σ ν) (n' : Node σ ν') : Prop where
  key : (n.entry.key == n'.entry.key) = true
  cost : n.pathCost ≤ n'.pathCost

structure Step.NoDearer (s : Step σ ν) (s' : Step σ ν') : Prop where
  inputTail : s.inputTail = s'.inputTail
  nodes : List.Forall₂ Node.NoDearer s.nodes s'.nodes

/-- The same words in the same order, none of which costs more, and connections that cost no
more. A connection that is missing costs as much as one can. -/
structure Vocabulary.NoDearer (v : Vocabulary σ ν) (v' : Vocabulary σ ν') : Prop where
  entries : ∀ key, List.Forall₂ Entry.NoDearer (v.entries key) (v'.entries key)
  connection : ∀ (n : Node σ ν) (n' : Node σ ν') (e : Entry σ ν) (e' : Entry σ ν'),
    (n.entry.key == n'.entry.key) = true → (e.key == e'.key) = true →
    (v.connection n e).getD .infinite ≤ (v'.connection n' e').getD .infinite

/-- The same of tables: words that are written alike are compared one by one, and connections
by the two keys. -/
structure Lexicon.NoDearer [Hashable σ] (x : Lexicon σ ν) (y : Lexicon σ ν') : Prop where
  words : ∀ key, List.Forall₂ Entry.NoDearer (x.find key) (y.find key)
  links : ∀ before after,
    (x.link before after).getD .infinite ≤ (y.link before after).getD .infinite

section Tables

variable [Hashable σ] [EquivBEq σ] [LawfulHashable σ]

theorem Lexicon.link_congr (x : Lexicon σ ν) {before before' after after' : Option (Fragment σ)}
    (first : (before == before') = true) (second : (after == after') = true) :
    x.link before after = x.link before' after' := by
  simp only [link_eq, x.number?_congr first, x.number?_congr second]

theorem Lexicon.NoDearer.toVocabulary {x : Lexicon σ ν} {y : Lexicon σ ν'} (less : x.NoDearer y) :
    x.toVocabulary.NoDearer y.toVocabulary where
  entries := less.words
  connection n n' e e' before after := by
    change (x.link n.entry.key e.key).getD .infinite ≤ _
    rw [x.link_congr before after]
    exact less.links n'.entry.key e'.key

end Tables

namespace Step.NoDearer

variable {s : Step σ ν} {s' : Step σ ν'}

theorem start : (Step.start : Step σ ν).NoDearer (Step.start : Step σ ν') :=
  ⟨rfl, .cons ⟨rfl, Cost.le_refl 0⟩ .nil⟩

theorem arrivals (less : s.NoDearer s') {costs costs' : List Cost}
    (below : List.Forall₂ (· ≤ ·) costs costs') :
    List.Forall₂ (· ≤ ·) (s.arrivals costs) (s'.arrivals costs') := by
  have paired := less.nodes
  unfold Step.arrivals
  generalize s.nodes = nodes at paired ⊢
  generalize s'.nodes = nodes' at paired ⊢
  induction paired generalizing costs costs' with
  | nil => exact .nil
  | @cons n n' _ _ first _ ih =>
    cases below with
    | nil => exact .nil
    | @cons c c' _ _ head tail =>
      have sum : n.pathCost + c ≤ n'.pathCost + c' :=
        Cost.le_trans (Cost.add_le_add_right first.cost c) (Cost.add_le_add_left head _)
      exact .cons sum (ih tail)

/-- The node of a word after a step has no higher cost if nothing has that it is made from. -/
theorem follower (less : s.NoDearer s') {costs costs' : List Cost}
    (below : List.Forall₂ (· ≤ ·) costs costs') {e : Entry σ ν} {e' : Entry σ ν'}
    (word : e.NoDearer e') (step step' : Nat) :
    (s.follower step costs e).NoDearer (s'.follower step' costs' e') := by
  have arrival := leastIndex_mono (less.arrivals below)
  exact ⟨word.key, Cost.le_trans (Cost.add_le_add_right arrival e.cost)
    (Cost.add_le_add_left word.cost _)⟩

end Step.NoDearer

/-- Whether a call has succeeded, and why not if it has failed. -/
def Turn.verdict : Turn σ ν → Except Failure Unit
  | .pushed _ result => result
  | .settled result => (fun _ => ()) <$> result

namespace Lattice

/-- Lattices that have come equally far, the first of them at no higher cost. In both of them a
word that may not stand after a node is only out of reach. -/
structure NoDearer (l : Lattice σ ν) (l' : Lattice σ ν') : Prop where
  vocabulary : l.vocabulary.NoDearer l'.vocabulary
  policy : l.policy = .unreachable
  policy' : l'.policy = .unreachable
  buffer : l.buffer = l'.buffer
  settled : l.settled = l'.settled
  steps : List.Forall₂ Step.NoDearer l.steps l'.steps

namespace NoDearer

variable {l : Lattice σ ν} {l' : Lattice σ ν'} {s : Step σ ν} {s' : Step σ ν'}

theorem empty {v : Vocabulary σ ν} {v' : Vocabulary σ ν'} (less : v.NoDearer v') :
    (Lattice.empty v .unreachable).NoDearer (Lattice.empty v' .unreachable) :=
  ⟨less, rfl, rfl, rfl, rfl, .cons .start .nil⟩

theorem edgeCosts (less : l.NoDearer l') (step : s.NoDearer s') {e : Entry σ ν} {e' : Entry σ ν'}
    (same : (e.key == e'.key) = true) :
    Likewise (List.Forall₂ (· ≤ ·)) (l.edgeCosts s e) (l'.edgeCosts s' e') := by
  rw [edgeCosts_of_unreachable less.policy, edgeCosts_of_unreachable less.policy']
  apply Likewise.ok
  rw [List.forall₂_map_left_iff, List.forall₂_map_right_iff]
  exact step.nodes.imp fun n n' node => less.vocabulary.connection n n' e e' node.key same

/-- The lattices are settled likewise, except that the dearer one may have no way to the end. -/
theorem settle (less : l.NoDearer l') {eos' : Node σ ν'} (ends : l'.settle.result = .ok eos') :
    ∃ eos, l.settle.result = .ok eos ∧ eos.pathCost ≤ eos'.pathCost := by
  have sentinel : (Entry.sentinel : Entry σ ν).NoDearer (Entry.sentinel : Entry σ ν') :=
    ⟨rfl, Cost.le_refl 0⟩
  obtain ⟨costs', found', rfl, finite⟩ := settle_eq_ok_iff.mp ends
  have last := forall₂_getLastD less.steps Step.NoDearer.start
  have edges := less.edgeCosts last sentinel.key
  rw [found'] at edges
  generalize found : l.edgeCosts (l.steps.getLastD .start) .sentinel = costs at edges
  cases edges with
  | ok below =>
    have node := last.follower below sentinel (l.stepCount - 1) (l'.stepCount - 1)
    refine ⟨_, settle_eq_ok_iff.mpr ⟨_, found, rfl, ?_⟩, node.cost⟩
    intro infinite
    have lower := node.cost
    rw [infinite] at lower
    exact finite (Cost.infinite_le.mp lower)

variable [Sequence σ]

theorem followers (less : l.NoDearer l') (step : s.NoDearer s') (input : Fragment σ) (k : Nat) :
    Likewise (List.Forall₂ Node.NoDearer) (l.followers input s k) (l'.followers input s' k) := by
  unfold Lattice.followers
  rw [step.inputTail]
  apply (Likewise.refl _).bind
  rintro key _ rfl
  apply Likewise.mapM (less.vocabulary.entries key)
  intro e e' word
  apply (less.edgeCosts step word.key).bind
  intro costs costs' below
  exact .ok (step.follower below word k k)

theorem arriving (less : l.NoDearer l') (input : Fragment σ) :
    Likewise (List.Forall₂ Node.NoDearer) (l.arriving input) (l'.arriving input) := by
  unfold Lattice.arriving
  apply Likewise.bind (R := List.Forall₂ (List.Forall₂ Node.NoDearer))
  · apply Likewise.mapM (forall₂_zipIdx less.steps 0)
    rintro ⟨s, k⟩ ⟨s', _⟩ ⟨step, rfl⟩
    exact less.followers step input k
  · intro groups groups' alike
    apply Likewise.ok
    rw [List.mapIdx_eq_zipIdx_map, List.mapIdx_eq_zipIdx_map, List.forall₂_map_left_iff,
      List.forall₂_map_right_iff]
    -- the place of a node in its step does not count
    refine (forall₂_zipIdx (List.rel_flatten alike) 0).imp ?_
    rintro ⟨n, i⟩ ⟨n', j⟩ ⟨node, _⟩
    exact ⟨node.key, node.cost⟩

theorem undo (less : l.NoDearer l') (input : Fragment σ) (failure : Failure)
    (events events' : List Event) :
    (l.undo input failure events).result = (l'.undo input failure events').result ∧
    (l.undo input failure events).lattice.NoDearer (l'.undo input failure events').lattice := by
  unfold Lattice.undo
  rw [less.buffer]
  cases l'.buffer with
  | none => exact ⟨rfl, less⟩
  | some old =>
    dsimp only
    cases input.slice 0 old.length with
    | ok buffer => exact ⟨rfl, { less with buffer := rfl }⟩
    | error refusal => exact ⟨rfl, { less with buffer := rfl }⟩

theorem push (less : l.NoDearer l') (fragment : Fragment σ) :
    (l.push fragment).result = (l'.push fragment).result ∧
    (l.push fragment).lattice.NoDearer (l'.push fragment).lattice := by
  have extended : l.extended fragment = l'.extended fragment := by
    unfold Lattice.extended
    rw [less.buffer]
  unfold Lattice.push
  rw [extended]
  by_cases settled : l'.settled = true
  · rw [if_pos settled, if_pos (less.settled.trans settled)]
    exact ⟨rfl, less⟩
  · rw [if_neg settled, if_neg (less.settled ▸ settled)]
    cases l'.extended fragment with
    | error failure => exact ⟨rfl, less⟩
    | ok input =>
      dsimp only
      have arrived := less.arriving input
      generalize l.arriving input = found at arrived ⊢
      generalize l'.arriving input = found' at arrived ⊢
      cases arrived with
      | error failure => exact less.undo input failure _ _
      | ok alike =>
        cases alike with
        | nil => exact less.undo input _ _ _
        | cons first rest =>
          refine ⟨rfl, { less with buffer := rfl, steps := ?_ }⟩
          exact List.rel_append less.steps (.cons ⟨rfl, .cons first rest⟩ .nil)

/-- From one push to the next the first of the lattices stays no dearer. -/
theorem run (less : l.NoDearer l') (fragments : List (Fragment σ)) :
    (l.run (fragments.map .push)).1.map Turn.verdict =
      (l'.run (fragments.map .push)).1.map Turn.verdict ∧
    (l.run (fragments.map .push)).2.NoDearer (l'.run (fragments.map .push)).2 := by
  induction fragments generalizing l l' with
  | nil => exact ⟨rfl, less⟩
  | cons fragment fragments ih =>
    obtain ⟨same, onward⟩ := less.push fragment
    obtain ⟨later, last⟩ := ih onward
    exact ⟨congrArg₂ List.cons same later, last⟩

end NoDearer

variable [Sequence σ] [Hashable σ] [EquivBEq σ] [LawfulHashable σ]

/-- The same pushes with two vocabularies that are made from tables, where a missing connection
is only out of reach. If the tables have the same words and the first one has no higher cost for
any word or connection, all pushes are answered alike, every node has no higher cost with the
first one, and if the second lattice can be settled, so can the first, at no higher cost. -/
theorem cheaper_costs_no_more {x : Lexicon σ ν} {y : Lexicon σ ν'} (cheaper : x.NoDearer y)
    (fragments : List (Fragment σ)) {log : List (Turn σ ν)} {log' : List (Turn σ ν')}
    {l : Lattice σ ν} {l' : Lattice σ ν'}
    (first : (empty x.toVocabulary .unreachable).run (fragments.map .push) = (log, l))
    (second : (empty y.toVocabulary .unreachable).run (fragments.map .push) = (log', l')) :
    log.map Turn.verdict = log'.map Turn.verdict ∧
    List.Forall₂ (fun s s' => List.Forall₂ (fun n n' => n.pathCost ≤ n'.pathCost) s.nodes s'.nodes)
      l.steps l'.steps ∧
    ∀ eos', l'.settle.result = .ok eos' →
      ∃ eos, l.settle.result = .ok eos ∧ eos.pathCost ≤ eos'.pathCost := by
  obtain ⟨same, less⟩ := (NoDearer.empty cheaper.toVocabulary).run fragments
  rw [first, second] at same less
  refine ⟨same, ?nodes, fun _ => less.settle⟩
  case nodes =>
    refine less.steps.imp ?_
    intro s s' step
    exact step.nodes.imp fun _ _ node => node.cost

end Lattice

namespace Detour

/-- A word with two readings, and a word after it. -/
def words (reading : Cost) : List (Fragment Empty × List (Entry Empty Nat)) :=
  [(.text "a", [⟨some (.text "A"), some 0, reading⟩, ⟨some (.text "B"), some 1, 5⟩]),
    (.text "b", [⟨some (.text "C"), some 2, .clamp (-2147483648)⟩])]

def links : List ((Option (Fragment Empty) × Option (Fragment Empty)) × Cost) :=
  [((none, some (.text "A")), 9), ((none, some (.text "B")), 0),
    ((some (.text "B"), some (.text "C")), 1), ((some (.text "C"), none), 3)]

/-- Here the first reading costs little, and it may stand before the other word. -/
def cheap : Lexicon Empty Nat :=
  .ofLists (words (.clamp (-20))) (((some (.text "A"), some (.text "C")), 1) :: links)

def dear : Lexicon Empty Nat := .ofLists (words (.clamp 2147483640)) links

theorem cheap_noDearer : cheap.NoDearer dear where
  words key := by
    simp only [cheap, dear, words, Lexicon.find_ofLists, lastRow, List.findSomeRev?]
    split_ifs <;> decide
  links before after := by
    simp only [cheap, dear, links, (Lexicon.ofLists_reflects _ _).1.link, lastRow,
      List.findSomeRev?]
    split_ifs <;> decide

/-- The second of these pushes is refused. -/
def pushes : List (Fragment Empty) := [.text "a", .text "x", .text "b"]

def pushed (x : Lexicon Empty Nat) : List (Turn Empty Nat) × Lattice Empty Nat :=
  (Lattice.empty x.toVocabulary .unreachable).run (pushes.map .push)

theorem pushed_dear :
    (pushed dear).1.map Turn.verdict = [.ok (), .error (.invalid .noNode), .ok ()] ∧
    ∃ eos, (pushed dear).2.settle.result = .ok eos ∧ eos.pathCost = .clamp (-2147483639) := by
  rw [pushed, dear, Lexicon.toVocabulary_ofLists]
  exact ⟨rfl, _, rfl, rfl⟩

/-- The cheaper way goes through the first reading, which is out of reach with the other
vocabulary, and its cost ends up at the lower end of the range before the last connection. -/
theorem cheaper_costs_no_more_detour : cheap.NoDearer dear ∧
    (pushed cheap).1.map Turn.verdict = [.ok (), .error (.invalid .noNode), .ok ()] ∧
    List.Forall₂ (fun s s' => List.Forall₂ (fun n n' => n.pathCost ≤ n'.pathCost) s.nodes s'.nodes)
      (pushed cheap).2.steps (pushed dear).2.steps ∧
    ∃ eos, (pushed cheap).2.settle.result = .ok eos ∧ eos.pathCost ≤ .clamp (-2147483639) := by
  obtain ⟨answers, eos, settled, cost⟩ := pushed_dear
  obtain ⟨same, nodes, ends⟩ := Lattice.cheaper_costs_no_more cheap_noDearer pushes rfl rfl
  exact ⟨cheap_noDearer, same.trans answers, nodes, cost ▸ ends eos settled⟩

end Detour

end Segmentation
