import Segmentation.Proofs.Filtering
import Segmentation.Proofs.Finding
import Mathlib.Data.List.Flatten
import Mathlib.Data.List.ReduceOption

/-! The tails that wait, taken from the queue one after the other.
A tail that is taken uses up one of the chains that the tails in the queue stand for, whether
or not it gives a path, and the tails that are queued instead share out others of them. -/
namespace Segmentation

variable {σ ν : Type} [BEq σ] [BEq ν]

/-- A tail that can be taken from the queue: its first node is one of the lattice, its cost is
that of a path, and a path with it can match. -/
structure Tail.Eligible (l : Lattice σ ν) (p : Pattern σ ν) (t : Tail σ ν) : Prop where
  standing : t.Standing l
  priced : t.Priced
  admitted : t.Admitted p = true

/-- Taking the first tail again and again, with the path that each of them gives, if any.
What comes out of a tail is queued before the next one is taken. -/
inductive Lattice.Pops (l : Lattice σ ν) (p : Pattern σ ν) :
    List (Tail σ ν) → List (Option (Path σ ν)) → List (Tail σ ν) → Prop where
  | done : Pops l p ts [] ts
  | pop : l.expand p t = .ok x → Pops l p (x.queued p ts) results us →
      Pops l p (t :: ts) (x.nodes.map (⟨·, t.wholeCost⟩) :: results) us

variable {l : Lattice σ ν} {p : Pattern σ ν} {t u : Tail σ ν} {ts us vs : List (Tail σ ν)}
  {results results' : List (Option (Path σ ν))} {x : Expansion σ ν}

theorem Expansion.mem_queued :
    u ∈ x.queued p ts ↔ (u ∈ x.tails ∧ u.Admitted p = true) ∨ u ∈ ts := by
  rw [queued, (Tail.enterAll_perm _ _).mem_iff, List.mem_append, List.mem_filter]
  rfl

namespace Lattice

/-- What a tail leads to shares out its completions: one is used up, by a path if it matches,
and the tails that are queued have others. -/
theorem WellFormed.expand_eligible (wf : l.WellFormed) (eligible : t.Eligible l p) :
    ∃ x path, l.expand p t = .ok x ∧ x.nodes = (if p.accepts path then some path else none) ∧
      (∀ u ∈ x.tails, u.Admitted p = true → u.Eligible l p) ∧
      (path :: (x.tails.filter (Tail.Admitted p)).flatMap l.completions).Subperm
        (l.completions t) := by
  obtain ⟨x, path, expanded, complete, filters, _⟩ := wf.expand_filtered p eligible.standing
  obtain ⟨y, expanded', same⟩ := filters eligible.admitted
  obtain ⟨_, path', again, continues⟩ := wf.expand_continues eligible.standing eligible.priced
  obtain rfl := Except.ok.inj (expanded.symm.trans again)
  obtain rfl := Option.some.inj (complete.symm.trans continues.nodes)
  obtain ⟨_, again', standing⟩ := wf.expand_ok (p := p) eligible.standing
  obtain rfl := Except.ok.inj (expanded'.symm.trans again')
  refine ⟨y, path, expanded', same.nodes, ?_, ?_⟩
  · intro u member admitted
    have passed : u ∈ x.tails.filter (Tail.Admitted p) :=
      same.tails ▸ List.mem_filter.mpr ⟨member, admitted⟩
    exact ⟨standing u member, continues.priced u (List.mem_filter.mp passed).1, admitted⟩
  · rw [same.tails]
    have fewer : (x.tails.filter (Tail.Admitted p)).Sublist x.tails := List.filter_sublist
    exact ((fewer.flatMap l.completions).cons_cons path).subperm.trans continues.shares

/-- Taking the first of the tails that wait. -/
theorem WellFormed.pop (wf : l.WellFormed) (eligible : ∀ u ∈ t :: ts, u.Eligible l p) :
    ∃ x path, l.expand p t = .ok x ∧ x.nodes = (if p.accepts path then some path else none) ∧
      (∀ u ∈ x.queued p ts, u.Eligible l p) ∧
      (path :: (x.queued p ts).flatMap l.completions).Subperm
        ((t :: ts).flatMap l.completions) := by
  obtain ⟨x, path, expanded, complete, further, shares⟩ :=
    wf.expand_eligible (eligible t List.mem_cons_self)
  refine ⟨x, path, expanded, complete, ?_, ?_⟩
  · intro u member
    obtain ⟨new, admitted⟩ | old := Expansion.mem_queued.mp member
    · exact further u new admitted
    · exact eligible u (List.mem_cons_of_mem t old)
  · have waiting := (Tail.enterAll_perm (x.tails.filter (Tail.Admitted p)) ts).flatMap_right
      l.completions
    rw [List.flatMap_append] at waiting
    rw [List.flatMap_cons]
    exact (waiting.cons path).subperm.trans (shares.append (.refl _))

namespace Pops

theorem trans (first : l.Pops p ts results us) (second : l.Pops p us results' vs) :
    l.Pops p ts (results ++ results') vs := by
  induction first with
  | done => exact second
  | pop expanded _ ih => exact .pop expanded (ih second)

/-- What holds of all tails that come out of one of its kind holds of all that ever wait. -/
theorem forall_tails {motive : Tail σ ν → Prop}
    (kept : ∀ t x, motive t → l.expand p t = .ok x →
      ∀ u ∈ x.tails, u.Admitted p = true → motive u)
    (pops : l.Pops p ts results us) (all : ∀ t ∈ ts, motive t) : ∀ u ∈ us, motive u := by
  induction pops with
  | done => exact all
  | @pop t x ts results us expanded _ ih =>
    apply ih
    intro u member
    obtain ⟨new, admitted⟩ | old := Expansion.mem_queued.mp member
    · exact kept t x (all t List.mem_cons_self) expanded u new admitted
    · exact all u (List.mem_cons_of_mem t old)

/-- What holds of all that is completed from such tails holds of all paths that they give. -/
theorem forall_paths {motive : Tail σ ν → Prop} {good : List (Node σ ν) → Prop}
    (kept : ∀ t x, motive t → l.expand p t = .ok x →
      (∀ u ∈ x.tails, u.Admitted p = true → motive u) ∧ ∀ nodes ∈ x.nodes, good nodes)
    (pops : l.Pops p ts results us) (all : ∀ t ∈ ts, motive t) :
    ∀ path ∈ results.reduceOption, good path.nodes := by
  induction pops with
  | done => simp
  | @pop t x ts results us expanded rest ih =>
    have first : l.Pops p (t :: ts) _ (x.queued p ts) := .pop expanded .done
    obtain ⟨_, completed⟩ := kept t x (all t List.mem_cons_self) expanded
    have onward := ih (first.forall_tails (fun t x holds found => (kept t x holds found).1) all)
    intro path member
    rw [List.reduceOption_mem_iff, List.mem_cons, eq_comm, Option.map_eq_some_iff] at member
    obtain ⟨nodes, complete, rfl⟩ | later := member
    · exact completed nodes complete
    · exact onward path (List.reduceOption_mem_iff.mpr later)

theorem eligible (wf : l.WellFormed) (pops : l.Pops p ts results us)
    (all : ∀ t ∈ ts, t.Eligible l p) : ∀ u ∈ us, u.Eligible l p := by
  refine pops.forall_tails ?_ all
  intro t x eligible expanded
  obtain ⟨_, _, again, _, further, _⟩ := wf.expand_eligible eligible
  obtain rfl := Except.ok.inj (expanded.symm.trans again)
  exact further

/-- Every tail that is taken uses up a completion of the tails at the beginning, and a path
that it gives is that completion. -/
theorem shares (wf : l.WellFormed) (pops : l.Pops p ts results us)
    (all : ∀ t ∈ ts, t.Eligible l p) : ∃ used,
      List.Forall₂ (fun result nodes => ∀ path ∈ result, path.nodes = nodes ∧
        p.accepts path.nodes = true ∧ path.cost ≠ .infinite) results used ∧
      (used ++ us.flatMap l.completions).Subperm (ts.flatMap l.completions) := by
  induction pops with
  | done => exact ⟨[], .nil, .refl _⟩
  | @pop t x ts results us expanded _ ih =>
    obtain ⟨_, path, again, complete, further, first⟩ := wf.pop all
    obtain rfl := Except.ok.inj (expanded.symm.trans again)
    obtain ⟨used, paths, rest⟩ := ih further
    refine ⟨path :: used, .cons ?_ paths, ((List.subperm_cons path).mpr rest).trans first⟩
    obtain ⟨_, _, _, _, _, _, finite⟩ := (all t List.mem_cons_self).priced
    intro found member
    rw [complete] at member
    split at member
    next accepted =>
      obtain rfl := Option.some.inj member
      exact ⟨rfl, accepted, finite⟩
    next => contradiction

end Pops

end Lattice

omit [BEq σ] [BEq ν] in
/-- The paths that came out are among the completions that were used up. -/
theorem sublist_of_used {good : Path σ ν → Prop} {used : List (List (Node σ ν))}
    (paired : List.Forall₂ (fun result nodes => ∀ path ∈ result, path.nodes = nodes ∧ good path)
      results used) :
    (results.reduceOption.map Path.nodes).Sublist used ∧
      ∀ path ∈ results.reduceOption, good path := by
  induction paired with
  | nil => exact ⟨.slnil, by simp⟩
  | @cons result nodes _ _ same _ ih =>
    obtain ⟨sublist, all⟩ := ih
    cases result with
    | none => exact ⟨sublist.cons nodes, all⟩
    | some path =>
      obtain ⟨rfl, kept⟩ := same path rfl
      exact ⟨sublist.cons_cons _, List.forall_mem_cons.mpr ⟨kept, all⟩⟩

namespace Frontier

variable {f g : Frontier σ ν}

/-- The search for the next path takes tails that give none, and counts them, and then one that
does, unless none is left. -/
theorem Fresh.next_pops (fresh : f.Fresh) {later : Option (Path σ ν)}
    (searched : f.next l p = (.ok later, g)) : g.Fresh ∧ (later = none → g.tails = []) ∧
      ∃ discarded, g.tally.discarded = f.tally.discarded + discarded ∧
        l.Pops p f.tails (List.replicate discarded none ++ later.toList.map some) g.tails := by
  have popped {number : Nat} {t : Tail σ ν} {queue : List (Ticket σ ν)} {x : Expansion σ ν}
      {f : Frontier σ ν} (fresh : f.Fresh) (waiting : f.queue = ⟨number, t⟩ :: queue) :
      ({ f with queue := queue }.enqueueAll p x.tails).Fresh ∧
        ({ f with queue := queue }.enqueueAll p x.tails).tails =
          x.queued p (queue.map Ticket.tail) := by
    apply enqueueAll_spec
    intro ticket member
    exact fresh ticket (waiting ▸ List.mem_cons_of_mem _ member)
  fun_induction Frontier.next l p f with
  | case1 f empty =>
    obtain ⟨rfl, rfl⟩ : none = later ∧ f = g := by simpa using searched
    refine ⟨fresh, fun _ => ?_, 0, rfl, .done⟩
    rw [tails, empty, List.map_nil]
  | case2 => simp at searched
  | case3 f number t queue waiting x expanded rest nodes complete =>
    obtain ⟨rfl, rfl⟩ : some ⟨nodes, t.wholeCost⟩ = later ∧ rest = g := by simpa using searched
    obtain ⟨still, left⟩ := popped (x := x) fresh waiting
    obtain ⟨_, counted, _⟩ := enqueueAll_tally { f with queue := queue } p x.tails
    refine ⟨still, by simp, 0, counted, ?_⟩
    have pops : l.Pops p (t :: queue.map Ticket.tail) _ _ := .pop expanded .done
    rw [complete, ← left] at pops
    rw [tails, waiting]
    exact pops
  | case4 f number t queue waiting x expanded rest incomplete ih =>
    obtain ⟨still, left⟩ := popped (x := x) fresh waiting
    obtain ⟨fresh', empty, discarded, counted', further⟩ := ih still searched
    obtain ⟨_, counted, _⟩ := enqueueAll_tally { f with queue := queue } p x.tails
    refine ⟨fresh', empty, discarded + 1, ?_, ?_⟩
    · rw [counted', discard, Nat.add_comm discarded, ← Nat.add_assoc]
      exact congrArg (· + 1 + discarded) counted
    have pops : l.Pops p (t :: queue.map Ticket.tail) _ _ := .pop expanded (left ▸ further)
    rw [incomplete] at pops
    rw [tails, waiting]
    exact pops

end Frontier

end Segmentation
