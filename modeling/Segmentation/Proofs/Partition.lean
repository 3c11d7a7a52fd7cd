import Segmentation.Proofs.EveryPath
import Segmentation.Proofs.ReachedPaths

/-! What is left to enumerate, at any time.
The chains that match are those that have been reached, the one ahead, and those that end with
a tail in the queue. Taking a tail from the queue leaves it so, because a tail that is not queued
is the end of no chain that matches. No chain ends with two of the tails that wait. -/
namespace Segmentation

variable {σ ν : Type}

/-- The front of a chain up to one of its nodes is a chain to that node. -/
theorem Chain.front {joins : Node σ ν → Cost → Node σ ν → Prop} {nodes front rest : List (Node σ ν)}
    {costs : List Cost} {n last : Node σ ν} (chain : Chain joins nodes costs last)
    (parts : nodes = front ++ n :: rest) : ∃ met, Chain joins (front ++ [n]) met n := by
  induction chain generalizing rest with
  | start =>
    obtain ⟨rfl, same⟩ | ⟨_, same⟩ := List.singleton_eq_append_iff.mp parts
    · obtain ⟨rfl, _⟩ := List.cons.inj same
      exact ⟨[], .start⟩
    · contradiction
  | @next nodes costs m edge k chain joined ih =>
    rcases List.eq_nil_or_concat rest with rfl | ⟨rest, other, rfl⟩
    · obtain ⟨rfl, same⟩ := List.append_inj' parts rfl
      obtain ⟨rfl, _⟩ := List.cons.inj same
      exact ⟨_, chain.next joined⟩
    · rw [List.concat_eq_append, ← List.cons_append, ← List.append_assoc] at parts
      exact ih (List.append_inj' parts rfl).1

variable [BEq σ] [BEq ν] {l : Lattice σ ν} {p : Pattern σ ν} {finish n : Node σ ν}
  {t u : Tail σ ν} {ts us : List (Tail σ ν)} {nodes rest : List (Node σ ν)} {costs : List Cost}

/-- If a chain matches as a part of a path, its last node and what follows it are admitted. -/
theorem Chain.admits (chain : Chain l.Joins nodes costs n)
    (accepted : p.accepts (nodes ++ rest) = true) : p.admits (n :: rest) = true := by
  induction chain generalizing rest with
  | start => exact (Pattern.admits_of_start rfl rest).trans accepted
  | next chain joined ih =>
    obtain ⟨_, _, follows, _⟩ := joined
    rw [← List.append_cons] at accepted
    exact Pattern.admits_of_cons (Node.isStart_of_origin follows) (ih accepted)

/-- A tail that can be taken from the queue and whose costs are exact. -/
structure Tail.Reliable (l : Lattice σ ν) (finish : Node σ ν) (p : Pattern σ ν) (t : Tail σ ν) :
    Prop where
  eligible : t.Eligible l p
  exact : t.Exact l finish

namespace Lattice

/-- What a tail can be completed to are the chains that end with it. -/
theorem WellFormed.mem_completions (wf : l.WellFormed) (reliable : t.Reliable l finish p) :
    nodes ∈ l.completions t ↔
      t.nodes <:+ nodes ∧ ∃ costs, Chain l.Passes nodes costs finish := by
  obtain ⟨n, rest, before, same, present, member⟩ := reliable.eligible.standing
  obtain ⟨_, _, costs, same', ends, _⟩ := reliable.exact
  obtain ⟨rfl, rfl⟩ := List.cons.inj (same.symm.trans same')
  simp only [completions, same, List.mem_map, wf.mem_ways present member]
  constructor
  · rintro ⟨front, ⟨met, chain⟩, rfl⟩
    obtain ⟨first, rfl⟩ := List.getLast?_eq_some_iff.mp chain.getLast?
    exact ⟨⟨first, List.append_cons first n rest⟩, _, chain.onward ends.onward⟩
  · rintro ⟨⟨first, rfl⟩, _, chain⟩
    exact ⟨first ++ [n], chain.front rfl, (List.append_cons first n rest).symm⟩

/-- The chains that end with one of some tails and match. -/
def pending (l : Lattice σ ν) (p : Pattern σ ν) (ts : List (Tail σ ν)) : List (List (Node σ ν)) :=
  (ts.flatMap l.completions).filter p.accepts

theorem pending_append (l : Lattice σ ν) (p : Pattern σ ν) (ts us : List (Tail σ ν)) :
    l.pending p (ts ++ us) = l.pending p ts ++ l.pending p us := by
  simp [pending]

theorem pending_perm (same : ts.Perm us) : (l.pending p ts).Perm (l.pending p us) :=
  (same.flatMap_right l.completions).filter p.accepts

/-- A tail that is not admitted is the end of no chain that matches. -/
theorem WellFormed.pending_unmatched (wf : l.WellFormed) (standing : t.Standing l)
    (out : t.Admitted p = false) : l.pending p [t] = [] := by
  obtain ⟨n, rest, before, same, present, member⟩ := standing
  rw [pending, List.flatMap_singleton, List.filter_eq_nil_iff]
  intro nodes listed accepted
  rw [completions, same, List.mem_map] at listed
  obtain ⟨front, way, rfl⟩ := listed
  obtain ⟨_, chain⟩ := (wf.mem_ways present member front).mp way
  rw [Tail.Admitted, same, chain.joins.admits accepted] at out
  contradiction

theorem WellFormed.pending_admitted (wf : l.WellFormed) (standing : ∀ t ∈ ts, t.Standing l) :
    l.pending p (ts.filter (Tail.Admitted p)) = l.pending p ts := by
  induction ts with
  | nil => rfl
  | cons t ts ih =>
    obtain ⟨first, later⟩ := List.forall_mem_cons.mp standing
    rw [← List.singleton_append, pending_append, ← ih later]
    by_cases admitted : t.Admitted p = true
    · simp [admitted, ← pending_append]
    · simp [admitted, wf.pending_unmatched first]

/-- Of the chains with a tail that match, one can be the path that the tail gives, and the others
are those with the tails that are queued instead. -/
theorem WellFormed.expand_reliable (wf : l.WellFormed) (bounded : l.Bounded finish)
    (reliable : t.Reliable l finish p) {x : Expansion σ ν} (expanded : l.expand p t = .ok x) :
    (∀ u ∈ x.tails, u.Admitted p = true → u.Reliable l finish p) ∧
    (l.pending p [t]).Perm
      (x.nodes.toList ++ l.pending p (x.tails.filter (Tail.Admitted p))) := by
  obtain ⟨⟨standing, priced, admitted⟩, exact⟩ := reliable
  obtain ⟨_, _, again, _, eligible, _⟩ := wf.expand_eligible ⟨standing, priced, admitted⟩
  obtain rfl := Except.ok.inj (expanded.symm.trans again)
  -- the tails that are admitted are those that come out without a pattern
  obtain ⟨y, path, expanded', complete, filters, _⟩ := wf.expand_filtered p standing
  obtain ⟨_, again', same⟩ := filters admitted
  obtain rfl := Except.ok.inj (expanded.symm.trans again')
  obtain ⟨_, splits⟩ := wf.splits_of_expand bounded standing exact expanded'
  obtain rfl := Option.some.inj (complete.symm.trans splits.nodes)
  obtain ⟨_, again'', further⟩ := wf.expand_ok (p := .empty) standing
  obtain rfl := Except.ok.inj (expanded'.symm.trans again'')
  constructor
  · intro u member passed
    have inside : u ∈ y.tails.filter (Tail.Admitted p) :=
      same.tails ▸ List.mem_filter.mpr ⟨member, passed⟩
    exact ⟨eligible u member passed, splits.exact u (List.mem_filter.mp inside).1⟩
  · have shared := splits.perm.filter p.accepts
    rw [same.nodes, same.tails, wf.pending_admitted further, pending, List.flatMap_singleton]
    by_cases accepted : p.accepts path = true <;> simpa [accepted, pending] using shared

namespace Pops

variable {results : List (Option (Path σ ν))}

theorem reliable (wf : l.WellFormed) (bounded : l.Bounded finish) (pops : l.Pops p ts results us)
    (all : ∀ t ∈ ts, t.Reliable l finish p) : ∀ u ∈ us, u.Reliable l finish p :=
  pops.forall_tails (fun _ _ reliable expanded =>
    (wf.expand_reliable bounded reliable expanded).1) all

/-- The chains that match are shared out between the paths that come out and the tails that
wait in the end. -/
theorem partition (wf : l.WellFormed) (bounded : l.Bounded finish) (pops : l.Pops p ts results us)
    (all : ∀ t ∈ ts, t.Reliable l finish p) :
    (l.pending p ts).Perm (results.reduceOption.map Path.nodes ++ l.pending p us) := by
  induction pops with
  | done => exact .refl _
  | @pop t x ts results us expanded _ ih =>
    have once : l.Pops p (t :: ts) _ (x.queued p ts) := .pop expanded .done
    have onward := ih (once.reliable wf bounded all)
    obtain ⟨_, shared⟩ := wf.expand_reliable bounded (all t List.mem_cons_self) expanded
    have waiting := pending_perm (l := l) (p := p)
      (Tail.enterAll_perm (x.tails.filter (Tail.Admitted p)) ts)
    have found : (x.nodes.map (⟨·, t.wholeCost⟩) :: results).reduceOption.map Path.nodes =
        x.nodes.toList ++ results.reduceOption.map Path.nodes := by
      cases x.nodes <;> rfl
    rw [pending_append] at waiting
    rw [found, List.append_assoc]
    calc l.pending p (t :: ts)
      _ = l.pending p [t] ++ l.pending p ts := pending_append l p [t] ts
      _ |>.Perm _ := shared.append_right _
      _ = _ := List.append_assoc _ _ _
      _ |>.Perm _ := (waiting.symm.trans onward).append_left _

end Pops

/-- A tail with exact costs is the end of a chain. -/
theorem WellFormed.exists_completion (wf : l.WellFormed) (reliable : t.Reliable l finish p) :
    ∃ nodes, nodes ∈ l.completions t := by
  obtain ⟨n, rest, before, same, present, member⟩ := reliable.eligible.standing
  obtain ⟨_, _, _, same', _, reached, _⟩ := reliable.exact
  obtain ⟨rfl, rfl⟩ := List.cons.inj (same.symm.trans same')
  obtain ⟨front, met, chain, _⟩ := wf.finite_chain present member reached
  rw [completions, same]
  exact ⟨_, List.mem_map_of_mem ((wf.mem_ways present member front).mpr ⟨met, chain⟩)⟩

/-- Of two tails that no chain has in common, none is the end of the other. -/
theorem WellFormed.not_suffix (wf : l.WellFormed) (first : t.Reliable l finish p)
    (second : u.Reliable l finish p)
    (apart : (l.completions t).Disjoint (l.completions u)) : ¬ t.nodes <:+ u.nodes := by
  intro suffix
  obtain ⟨nodes, listed⟩ := wf.exists_completion second
  obtain ⟨ends, chain⟩ := (wf.mem_completions second).mp listed
  exact apart ((wf.mem_completions first).mpr ⟨suffix.trans ends, chain⟩) listed

end Lattice

namespace Enumeration

variable {e after : Enumeration σ ν} {seeds : List (Tail σ ν)} {paths : List (Path σ ν)}
  {identity : Nat}

/-- The tails that a search begins with are the ends of all chains that match. -/
theorem Begins.pending (wf : l.WellFormed) (bounded : l.Bounded finish)
    (begins : Begins l finish p seeds) : (∀ t ∈ seeds, t.Reliable l finish p) ∧
      ∀ nodes, nodes ∈ l.pending p seeds ↔
        (∃ costs, Chain l.Passes nodes costs finish) ∧ p.accepts nodes = true := by
  have eligible := begins.eligible
  obtain ⟨origin, before, follows, present, begun⟩ := begins
  obtain ⟨shared, exact⟩ := wf.seeds_share bounded follows present rfl
  have standing : ∀ t ∈ (before.nodes.zip finish.edgeCosts).filterMap
      (Tail.grown? [finish] finish.entry.cost), t.Standing l := by
    intro t member
    obtain ⟨pred, inside, grown⟩ := List.mem_filterMap.mp member
    exact Tail.standing_of_grown? follows present (List.of_mem_zip inside).1 grown
  constructor
  · intro t member
    exact ⟨eligible t member, exact t (List.mem_filter.mp (begun.perm.mem_iff.mp member)).1⟩
  · intro nodes
    have same := (Lattice.pending_perm (l := l) (p := p) begun.perm).mem_iff (a := nodes)
    rw [same]
    change nodes ∈ l.pending p (List.filter (Tail.Admitted p) _) ↔ _
    rw [wf.pending_admitted standing, Lattice.pending, ← shared, List.mem_filter,
      Lattice.mem_ways_of_follows follows present (Nat.lt_succ_self _)
        fun _ => wf.mem_ways present]

namespace Underway

variable (wf : l.WellFormed) (underway : Underway l finish p seeds paths e)
  (begins : Begins l finish p seeds)

include wf underway begins

theorem reliable (bounded : l.Bounded finish) :
    ∀ t ∈ e.frontier.tails, t.Reliable l finish p := by
  obtain ⟨_, pops, _⟩ := underway.pops
  exact pops.reliable wf bounded (begins.pending wf bounded).1

/-- A chain that matches has been reached, or is ahead, or ends with a tail that waits. -/
theorem partition (bounded : l.Bounded finish) (chain : Chain l.Passes nodes costs finish)
    (accepted : p.accepts nodes = true) :
    nodes ∈ (paths ++ e.ahead.toList).map Path.nodes ∨ nodes ∈ l.pending p e.frontier.tails := by
  obtain ⟨reliable, pending⟩ := begins.pending wf bounded
  obtain ⟨_, pops, reached⟩ := underway.pops
  have shared := pops.partition wf bounded reliable
  rw [reached] at shared
  exact List.mem_append.mp (shared.mem_iff.mp ((pending nodes).mpr ⟨⟨costs, chain⟩, accepted⟩))

/-- No chain is a completion of two tails that wait. -/
theorem queue_apart : e.frontier.queue.Pairwise fun first second =>
    (l.completions first.tail).Disjoint (l.completions second.tail) := by
  obtain ⟨once, _⟩ := underway.apart wf begins
  have each := (List.nodup_flatMap.mp (List.nodup_append.mp once).2.1).2
  rw [Frontier.tails, List.pairwise_map] at each
  exact each

/-- If a chain is a completion of the tail of a ticket, it is not one of any other ticket's. -/
theorem only_ticket {ticket : Ticket σ ν} (member : ticket ∈ e.frontier.queue)
    (listed : nodes ∈ l.completions ticket.tail) :
    ∃ first last, e.frontier.queue = first ++ ticket :: last ∧
      ∀ other ∈ first ++ last, nodes ∉ l.completions other.tail := by
  have queued := underway.queue_apart wf begins
  obtain ⟨first, last, queue⟩ := List.append_of_mem member
  rw [queue, List.pairwise_middle fun apart => apart.symm] at queued
  obtain ⟨others, _⟩ := List.pairwise_cons.mp queued
  exact ⟨first, last, queue, fun other elsewhere => others other elsewhere listed⟩

end Underway

/-- At any time, a chain that matches, has nothing out of reach and has not been reached is the
path ahead or ends with the tail of exactly one ticket in the queue. No path that has been
reached ends with a tail that waits, nor does the one ahead, and no tail that waits is the end
of another. -/
theorem remaining_partitioned [Sequence σ] (reachable : l.Reachable) (bounded : l.Bounded finish)
    (accepted : start identity l finish p = .ok e) (reaches : e.Reaches paths after) :
    (∀ nodes costs, Chain l.Passes nodes costs finish → p.accepts nodes = true →
      nodes ∉ paths.map Path.nodes →
        (∃ path, after.ahead = some path ∧ path.nodes = nodes) ∨
        ∃ first ticket last, after.frontier.queue = first ++ ticket :: last ∧
          ticket.tail.nodes <:+ nodes ∧ ∀ other ∈ first ++ last, ¬ other.tail.nodes <:+ nodes) ∧
    (∀ path ∈ paths ++ after.ahead.toList, ∀ ticket ∈ after.frontier.queue,
      ¬ ticket.tail.nodes <:+ path.nodes) ∧
    after.frontier.queue.Pairwise fun first second =>
      ¬ first.tail.nodes <:+ second.tail.nodes ∧ ¬ second.tail.nodes <:+ first.tail.nodes := by
  have wf := reachable.wellFormed
  obtain ⟨seeds, begins, begun⟩ := underway_of_start accepted
  have underway := reaches.underway wf begins begun
  have reliable : ∀ ticket ∈ after.frontier.queue, ticket.tail.Reliable l finish p :=
    fun ticket member => underway.reliable wf begins bounded _ (List.mem_map_of_mem member)
  refine ⟨?remaining, ?reached, ?apart⟩
  case remaining =>
    intro nodes costs chain accepted unreached
    obtain found | waiting := underway.partition wf begins bounded chain accepted
    · rw [List.map_append, List.mem_append] at found
      obtain ⟨path, inside, same⟩ := List.mem_map.mp (found.resolve_left unreached)
      exact .inl ⟨path, Option.mem_toList.mp inside, same⟩
    · obtain ⟨t, inside, listed⟩ := List.mem_flatMap.mp (List.mem_filter.mp waiting).1
      obtain ⟨ticket, member, rfl⟩ := List.mem_map.mp inside
      obtain ⟨first, last, queue, others⟩ := underway.only_ticket wf begins member listed
      obtain ⟨suffix, _⟩ := (wf.mem_completions (reliable ticket member)).mp listed
      refine .inr ⟨first, ticket, last, queue, suffix, ?_⟩
      intro other elsewhere suffix'
      have present : other ∈ after.frontier.queue := by
        simp only [queue, List.mem_append, List.mem_cons] at elsewhere ⊢
        exact elsewhere.imp_right .inr
      refine others other elsewhere ?_
      exact (wf.mem_completions (reliable other present)).mpr ⟨suffix', costs, chain⟩
  case reached =>
    intro path member ticket inside suffix
    obtain ⟨once, all⟩ := underway.apart wf begins
    have listed :=
      (wf.mem_completions (reliable ticket inside)).mpr ⟨suffix, (all path member).1⟩
    refine List.disjoint_of_nodup_append once (List.mem_map_of_mem member) ?_
    exact List.mem_flatMap.mpr ⟨ticket.tail, List.mem_map_of_mem inside, listed⟩
  case apart =>
    refine (underway.queue_apart wf begins).imp_of_mem ?_
    intro first second member member' apart
    exact ⟨wf.not_suffix (reliable first member) (reliable second member') apart,
      wf.not_suffix (reliable second member') (reliable first member) apart.symm⟩

end Enumeration

namespace Overlap

/-- With "a" after it, which has its two readings again. -/
def longer : Lattice Empty Nat := (lattice.push (.text "a")).lattice

theorem longer_reachable : longer.Reachable := .push _ reachable

theorem longer_bounded : longer.Bounded longer.ending :=
  longer_reachable.wellFormed.bounded_of_small (w := 8) (by decide) (by decide) (by decide)

/-- "ab" as one word. -/
def whole : Node Empty Nat := ⟨⟨some (.text "ab"), some 3, 8⟩, 0, some ⟨0, 0⟩, [1], 9⟩

/-- The cheaper reading of the last letter. -/
def letter : Node Empty Nat := ⟨⟨some (.text "a"), some 1, 3⟩, 1, some ⟨2, 1⟩, [1, 1], 7⟩

/-- When one of the four paths of "aba" has been reached, and there is another one ahead, the two
with "ab" as a word wait for a tail each. -/
theorem remaining_partitioned_third : longer.Reachable ∧ longer.Bounded longer.ending ∧
    Chain longer.Passes [.start [], whole, letter, longer.ending] [1, 8, 1, 3, 1, 0]
      longer.ending ∧
    ∃ e paths after, Enumeration.start 0 longer longer.ending .empty = .ok e ∧
      e.Reaches paths after ∧ paths.map (fun path => path.nodes.length) = [5] ∧
      after.ahead.map (fun path => path.nodes.length) = some 5 ∧ after.frontier.queue.length = 2 ∧
      (∃ first ticket last, after.frontier.queue = first ++ ticket :: last ∧
        ticket.tail.nodes <:+ [.start [], whole, letter, longer.ending] ∧
        ∀ other ∈ first ++ last,
          ¬ other.tail.nodes <:+ [.start [], whole, letter, longer.ending]) ∧
      ∀ path ∈ paths ++ after.ahead.toList, ∀ ticket ∈ after.frontier.queue,
        ¬ ticket.tail.nodes <:+ path.nodes := by
  have chain : Chain longer.Passes ([.start []] ++ [whole] ++ [letter] ++ [longer.ending])
      [1, 8, 1, 3, 1, 0] longer.ending := by
    have first : longer.Passes (.start []) 1 whole :=
      ⟨⟨_, _, rfl, rfl, .head _⟩, by decide, by decide⟩
    have second : longer.Passes whole 1 letter :=
      ⟨⟨_, _, rfl, rfl, .head _⟩, by decide, by decide⟩
    have third : longer.Passes letter 1 longer.ending :=
      ⟨⟨_, _, rfl, rfl, .tail _ (.head _)⟩, by decide, by decide⟩
    exact ((Chain.start.next first).next second).next third
  have reported : (fun e => ((e.take 1).1.map (fun path => path.nodes.length),
      (e.take 1).2.ahead.map (fun path => path.nodes.length),
      (e.take 1).2.frontier.queue.length)) <$>
        Enumeration.start 0 longer longer.ending .empty = .ok ([5], some 5, 2) := by
    decide +kernel
  obtain ⟨e, accepted, known⟩ := map_ok_iff.mp reported
  simp only [Prod.mk.injEq] at known
  obtain ⟨reached, ahead, waiting⟩ := known
  have reaches := e.reaches_take 1
  obtain ⟨remaining, apart, _⟩ :=
    Enumeration.remaining_partitioned longer_reachable longer_bounded accepted reaches
  refine ⟨longer_reachable, longer_bounded, chain, e, _, _, accepted, reaches, reached, ahead,
    waiting, ?_, apart⟩
  have unreached : [.start [], whole, letter, longer.ending] ∉ (e.take 1).1.map Path.nodes := by
    intro member
    have length := List.mem_map_of_mem (f := List.length) member
    rw [List.map_map] at length
    simp [Function.comp_def, reached] at length
  refine (remaining _ _ chain rfl unreached).resolve_left ?_
  rintro ⟨path, here, nodes⟩
  simp [here, nodes] at ahead

end Overlap

end Segmentation
