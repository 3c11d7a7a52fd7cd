import Segmentation.Proofs.Advancing

/-! What an enumeration answers, in whatever order it is asked.
Only going on to the next path changes it, and once that has failed nothing does. The path that
it goes on to is the one that it has shown before. -/
namespace Segmentation

variable {σ ν : Type}

/-- What an enumeration can be asked. -/
inductive Query where
  | advance
  | next
  | current
  | peek
  | hasNext
  | isExhausted

/-- An answer with a reason if there is no path, one without, or one that is no path. -/
inductive Reply (σ ν : Type) where
  | result (found : Except Failure (Path σ ν))
  | option (found : Option (Path σ ν))
  | truth (holds : Bool)

/-- Whether asking goes on to the next path. -/
def Query.moves : Query → Bool
  | .advance | .next => true
  | _ => false

/-- The answer when there is no path any more. -/
def Query.refusal : Query → Reply σ ν
  | .advance => .result (.error (.misuse .pastLast))
  | .next => .option none
  | .current => .result (.error (.misuse .exhausted))
  | .peek => .result (.error (.misuse .noneFollows))
  | .hasNext => .truth false
  | .isExhausted => .truth true

def Reply.path? : Reply σ ν → Option (Path σ ν)
  | .result found => found.toOption
  | .option found => found
  | .truth _ => none

namespace Enumeration

variable [BEq σ] [BEq ν]

/-- An enumeration that has just been made: of nothing, or of the paths of a lattice. -/
def New (l : Lattice σ ν) (e : Enumeration σ ν) : Prop :=
  e = {} ∨ ∃ identity finish p, start identity l finish p = .ok e

def ask (e : Enumeration σ ν) : Query → Reply σ ν × Enumeration σ ν
  | .advance => (.result e.advance.1, e.advance.2)
  | .next => (.option e.next.1, e.next.2)
  | .current => (.result e.current, e)
  | .peek => (.result e.peek, e)
  | .hasNext => (.truth e.hasNext, e)
  | .isExhausted => (.truth e.isExhausted, e)

/-- Queries one after the other, with the answers to them. -/
def session (e : Enumeration σ ν) : List Query → List (Reply σ ν) × Enumeration σ ν
  | [] => ([], e)
  | query :: queries =>
    let (reply, e) := e.ask query
    let (replies, e) := e.session queries
    (reply :: replies, e)

variable {l : Lattice σ ν} {e now after : Enumeration σ ν} {path : Path σ ν}
  {paths : List (Path σ ν)} {query : Query} {queries : List Query}

theorem ask_of_moves (e : Enumeration σ ν) (moves : query.moves = true) :
    (e.ask query).2 = e.advance.2 ∧ (e.ask query).1.path? = e.advance.1.toOption := by
  cases query with
  | advance | next => exact ⟨rfl, rfl⟩
  | _ => cases moves

theorem ask_of_stays (e : Enumeration σ ν) (stays : query.moves = false) :
    (e.ask query).2 = e := by
  cases query with
  | advance | next => cases stays
  | _ => rfl

theorem session_of_stays (e : Enumeration σ ν) (stay : ∀ query ∈ queries, query.moves = false) :
    (e.session queries).2 = e := by
  induction queries with
  | nil => rfl
  | cons query queries ih =>
    obtain ⟨stays, others⟩ := List.forall_mem_cons.mp stay
    simp only [session, e.ask_of_stays stays, ih others]

/-- Whatever it is asked, an enumeration becomes what some advances make of it. -/
theorem reaches_session (e : Enumeration σ ν) (queries : List Query) :
    ∃ paths, e.Reaches paths (e.session queries).2 := by
  induction queries generalizing e with
  | nil => exact ⟨[], .stay⟩
  | cons query queries ih =>
    obtain ⟨paths, onward⟩ := ih (e.ask query).2
    cases moves : query.moves with
    | false =>
      rw [e.ask_of_stays moves] at onward
      simp only [session, e.ask_of_stays moves]
      exact ⟨paths, onward⟩
    | true =>
      rw [(e.ask_of_moves moves).1] at onward
      simp only [session, (e.ask_of_moves moves).1]
      rcases advanced : e.advance with ⟨cause | path, after⟩
      · rw [advanced] at onward
        exact ⟨_, Reaches.trans (.fail .stay advanced) onward⟩
      · rw [advanced] at onward
        exact ⟨_, Reaches.trans (.reach .stay advanced) onward⟩

theorem advance_of_none (ended : e.ahead = none) :
    e.advance = (.error (.misuse .pastLast), { e with cursor := .past }) := by
  simp only [advance, ended]

/-- An advance that succeeds goes to the path that was ahead. -/
theorem advance_ok (advanced : e.advance = (.ok path, after)) :
    e.ahead = some path ∧ after.cursor = .at path ∧ after.scope = e.scope ∧
      after.pattern = e.pattern ∧ after.index = e.index + 1 := by
  unfold advance at advanced
  split at advanced
  · cases advanced
  next ahead =>
    split at advanced
    · cases advanced
    · cases advanced
      exact ⟨ahead, rfl, rfl, rfl, rfl⟩

/-- An advance that fails leaves nothing to come. -/
theorem advance_error {cause : Failure} (advanced : e.advance = (.error cause, after)) :
    after.ahead = none ∧ after.cursor = .past ∧ after.scope = e.scope ∧
      after.pattern = e.pattern ∧ after.index = e.index := by
  unfold advance at advanced
  split at advanced
  next ended =>
    cases advanced
    exact ⟨ended, rfl, rfl, rfl, rfl⟩
  next =>
    split at advanced
    · cases advanced
      exact ⟨rfl, rfl, rfl, rfl, rfl⟩
    · cases advanced

omit [BEq σ] [BEq ν] in
theorem current_of_at (here : e.cursor = .at path) : e.current = .ok path := by
  simp only [current, here]

/-- With nothing ahead, an enumeration never has anything ahead. -/
theorem Reaches.ahead_none (ended : e.ahead = none) (reaches : e.Reaches paths now) :
    now.ahead = none := by
  induction reaches with
  | stay => exact ended
  | reach _ advanced ih =>
    rw [advance_of_none ih] at advanced
    cases advanced
  | fail _ advanced ih =>
    rw [advance_of_none ih] at advanced
    cases advanced
    exact ih

/-- Whether an advance succeeds is known before it. -/
theorem New.advance (wf : l.WellFormed) (new : e.New l) (reaches : e.Reaches paths now) :
    now.ahead = none ∨ ∃ path after, now.ahead = some path ∧ now.advance = (.ok path, after) := by
  obtain rfl | ⟨_, _, _, accepted⟩ := new
  · exact .inl (reaches.ahead_none rfl)
  · obtain ⟨seeds, begins, begun⟩ := underway_of_start accepted
    obtain ⟨ended, _⟩ | ⟨path, after, ahead, reached, _⟩ :=
      (reaches.underway wf begins begun).advance wf begins
    · exact .inl ended
    · exact .inr ⟨path, after, ahead, reached⟩

/-- Past its last path an enumeration stays as it is. -/
theorem session_past (ended : e.ahead = none) (past : e.cursor = .past) (queries : List Query) :
    e.session queries = (queries.map Query.refusal, e) := by
  have asked (query : Query) : e.ask query = (query.refusal, e) := by
    obtain ⟨_, _, _, _, _, _⟩ := e
    cases ended
    cases past
    cases query <;> rfl
  induction queries with
  | nil => rfl
  | cons query queries ih => simp only [session, asked, ih, List.map_cons]

omit [BEq σ] [BEq ν] in
theorem isExhausted_iff (e : Enumeration σ ν) : e.isExhausted = true ↔
    (∃ cause, e.current = .error cause) ∧ ∃ cause, e.peek = .error cause := by
  unfold isExhausted current peek
  cases e.cursor <;> cases e.ahead <;> simp

omit [BEq σ] [BEq ν] in
theorem ahead_of_isExhausted (exhausted : e.isExhausted = true) : e.ahead = none := by
  unfold isExhausted at exhausted
  split at exhausted
  · contradiction
  · exact Option.isNone_iff_eq_none.mp exhausted

omit [BEq σ] [BEq ν] in
theorem peek_ok : e.peek = .ok path ↔ e.ahead = some path := by
  unfold peek
  cases e.ahead <;> simp

omit [BEq σ] [BEq ν] in
theorem peek_toOption (e : Enumeration σ ν) : e.peek.toOption = e.ahead := by
  unfold peek
  cases e.ahead <;> rfl

omit [BEq σ] [BEq ν] in
theorem hasNext_iff : e.hasNext = true ↔ ∃ path, e.ahead = some path :=
  Option.isSome_iff_exists

theorem New.current (new : e.New l) : ∃ cause, e.current = .error (.misuse cause) := by
  obtain rfl | ⟨_, _, _, accepted⟩ := new
  · exact ⟨_, rfl⟩
  · obtain ⟨_, _, _, _, _, _, _, rfl⟩ := start_ok accepted
    exact ⟨_, rfl⟩

/-- At any time after an enumeration was made, and whatever it has been asked since: there is
a next path exactly if it can be peeked at and exactly if an advance succeeds, and it is the
path that the next advance goes to and that is the current one until the advance after it.
Before the first advance there is no current path. After an advance that has failed there is
no path at all, whatever it is asked, and nothing changes any more. -/
theorem session_consistent [Sequence σ] (reachable : l.Reachable) (new : e.New l)
    (queries : List Query) (asked : (e.session queries).2 = now) :
    (now.hasNext = true ↔ ∃ path, now.peek = .ok path) ∧
    (now.hasNext = true ↔ ∃ path, now.advance.1 = .ok path) ∧
    (now.isExhausted = true ↔
      (∃ cause, now.current = .error cause) ∧ ∃ cause, now.peek = .error cause) ∧
    (∀ stay : List Query, (∀ query ∈ stay, query.moves = false) → (now.session stay).2 = now) ∧
    ((∀ query ∈ queries, query.moves = false) → ∃ cause, now.current = .error (.misuse cause)) ∧
    (∀ path, now.peek = .ok path → ∀ move stay, move.moves = true →
      (∀ query ∈ stay, query.moves = false) →
        (now.ask move).1.path? = some path ∧
        ((now.ask move).2.session stay).2.current = .ok path) ∧
    ∀ cause, now.advance.1 = .error cause → ∀ move, move.moves = true →
      (now.ask move).1 = move.refusal ∧
      (now.ask move).2.frontier = now.frontier ∧ (now.ask move).2.index = now.index ∧
      ∀ later, (now.ask move).2.session later = (later.map Query.refusal, (now.ask move).2) := by
  obtain ⟨paths, reaches⟩ := e.reaches_session queries
  rw [asked] at reaches
  have outcome := new.advance reachable.wellFormed reaches
  refine ⟨?peeks, ?advances, now.isExhausted_iff, fun _ => now.session_of_stays, ?unmoved,
    ?shown, ?ended⟩
  case peeks => simp only [hasNext_iff, peek_ok]
  case advances =>
    obtain ended | ⟨path, after, ahead, advanced⟩ := outcome
    · simp [hasNext_iff, ended, advance_of_none]
    · simp [hasNext_iff, ahead, advanced]
  case unmoved =>
    intro stay
    rw [← asked, e.session_of_stays stay]
    exact new.current
  case shown =>
    intro path peeked move stay moves stays
    obtain ⟨onward, shown⟩ := now.ask_of_moves moves
    rw [session_of_stays _ stays, onward, shown]
    obtain ended | ⟨path', after, ahead, advanced⟩ := outcome
    · rw [peek_ok, ended] at peeked
      contradiction
    · obtain rfl := Option.some.inj (ahead.symm.trans (peek_ok.mp peeked))
      rw [advanced]
      exact ⟨rfl, current_of_at (advance_ok advanced).2.1⟩
  case ended =>
    intro cause failed move moves
    obtain ended | ⟨path, after, _, advanced⟩ := outcome
    · obtain ⟨onward, _⟩ := now.ask_of_moves moves
      have past : (now.ask move).2 = { now with cursor := .past } := by
        rw [onward, advance_of_none ended]
      rw [past]
      refine ⟨?_, rfl, rfl, session_past ended rfl⟩
      cases move with
      | advance | next => simp [ask, next, advance_of_none ended, Query.refusal, Except.toOption]
      | _ => cases moves
    · rw [advanced] at failed
      contradiction

end Enumeration

/-- After the first path of "ab" one can peek at the second. It is the one that comes next, and
that is still the current one when no other follows. -/
theorem Overlap.session_consistent_second : lattice.Reachable ∧ ∃ e now : Enumeration Empty Nat,
    e.New lattice ∧ (e.session [.peek, .next, .hasNext]).2 = now ∧
    ∃ path, now.peek = .ok path ∧ path.cost = 10 ∧ (now.ask .advance).1.path? = some path ∧
      ((now.ask .advance).2.session [.isExhausted, .peek]).2.current = .ok path := by
  have reported : (fun e => (e.session [.peek, .next, .hasNext]).2.ahead.map Path.cost) <$>
      Enumeration.start 0 lattice lattice.ending .empty = .ok (some 10) := by decide +kernel
  obtain ⟨e, accepted, known⟩ := map_ok_iff.mp reported
  have new : e.New lattice := .inr ⟨_, _, _, accepted⟩
  obtain ⟨path, found, cost⟩ := Option.map_eq_some_iff.mp known
  have peeked := Enumeration.peek_ok.mpr found
  obtain ⟨_, _, _, _, _, shown, _⟩ := Enumeration.session_consistent reachable new _ rfl
  obtain ⟨reached, stays⟩ := shown path peeked .advance [.isExhausted, .peek] rfl (by decide)
  exact ⟨reachable, e, _, new, rfl, path, peeked, cost, reached, stays⟩

end Segmentation
