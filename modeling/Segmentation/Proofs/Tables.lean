import Segmentation.Lexicon
import Segmentation.Proofs.Alike

/-! Looking things up in a vocabulary that is given by tables.
Where several rows are for one key, the last of them counts. Keys that differ have different
numbers, and a number that has been given out is never changed, so that nothing is mixed up by
keeping numbers instead of keys. -/
namespace Segmentation

variable {α β σ ν : Type}

section Keys

variable [BEq α] [BEq β]

theorem beq_prod_iff {a b : α × β} :
    (a == b) = true ↔ (a.1 == b.1) = true ∧ (a.2 == b.2) = true := by
  change (_ && _) = true ↔ _
  exact Bool.and_eq_true_iff

instance equivBEq_prod [EquivBEq α] [EquivBEq β] : EquivBEq (α × β) where
  symm same := by
    obtain ⟨first, second⟩ := beq_prod_iff.mp same
    exact beq_prod_iff.mpr ⟨BEq.symm first, BEq.symm second⟩
  trans same same' := by
    obtain ⟨first, second⟩ := beq_prod_iff.mp same
    obtain ⟨first', second'⟩ := beq_prod_iff.mp same'
    exact beq_prod_iff.mpr ⟨BEq.trans first first', BEq.trans second second'⟩

instance [BEq σ] [Hashable σ] [LawfulHashable σ] : LawfulHashable (Fragment σ) where
  hash_eq f g same := by
    cases f <;> cases g <;> try contradiction
    · exact congrArg (mixHash _) (hash_eq (α := String) same)
    · exact congrArg (mixHash _) (hash_eq (α := σ) same)

instance hashable_empty : Hashable Empty := ⟨nofun⟩

/-- Another key is a new one unless it equals one of those before. -/
theorem length_eraseDups_concat [EquivBEq α] (keys : List α) (key : α) :
    (keys ++ [key]).eraseDups.length =
      if keys.contains key then keys.eraseDups.length else keys.eraseDups.length + 1 := by
  generalize bound : keys.length = length
  induction length using Nat.strongRecOn generalizing keys with
  | ind length ih =>
    subst bound
    cases keys with
    | nil => rfl
    | cons first keys =>
      have fewer : (keys.filter fun other => !other == first).length < (first :: keys).length :=
        Nat.lt_succ_of_le (List.length_filter_le _ _)
      have onward := ih _ fewer _ rfl
      rw [List.cons_append, List.eraseDups_cons, List.eraseDups_cons, List.filter_append,
        List.contains_cons]
      cases same : key == first with
      | true => simp [same]
      | false =>
        have kept : (keys.filter fun other => !other == first).contains key =
            keys.contains key := by
          rw [Bool.eq_iff_iff, List.contains_iff_exists_mem_beq, List.contains_iff_exists_mem_beq]
          constructor
          · rintro ⟨other, member, equal⟩
            exact ⟨other, (List.mem_filter.mp member).1, equal⟩
          · rintro ⟨other, member, equal⟩
            refine ⟨other, List.mem_filter.mpr ⟨member, ?_⟩, equal⟩
            rw [← BEq.congr_left equal, same]
            rfl
        rw [kept] at onward
        simp only [same, List.filter_cons, Bool.not_false, if_true, List.filter_nil, onward,
          List.length_cons, Bool.false_or]
        split <;> rfl

end Keys

section Rows

variable [BEq α]

/-- What the last row for a key says. -/
def lastRow (rows : List (α × β)) (key : α) : Option β :=
  rows.findSomeRev? fun row => if row.1 == key then some row.2 else none

theorem lastRow_concat (rows : List (α × β)) (row : α × β) (key : α) :
    lastRow (rows ++ [row]) key = if row.1 == key then some row.2 else lastRow rows key := by
  simp only [lastRow, List.findSomeRev?_eq_findSome?_reverse, List.reverse_append,
    List.reverse_singleton, List.singleton_append, List.findSome?_cons]
  split <;> simp_all

theorem exists_of_lastRow {rows : List (α × β)} {key : α} {value : β}
    (last : lastRow rows key = some value) :
    ∃ row ∈ rows, (row.1 == key) = true ∧ row.2 = value := by
  rw [lastRow, List.findSomeRev?_eq_findSome?_reverse] at last
  obtain ⟨row, member, found⟩ := List.exists_of_findSome?_eq_some last
  obtain ⟨same, told⟩ := Option.ite_none_right_eq_some.mp found
  exact ⟨row, List.mem_reverse.mp member, same, Option.some.inj told⟩

theorem isSome_lastRow [EquivBEq α] (rows : List (α × β)) (key : α) :
    (lastRow rows key).isSome = (rows.map Prod.fst).contains key := by
  induction rows using List.reverseRecOn with
  | nil => rfl
  | append_singleton rows row ih =>
    rw [lastRow_concat, List.map_append, List.contains_append, ← ih]
    cases same : row.1 == key <;> simp [same, BEq.comm (a := key)]

variable [Hashable α] [EquivBEq α] [LawfulHashable α]

theorem getElem?_ofList (rows : List (α × β)) (key : α) :
    (Std.HashMap.ofList rows)[key]? = lastRow rows key := by
  rw [Std.HashMap.ofList_eq_insertMany_empty, Std.HashMap.getElem?_insertMany_list,
    Std.HashMap.getElem?_empty, Option.or_none]
  rfl

theorem size_ofList (rows : List (α × β)) :
    (Std.HashMap.ofList rows).size = (rows.map Prod.fst).eraseDups.length := by
  induction rows using List.reverseRecOn with
  | nil => rfl
  | append_singleton rows row ih =>
    have grown : Std.HashMap.ofList (rows ++ [row]) =
        (Std.HashMap.ofList rows).insert row.1 row.2 := by
      rw [Std.HashMap.ofList_eq_insertMany_empty, Std.HashMap.insertMany_append,
        Std.HashMap.insertMany_list_singleton, Std.HashMap.ofList_eq_insertMany_empty]
    rw [grown, Std.HashMap.size_insert, List.map_append, List.map_singleton,
      length_eraseDups_concat, ih]
    simp only [Std.HashMap.mem_ofList]

end Rows

/-- What two tables say, without numbers for their keys. -/
def Vocabulary.ofRows [BEq σ] (entries : List (Fragment σ × List (Entry σ ν)))
    (connections : List ((Option (Fragment σ) × Option (Fragment σ)) × Cost)) :
    Vocabulary σ ν where
  entries key := (lastRow entries key).getD []
  connection before after := lastRow connections (before.entry.key, after.key)

namespace Lexicon

variable [BEq σ] [Hashable σ] {x : Lexicon σ ν} {key key' before after : Option (Fragment σ)}
  {n : Nat} {rows : List ((Option (Fragment σ) × Option (Fragment σ)) × Cost)}

/-- Each key has a number of its own, and no other numbers are in use. -/
structure Numbered (x : Lexicon σ ν) : Prop where
  within : ∀ key n, x.number? key = some n → n ≤ x.numbers.size
  apart : ∀ key key' n, x.number? key = some n → x.number? key' = some n → (key == key') = true
  used : ∀ i j, (i, j) ∈ x.connections → i ≤ x.numbers.size ∧ j ≤ x.numbers.size

/-- The connections are those that are listed in the rows. -/
structure Reflects (x : Lexicon σ ν)
    (rows : List ((Option (Fragment σ) × Option (Fragment σ)) × Cost)) : Prop where
  numbered : x.Numbered
  link : ∀ before after, x.link before after = lastRow rows (before, after)
  count : x.connectionCount = (rows.map Prod.fst).eraseDups.length

theorem link_eq (x : Lexicon σ ν) (before after : Option (Fragment σ)) :
    x.link before after = (x.number? before).bind fun i =>
      (x.number? after).bind fun j => x.connections[(i, j)]? := rfl

theorem intern_connections (x : Lexicon σ ν) (key : Option (Fragment σ)) :
    (x.intern key).2.connections = x.connections := by
  cases key <;> rfl

theorem intern_entries (x : Lexicon σ ν) (key : Option (Fragment σ)) :
    (x.intern key).2.entries = x.entries := by
  cases key <;> rfl

theorem reflects_empty (entries : Std.HashMap (Fragment σ) (List (Entry σ ν))) :
    (⟨entries, ∅, ∅⟩ : Lexicon σ ν).Reflects [] := by
  have unconnected (i j : Nat) : (∅ : Std.HashMap (Nat × Nat) Cost)[(i, j)]? = none :=
    Std.HashMap.getElem?_empty
  have zero (key : Option (Fragment σ)) (n : Nat)
      (found : (⟨entries, ∅, ∅⟩ : Lexicon σ ν).number? key = some n) : key = none ∧ n = 0 := by
    cases key with
    | none => exact ⟨rfl, (Option.some.inj found).symm⟩
    | some key =>
      rw [number?, Std.HashMap.getElem?_empty] at found
      contradiction
  refine ⟨⟨?_, ?_, ?_⟩, ?_, rfl⟩
  · intro key n found
    exact Nat.le_of_eq (zero key n found).2
  · intro key key' n found found'
    rw [(zero key n found).1, (zero key' n found').1]
    rfl
  · intro i j member
    exact absurd member Std.HashMap.not_mem_empty
  · intro before after
    rw [link_eq]
    simp only [unconnected, Option.bind_fun_none]
    rfl

variable [EquivBEq σ] [LawfulHashable σ]

theorem number?_congr (x : Lexicon σ ν) (same : (key == key') = true) :
    x.number? key = x.number? key' := by
  cases key <;> cases key' <;> try contradiction
  · rfl
  · exact Std.HashMap.getElem?_congr same

/-- A key that has a number keeps it, and nothing else changes. One that has none is given the
number after all those given out before. -/
theorem intern_cases (x : Lexicon σ ν) (key : Option (Fragment σ)) :
    (x.number? key = some (x.intern key).1 ∧ (x.intern key).2.number? = x.number? ∧
      (x.intern key).2.numbers.size = x.numbers.size) ∨
    x.number? key = none ∧ (x.intern key).1 = x.numbers.size + 1 ∧
      (x.intern key).2.numbers.size = x.numbers.size + 1 ∧
      ∀ key', (x.intern key).2.number? key' =
        if key == key' then some (x.numbers.size + 1) else x.number? key' := by
  cases key with
  | none => exact .inl ⟨rfl, rfl, rfl⟩
  | some key =>
    simp only [intern, number?, Std.HashMap.getD_eq_getD_getElem?, Std.HashMap.size_insertIfNew]
    by_cases known : key ∈ x.numbers
    · obtain ⟨n, found⟩ := Option.isSome_iff_exists.mp
        (Std.HashMap.mem_iff_isSome_getElem?.mp known)
      refine .inl ⟨by rw [found]; rfl, ?_, if_pos known⟩
      funext key'
      cases key' with
      | none => rfl
      | some key' =>
        simp only [number?, Std.HashMap.getElem?_insertIfNew, known, not_true, and_false, if_false]
    · have absent := Std.HashMap.getElem?_eq_none known
      refine .inr ⟨absent, by rw [absent]; rfl, if_neg known, ?_⟩
      intro key'
      cases key' with
      | none => rfl
      | some key' =>
        change (x.numbers.insertIfNew key _)[key']? =
          if (key == key') = true then _ else x.numbers[key']?
        simp only [Std.HashMap.getElem?_insertIfNew, known, not_false_eq_true, and_true]

theorem number?_intern_self (x : Lexicon σ ν) (key : Option (Fragment σ)) :
    (x.intern key).2.number? key = some (x.intern key).1 := by
  obtain ⟨known, same, _⟩ | ⟨_, next, _, others⟩ := x.intern_cases key
  · rw [same, known]
  · rw [others, if_pos BEq.rfl, next]

/-- A number that has been given out stays. -/
theorem number?_intern_of_some (known : x.number? key' = some n) :
    (x.intern key).2.number? key' = some n := by
  obtain ⟨_, same, _⟩ | ⟨unknown, _, _, others⟩ := x.intern_cases key
  · rw [same, known]
  · rw [others, if_neg, known]
    intro same
    rw [x.number?_congr same, known] at unknown
    contradiction

theorem Numbered.intern (numbered : x.Numbered) (key : Option (Fragment σ)) :
    (x.intern key).2.Numbered := by
  obtain ⟨_, same, size⟩ | ⟨_, _, size, others⟩ := x.intern_cases key
  · refine ⟨?_, ?_, ?_⟩
    · rw [same, size]
      exact numbered.within
    · rw [same]
      exact numbered.apart
    · rw [intern_connections, size]
      exact numbered.used
  · refine ⟨?within, ?apart, ?used⟩
    case within =>
      intro key' n found
      rw [others] at found
      rw [size]
      split at found
      · exact Nat.le_of_eq (Option.some.inj found).symm
      · exact Nat.le_succ_of_le (numbered.within key' n found)
    case apart =>
      intro first second n found found'
      rw [others] at found found'
      split at found
      next equal =>
        split at found'
        next equal' => exact BEq.trans (BEq.symm equal) equal'
        next =>
          have old := numbered.within second n found'
          have := Option.some.inj found
          omega
      next =>
        split at found'
        next =>
          have old := numbered.within first n found
          have := Option.some.inj found'
          omega
        next => exact numbered.apart first second n found found'
    case used =>
      intro i j present
      rw [intern_connections] at present
      have := numbered.used i j present
      omega

/-- Giving out a number connects nothing. -/
theorem Numbered.link_intern (numbered : x.Numbered) (key : Option (Fragment σ)) :
    (x.intern key).2.link before after = x.link before after := by
  rw [link_eq, link_eq, intern_connections]
  obtain ⟨_, same, _⟩ | ⟨unknown, _, _, others⟩ := x.intern_cases key
  · rw [same]
  have unused (i j : Nat) (new : x.numbers.size < i ∨ x.numbers.size < j) :
      x.connections[(i, j)]? = none := by
    refine Std.HashMap.getElem?_eq_none ?_
    intro present
    have := numbered.used i j present
    omega
  rw [others, others]
  by_cases first : (key == before) = true
  · rw [if_pos first, ← x.number?_congr first, unknown]
    simp only [Option.bind_some, unused _ _ (.inl (Nat.lt_succ_self _)), Option.bind_fun_none,
      Option.bind_none]
  rw [if_neg first]
  by_cases second : (key == after) = true
  · rw [if_pos second, ← x.number?_congr second, unknown]
    simp only [Option.bind_some, unused _ _ (.inr (Nat.lt_succ_self _)), Option.bind_none]
  · rw [if_neg second]

section Insert

variable {source target : Option (Fragment σ)} {i j : Nat}

omit [EquivBEq σ] [LawfulHashable σ] in
theorem Numbered.insert (numbered : x.Numbered) (number : x.number? source = some i)
    (number' : x.number? target = some j) (cost : Cost) :
    { x with connections := x.connections.insert (i, j) cost }.Numbered := by
  refine ⟨numbered.within, numbered.apart, ?_⟩
  intro i' j' member
  rw [Std.HashMap.mem_insert, beq_iff_eq, Prod.mk.injEq] at member
  obtain ⟨rfl, rfl⟩ | member := member
  · exact ⟨numbered.within _ _ number, numbered.within _ _ number'⟩
  · exact numbered.used i' j' member

/-- What is connected by the numbers of two keys is connected for these keys only. -/
theorem Numbered.link_insert (numbered : x.Numbered) (number : x.number? source = some i)
    (number' : x.number? target = some j) (cost : Cost) :
    { x with connections := x.connections.insert (i, j) cost }.link before after =
      if (source, target) == (before, after) then some cost else x.link before after := by
  change ((x.number? before).bind fun i' => (x.number? after).bind fun j' =>
    (x.connections.insert (i, j) cost)[(i', j')]?) = _
  by_cases same : ((source, target) == (before, after)) = true
  · obtain ⟨first, second⟩ := beq_prod_iff.mp same
    rw [if_pos same, ← x.number?_congr first, ← x.number?_congr second, number, number']
    exact Std.HashMap.getElem?_insert_self
  rw [if_neg same, link_eq]
  cases found : x.number? before with
  | none => rfl
  | some i' =>
    cases found' : x.number? after with
    | none => rfl
    | some j' =>
      simp only [Option.bind_some]
      rw [Std.HashMap.getElem?_insert, if_neg]
      rw [beq_iff_eq, Prod.mk.injEq]
      rintro ⟨rfl, rfl⟩
      exact same (beq_prod_iff.mpr
        ⟨numbered.apart _ _ _ number found, numbered.apart _ _ _ number' found'⟩)

end Insert

/-- Another row counts instead of those before it for the same two keys. -/
theorem Reflects.add (reflects : x.Reflects rows)
    (row : (Option (Fragment σ) × Option (Fragment σ)) × Cost) :
    (x.addConnection row).Reflects (rows ++ [row]) := by
  obtain ⟨⟨source, target⟩, cost⟩ := row
  let first := x.intern source
  let second := first.2.intern target
  have numbered : second.2.Numbered := (reflects.numbered.intern source).intern target
  have number : second.2.number? source = some first.1 :=
    number?_intern_of_some (x.number?_intern_self source)
  have number' : second.2.number? target = some second.1 := first.2.number?_intern_self target
  have old (before after : Option (Fragment σ)) :
      second.2.link before after = lastRow rows (before, after) := by
    rw [(reflects.numbered.intern source).link_intern, reflects.numbered.link_intern,
      reflects.link]
  have added : x.addConnection ((source, target), cost) =
      { second.2 with connections := second.2.connections.insert (first.1, second.1) cost } := rfl
  rw [added]
  refine ⟨numbered.insert number number' cost, ?link, ?count⟩
  case link =>
    intro before after
    rw [numbered.link_insert number number', old, lastRow_concat]
  case count =>
    have present : (first.1, second.1) ∈ second.2.connections ↔
        (rows.map Prod.fst).contains (source, target) = true := by
      rw [Std.HashMap.mem_iff_isSome_getElem?, ← isSome_lastRow, ← old, link_eq, number, number']
      rfl
    have count : second.2.connectionCount = (rows.map Prod.fst).eraseDups.length := by
      rw [connectionCount, intern_connections, intern_connections]
      exact reflects.count
    rw [connectionCount, Std.HashMap.size_insert, List.map_append, List.map_singleton,
      length_eraseDups_concat, ← count]
    simp only [present]
    rfl

theorem Reflects.addAll (reflects : x.Reflects rows)
    (more : List ((Option (Fragment σ) × Option (Fragment σ)) × Cost)) :
    (more.foldl addConnection x).Reflects (rows ++ more) ∧
      (more.foldl addConnection x).entries = x.entries := by
  induction more generalizing x rows with
  | nil => exact ⟨(List.append_nil rows).symm ▸ reflects, rfl⟩
  | cons row more ih =>
    obtain ⟨onward, same⟩ := ih (reflects.add row)
    rw [List.append_assoc] at onward
    refine ⟨onward, same.trans ?_⟩
    rw [addConnection, intern_entries, intern_entries]

section OfLists

variable (entries : List (Fragment σ × List (Entry σ ν)))
  (connections : List ((Option (Fragment σ) × Option (Fragment σ)) × Cost))

theorem ofLists_reflects : (ofLists entries connections).Reflects connections ∧
    (ofLists entries connections).entries = .ofList entries :=
  (reflects_empty (.ofList entries)).addAll connections

theorem find_ofLists (key : Fragment σ) :
    (ofLists entries connections).find key = (lastRow entries key).getD [] := by
  rw [find, (ofLists_reflects entries connections).2, Std.HashMap.getD_eq_getD_getElem?,
    getElem?_ofList]

theorem connect_ofLists (before after : Entry σ ν) :
    (ofLists entries connections).connect before after =
      lastRow connections (before.key, after.key) :=
  (ofLists_reflects entries connections).1.link _ _

theorem toVocabulary_ofLists :
    (ofLists entries connections).toVocabulary = .ofRows entries connections := by
  unfold toVocabulary
  congr
  · exact funext (find_ofLists entries connections)
  · exact funext fun before => funext fun after => connect_ofLists entries connections _ after

/-- A vocabulary that is made from tables finds the words of the last row for a way of writing,
and connects a node to a word at the cost of the last row for their two keys. It has as many
ways of writing, and as many pairs of keys, as there are different ones in the tables. -/
theorem ofLists_last_rows :
    (∀ key, (ofLists entries connections).toVocabulary.entries key =
      (lastRow entries key).getD []) ∧
    (∀ (n : Node σ ν) e, (ofLists entries connections).toVocabulary.connection n e =
      lastRow connections (n.entry.key, e.key)) ∧
    (ofLists entries connections).keyCount = (entries.map Prod.fst).eraseDups.length ∧
    (ofLists entries connections).connectionCount =
      (connections.map Prod.fst).eraseDups.length := by
  obtain ⟨reflects, same⟩ := ofLists_reflects entries connections
  rw [toVocabulary_ofLists]
  refine ⟨fun _ => rfl, fun _ _ => rfl, ?_, reflects.count⟩
  rw [keyCount, same, size_ofList]

end OfLists

end Lexicon

/-- Numbers with a mark that makes no difference. -/
structure Marked where
  number : Nat
  mark : Bool

namespace Marked

instance : BEq Marked := ⟨fun a b => a.number == b.number⟩

instance : Hashable Marked := ⟨fun a => hash a.number⟩

instance : EquivBEq Marked where
  rfl {a} := BEq.rfl (a := a.number)
  symm {a b} same := BEq.symm (a := a.number) (b := b.number) same
  trans {a b c} first second :=
    BEq.trans (a := a.number) (b := b.number) (c := c.number) first second

instance : LawfulHashable Marked where
  hash_eq a b same := hash_eq (a := a.number) (b := b.number) same

/-- The word that is written with a number. -/
def word (number : Nat) (mark : Bool) (value : Nat) : Fragment Marked × List (Entry Marked Nat) :=
  (.custom ⟨number, mark⟩, [⟨some (.custom ⟨number, mark⟩), some value, 0⟩])

def words : List (Fragment Marked × List (Entry Marked Nat)) :=
  [word 1 false 0, word 2 false 1, word 1 true 2]

def links : List ((Option (Fragment Marked) × Option (Fragment Marked)) × Cost) :=
  [((none, some (.custom ⟨1, false⟩)), 5), ((some (.custom ⟨1, true⟩), none), 6),
    ((none, some (.custom ⟨1, true⟩)), 7)]

/-- The number one is in two rows of each table, with a mark and without one, and is the same
key in all of them. -/
theorem ofLists_last_rows_marked :
    (Lexicon.ofLists words links).toVocabulary.entries (.custom ⟨1, false⟩) =
      (word 1 true 2).2 ∧
    (∀ e ∈ (word 1 false 0).2,
      (Lexicon.ofLists words links).toVocabulary.connection (.start []) e = some 7) ∧
    (Lexicon.ofLists words links).keyCount = 2 ∧
    (Lexicon.ofLists words links).connectionCount = 2 := by
  obtain ⟨found, connected, keys, pairs⟩ := Lexicon.ofLists_last_rows words links
  refine ⟨found _, ?_, keys, pairs⟩
  intro e member
  obtain rfl := List.mem_singleton.mp member
  exact connected _ _

end Marked

end Segmentation
