import HornMachine.Proofs.FactStore
import Mathlib.Data.List.Induction
import Mathlib.Data.List.Nodup

/-!
# Searches open on a store in use

A store is used by asserting facts, declaring functors and asking open searches for their next
fact, in any order. A search passes over a list that only grows at its end: the facts of its
functor or, when the first argument of its pattern is ground, those of them with that argument.

Main statements: a call for the next fact moves a search to the next fact of its list that its
pattern admits (`Consistent.passed_next`), an assertion leaves what was passed as it was
(`passed_assert`), and hence every way of using a store keeps its lists, its index and its
searches in step (`Usage.inStep_after`).
-/

namespace HornMachine

/-! ### Lists without repetition -/

namespace FactStore

variable {store : FactStore}

private theorem Built.nodup_factsOf (built : store.Built) (functor : Functor) :
    (store.factsOf functor).toList.Nodup := by
  induction built with
  | empty => simp [factsOf, FactStore.empty]
  | declare _ _ ih => exact ih
  | @assert store built fact ih =>
    unfold FactStore.assert
    split
    · exact ih
    · next new =>
      rw [factsOf_append]
      split
      · next same =>
        subst same
        have absent : fact ∉ (store.factsOf fact.functor).toList := by
          rw [Array.mem_toList_iff, ← built.consistent.known]
          exact new
        rw [Array.toList_push, List.nodup_append]
        refine ⟨ih, by simp, fun other member last isLast same ↦ absent ?_⟩
        rwa [same, List.mem_singleton.1 isLast] at member
      · exact ih

/-- All lists together hold each fact once. -/
theorem Built.nodup_snapshot (built : store.Built) : store.snapshot.Nodup := by
  have sorted := List.mergeSort_perm store.byFunctor.keys fun a b ↦ (compare a b).isLE
  have apart := (sorted.nodup_iff).2 store.byFunctor.nodup_keys
  refine List.nodup_flatMap.2 ⟨fun functor _ ↦ built.nodup_factsOf functor, ?_⟩
  refine apart.imp fun {left right} different fact inLeft inRight ↦ different ?_
  have consistent := built.consistent
  rw [← consistent.functor left fact (by simpa using inLeft),
    consistent.functor right fact (by simpa using inRight)]

private theorem Built.mem_snapshot (built : store.Built) (fact : Fact) :
    fact ∈ store.snapshot ↔ store.contains fact = true := by
  rw [built.consistent.known, snapshot, List.mem_flatMap]
  constructor
  · rintro ⟨functor, -, member⟩
    rw [Array.mem_toList_iff] at member
    rwa [built.consistent.functor functor fact member]
  · intro member
    refine ⟨fact.functor, ?_, by simpa using member⟩
    rw [(List.mergeSort_perm _ _).mem_iff, Std.TreeMap.mem_keys]
    by_contra missing
    simp [factsOf, Std.TreeMap.getD_eq_fallback missing] at member

/-- The number of facts is the length of all lists together. -/
theorem Built.length_snapshot (built : store.Built) : store.snapshot.length = store.size := by
  have distinct : store.known.toList.Nodup :=
    store.known.distinct_toList.imp fun different same ↦ by simp [same] at different
  have same : store.snapshot.Perm store.known.toList :=
    (List.perm_ext_iff_of_nodup built.nodup_snapshot distinct).2 fun fact ↦ by
      rw [built.mem_snapshot, Std.TreeSet.mem_toList, contains, Std.TreeSet.contains_iff_mem]
  rw [same.length_eq, Std.TreeSet.length_toList, size]

/-! ### The list a search passes over -/

/-- The facts a search looks at: those of its functor, or those of them with its first argument if
that is ground. -/
def listed (store : FactStore) (query : Query) : List Fact :=
  match query.functor? with
  | none => []
  | some functor => (store.factsOf functor).toList.filter fun fact ↦
      query.key?.all fun first ↦ fact.args.head? = some first

/-- The facts of the functor of a search that its pattern admits, in the order they were
asserted. -/
def accepted (store : FactStore) (query : Query) : List Fact :=
  match query.functor? with
  | none => []
  | some functor => (store.factsOf functor).toList.filter query.admits

/-- The facts admitted among those that a search has passed. -/
def passed (store : FactStore) (query : Query) : List Fact :=
  ((store.listed query).take query.position).filter query.admits

private theorem accepted_eq_filter (store : FactStore) (query : Query) :
    store.accepted query = (store.listed query).filter query.admits := by
  unfold accepted listed
  cases query.functor? with
  | none => rfl
  | some functor =>
    dsimp only
    rw [List.filter_filter]
    refine List.filter_congr fun fact _ ↦ ?_
    cases key : query.key? with
    | none => simp
    | some first =>
      by_cases admits : query.admits fact = true
      · simp [admits, head?_args_of_admits key admits]
      · simp [admits]

private theorem accepted_congr {query later : Query} (same : later.pattern = query.pattern) :
    store.accepted later = store.accepted query := by
  obtain ⟨pattern, position⟩ := query
  cases same
  rfl

/-- The index leads to the facts with a first argument. -/
theorem map_positionsAmong (facts : Array Fact) (first : Term) :
    (positionsAmong facts first).map (facts[·]?) =
      (facts.toList.filter fun fact ↦ fact.args.head? = some first).map some := by
  obtain ⟨facts⟩ := facts
  induction facts using List.reverseRecOn with
  | nil => rfl
  | append_singleton facts fact ih =>
    have grown : (⟨facts ++ [fact]⟩ : Array Fact) = facts.toArray.push fact := by simp
    rw [grown, positionsAmong_push, List.map_append]
    have kept : (positionsAmong facts.toArray first).map ((facts.toArray.push fact)[·]?) =
        (positionsAmong facts.toArray first).map (facts.toArray[·]?) := by
      refine List.map_congr_left fun i member ↦ ?_
      have inside := List.mem_range.1 (List.mem_filter.1 member).1
      rw [Array.getElem?_push_lt inside, Array.getElem?_eq_getElem inside]
    rw [kept, ih, Array.toList_push, List.filter_append, List.map_append]
    by_cases same : fact.args.head? = some first <;> simp [same]

/-- Candidates are the facts a search looks at. -/
theorem Consistent.get?_candidates (consistent : store.Consistent) (query : Query) (i : Nat) :
    (store.candidates query).get? i = (store.listed query)[i]? := by
  unfold candidates listed
  cases query.functor? with
  | none => simp [Candidates.get?]
  | some functor =>
    dsimp only
    split
    · next empty =>
      have nothing : (store.factsOf functor).toList = [] := by simpa using empty
      simp [Candidates.get?, nothing]
    · cases query.key? with
      | none => simp [Candidates.get?]
      | some first =>
        have led := congrArg (fun found ↦ found[i]?.bind id)
          (map_positionsAmong (store.factsOf functor) first)
        simp only [← consistent.positions, List.getElem?_map, Array.getElem?_toList,
          Option.bind_map, Function.id_comp, Option.bind_fun_some] at led
        exact led

private theorem Consistent.size_candidates (consistent : store.Consistent) (query : Query) :
    (store.candidates query).size = (store.listed query).length := by
  unfold candidates listed
  cases query.functor? with
  | none => rfl
  | some functor =>
    dsimp only
    split
    · next empty =>
      have nothing : (store.factsOf functor).toList = [] := by simpa using empty
      simp [Candidates.size, nothing]
    · cases query.key? with
      | none => simp [Candidates.size]
      | some first =>
        have led := congrArg List.length (map_positionsAmong (store.factsOf functor) first)
        simpa [Candidates.size, ← consistent.positions] using led

/-! ### What a call and an assertion do to a search -/

/-- Looking at candidates passes those that are not admitted, up to the first that is. -/
theorem passed_scan {candidates : Candidates} {facts : List Fact} (count : Nat) (query : Query)
    (same : ∀ i, candidates.get? i = facts[i]?) (rest : query.position + count = facts.length) :
    let result := candidates.scan count query
    result.2.position ≤ facts.length ∧
      (result.1 = none → result.2.position = facts.length) ∧
      (facts.take result.2.position).filter query.admits =
        (facts.take query.position).filter query.admits ++ result.1.toList := by
  induction count generalizing query with
  | zero => simp [Candidates.scan, ← rest]
  | succ count ih =>
    have inside : query.position < facts.length := by omega
    have here : candidates.get? query.position = some facts[query.position] := by
      rw [same, List.getElem?_eq_getElem inside]
    have further : facts.take (query.position + 1) =
        facts.take query.position ++ [facts[query.position]] := by
      rw [List.take_add_one, List.getElem?_eq_getElem inside, Option.toList_some]
    have one : (facts.take (query.position + 1)).filter query.admits =
        (facts.take query.position).filter query.admits ++
          if query.admits facts[query.position] then [facts[query.position]] else [] := by
      rw [further, List.filter_append, List.filter_singleton]
      cases query.admits facts[query.position] <;> rfl
    rw [Candidates.scan, here]
    dsimp only
    split
    · next admitted =>
      refine ⟨by dsimp only; omega, by simp, ?_⟩
      rw [one, if_pos admitted, Option.toList_some]
    · next refused =>
      have later := ih { query with position := query.position + 1 } (by dsimp only; omega)
      rw [if_neg refused, List.append_nil] at one
      refine ⟨later.1, later.2.1, later.2.2.trans ?_⟩
      exact congrArg (· ++ _) one

theorem pattern_next (store : FactStore) (query : Query) :
    (store.next query).2.pattern = query.pattern :=
  Candidates.pattern_scan _ _ _

private theorem listed_congr {query later : Query} (same : later.pattern = query.pattern) :
    store.listed later = store.listed query := by
  obtain ⟨pattern, position⟩ := query
  cases same
  rfl

/-- A call for the next fact returns the next one admitted of those not passed. -/
theorem Consistent.passed_next (consistent : store.Consistent) {query : Query}
    (inside : query.position ≤ (store.listed query).length) :
    let result := store.next query
    result.2.position ≤ (store.listed result.2).length ∧
      (result.1 = none → result.2.position = (store.listed result.2).length) ∧
      store.passed result.2 = store.passed query ++ result.1.toList := by
  have scanned := passed_scan ((store.candidates query).size - query.position) query
    (consistent.get?_candidates query) (by rw [consistent.size_candidates]; omega)
  have pattern := store.pattern_next query
  have admits : (store.next query).2.admits = query.admits := by
    funext fact
    rw [Query.admits, Query.admits, pattern]
  dsimp only
  rw [passed, listed_congr pattern, admits]
  exact scanned

/-- A search that has passed its whole list has returned every fact its pattern admits. -/
theorem passed_of_position_eq {query : Query} (all : query.position = (store.listed query).length) :
    store.passed query = store.accepted query := by
  rw [passed, all, List.take_length, accepted_eq_filter]

/-- A search that finds nothing more has returned every fact its pattern admits. -/
theorem Consistent.passed_eq_accepted (consistent : store.Consistent) {query : Query}
    (inside : query.position ≤ (store.listed query).length)
    (nothing : (store.next query).1 = none) :
    store.passed query = store.accepted query := by
  have moved := consistent.passed_next inside
  have all := passed_of_position_eq (moved.2.1 nothing)
  rw [moved.2.2, nothing, Option.toList_none, List.append_nil] at all
  rw [all]
  exact accepted_congr (store.pattern_next query)

theorem passed_prefix (store : FactStore) (query : Query) :
    store.passed query <+: store.accepted query := by
  rw [passed, accepted_eq_filter]
  exact (List.take_prefix _ _).filter _

private theorem listed_append (store : FactStore) (fact : Fact) (query : Query) :
    store.listed query <+: (store.append fact).listed query := by
  unfold listed
  cases query.functor? with
  | none => exact List.prefix_refl _
  | some functor =>
    dsimp only
    rw [factsOf_append]
    split
    · rw [Array.toList_push, List.filter_append]
      exact List.prefix_append _ _
    · exact List.prefix_refl _

private theorem listed_assert (store : FactStore) (fact : Fact) (query : Query) :
    store.listed query <+: (store.assert fact).2.listed query := by
  unfold FactStore.assert
  split
  · exact List.prefix_refl _
  · exact store.listed_append fact query

/-- Facts that come after those a search looks at leave what it has passed as it was. -/
theorem passed_of_listed_prefix {larger : FactStore} {query : Query}
    (longer : store.listed query <+: larger.listed query)
    (inside : query.position ≤ (store.listed query).length) :
    larger.passed query = store.passed query := by
  obtain ⟨more, longer⟩ := longer
  rw [passed, passed, ← longer, List.take_append_of_le_length inside]

/-- An assertion leaves what a search has passed as it was. -/
theorem passed_assert (fact : Fact) {query : Query}
    (inside : query.position ≤ (store.listed query).length) :
    (store.assert fact).2.passed query = store.passed query :=
  passed_of_listed_prefix (store.listed_assert fact query) inside

end FactStore

/-! ### Using a store -/

/-- A search that is open, with the facts it has returned, the first one first. -/
structure Cursor where
  query : Query
  returned : List Fact := []

/-- Ask a search for its next fact. -/
def Cursor.advance (store : FactStore) (cursor : Cursor) : Cursor where
  query := (store.next cursor.query).2
  returned := cursor.returned ++ (store.next cursor.query).1.toList

/-- What can be done with a store. -/
inductive Operation where
  | assert (fact : Fact)
  | declare (functor : Functor)
  | query (pattern : Term)
  /-- Ask an open search, known by the number of those opened before it, for its next fact. -/
  | next (cursor : Nat)

/-- A store in use. -/
structure Usage where
  store : FactStore := .empty
  /-- The facts asserted, in order, each with the answer whether it was new. -/
  asserted : List (Fact × Bool) := []
  cursors : List Cursor := []

namespace Usage

/-- Perform one operation. -/
def perform (usage : Usage) : Operation → Usage
  | .assert fact =>
    { usage with
      store := (usage.store.assert fact).2
      asserted := usage.asserted ++ [(fact, (usage.store.assert fact).1)] }
  | .declare functor => { usage with store := usage.store.declare functor }
  | .query pattern => { usage with cursors := usage.cursors ++ [{ query := { pattern } }] }
  | .next cursor => { usage with cursors := usage.cursors.modify cursor (.advance usage.store) }

/-- A new store after some operations. -/
def after (operations : List Operation) : Usage := operations.foldl perform {}

/-- The facts asserted so far, in order and with repetitions. -/
def facts (usage : Usage) : List Fact := usage.asserted.map Prod.fst

/-- The store, its index and the open searches agree with what was asserted. -/
structure InStep (usage : Usage) : Prop where
  answers : ∀ earlier fact new later, usage.asserted = earlier ++ (fact, new) :: later →
    (new = true ↔ fact ∉ earlier.map Prod.fst)
  lists : ∀ functor, (usage.store.factsOf functor).toList =
    usage.facts.eraseDups.filter fun fact ↦ fact.functor = functor
  once : ∀ functor fact, (usage.store.factsOf functor).toList.count fact =
    if fact ∈ usage.facts ∧ fact.functor = functor then 1 else 0
  contains : ∀ fact, usage.store.contains fact = true ↔ fact ∈ usage.store.factsOf fact.functor
  size : usage.store.size = usage.store.snapshot.length
  snapshot : usage.store.snapshot.Perm usage.facts.eraseDups
  index : ∀ functor first i, i ∈ usage.store.positionsOf functor first ↔
    ∃ fact, (usage.store.factsOf functor)[i]? = some fact ∧ fact.args.head? = some first
  increasing : ∀ functor first,
    (usage.store.positionsOf functor first).toList.Pairwise (· < ·)
  returned : ∀ cursor ∈ usage.cursors, cursor.returned <+: usage.store.accepted cursor.query
  distinct : ∀ cursor ∈ usage.cursors, cursor.returned.Nodup
  complete : ∀ cursor ∈ usage.cursors, (usage.store.next cursor.query).1 = none →
    cursor.returned = usage.store.accepted cursor.query

/-! ### What operations preserve -/

/-- What every operation preserves: the store remembers the assertions, and each search has
returned the facts admitted among those it has passed. -/
structure Sound (usage : Usage) : Prop where
  built : usage.store.Built
  answers : ∀ earlier fact new later, usage.asserted = earlier ++ (fact, new) :: later →
    (new = true ↔ fact ∉ earlier.map Prod.fst)
  known : ∀ fact, usage.store.contains fact = true ↔ fact ∈ usage.facts
  lists : ∀ functor, (usage.store.factsOf functor).toList =
    usage.facts.eraseDups.filter fun fact ↦ fact.functor = functor
  inside : ∀ cursor ∈ usage.cursors,
    cursor.query.position ≤ (usage.store.listed cursor.query).length
  passed : ∀ cursor ∈ usage.cursors, cursor.returned = usage.store.passed cursor.query

variable {usage : Usage}

private theorem sound_new : Sound {} where
  built := .empty
  answers := by simp
  known := by simp [FactStore.contains, FactStore.empty, facts]
  lists := by simp [FactStore.factsOf, FactStore.empty, facts]
  inside := nofun
  passed := nofun

theorem Sound.declare (sound : usage.Sound) (functor : Functor) :
    (usage.perform (.declare functor)).Sound :=
  { sound with built := sound.built.declare functor }

theorem Sound.query (sound : usage.Sound) (pattern : Term) :
    (usage.perform (.query pattern)).Sound where
  built := sound.built
  answers := sound.answers
  known := sound.known
  lists := sound.lists
  inside cursor member := by
    rcases List.mem_append.1 member with older | opened
    · exact sound.inside cursor older
    · cases List.mem_singleton.1 opened
      exact Nat.zero_le _
  passed cursor member := by
    rcases List.mem_append.1 member with older | opened
    · exact sound.passed cursor older
    · cases List.mem_singleton.1 opened
      rfl

theorem Sound.next (sound : usage.Sound) (i : Nat) : (usage.perform (.next i)).Sound := by
  -- every search is an old one or an old one that was asked
  have asked : ∀ cursor ∈ usage.cursors.modify i (.advance usage.store), cursor ∈ usage.cursors ∨
      ∃ before ∈ usage.cursors, cursor = before.advance usage.store := by
    intro cursor member
    obtain ⟨j, there⟩ := List.mem_iff_getElem?.1 member
    rw [List.getElem?_modify] at there
    obtain ⟨before, found, rfl⟩ := Option.map_eq_some_iff.1 there
    have among := List.mem_of_getElem? found
    split
    · exact .inr ⟨before, among, rfl⟩
    · exact .inl among
  have moved (cursor) (member : cursor ∈ usage.cursors) :=
    sound.built.consistent.passed_next (sound.inside cursor member)
  refine ⟨sound.built, sound.answers, sound.known, sound.lists, ?_, ?_⟩
  · intro cursor member
    rcases asked cursor member with old | ⟨before, among, rfl⟩
    · exact sound.inside cursor old
    · exact (moved before among).1
  · intro cursor member
    rcases asked cursor member with old | ⟨before, among, rfl⟩
    · exact sound.passed cursor old
    · rw [Cursor.advance, sound.passed before among]
      exact (moved before among).2.2.symm

/-- The last of some assertions, or an earlier one. -/
theorem eq_append_singleton {α : Type} {list earlier later : List α} {last entry : α}
    (eq : list ++ [last] = earlier ++ entry :: later) :
    (list = earlier ∧ last = entry) ∨ ∃ fewer, list = earlier ++ entry :: fewer := by
  rcases List.eq_nil_or_concat later with rfl | ⟨fewer, other, rfl⟩
  · obtain ⟨same, one⟩ := List.append_inj' eq rfl
    exact .inl ⟨same, (List.cons.inj one).1⟩
  · rw [List.concat_eq_append, ← List.cons_append, ← List.append_assoc] at eq
    exact .inr ⟨fewer, (List.append_inj' eq rfl).1⟩

theorem Sound.assert (sound : usage.Sound) (fact : Fact) :
    (usage.perform (.assert fact)).Sound where
  built := sound.built.assert fact
  answers earlier other new later eq := by
    rcases eq_append_singleton eq with ⟨rfl, last⟩ | ⟨fewer, old⟩
    · cases last
      have known := sound.known fact
      unfold FactStore.assert
      split
      · next found => exact ⟨nofun, fun absent ↦ (absent (known.1 found)).elim⟩
      · next missing => exact ⟨fun _ found ↦ missing (known.2 found), fun _ ↦ rfl⟩
    · exact sound.answers earlier other new fewer old
  known other := by
    have known := sound.known other
    simp only [perform, facts, List.map_append, List.mem_append, List.map_singleton,
      List.mem_singleton]
    rw [facts] at known
    unfold FactStore.assert
    split
    · next found =>
      rw [known]
      refine ⟨.inl, fun either ↦ either.elim id fun same ↦ ?_⟩
      rw [same]
      exact (sound.known fact).1 found
    · rw [← known]
      exact FactStore.contains_append
  lists functor := by
    have known := sound.known fact
    have repeated : (usage.perform (.assert fact)).facts.eraseDups =
        usage.facts.eraseDups ++ if fact ∈ usage.facts then [] else [fact] := by
      simp only [perform, facts, List.map_append, List.eraseDups_append, List.map_singleton]
      congr 1
      rw [List.removeAll, List.filter_singleton]
      by_cases old : fact ∈ usage.asserted.map Prod.fst <;> simp [old, List.eraseDups_cons]
    rw [repeated, List.filter_append, ← sound.lists]
    simp only [perform]
    unfold FactStore.assert
    split
    · next found => simp [known.1 found]
    · next missing =>
      rw [FactStore.factsOf_append, if_neg fun old ↦ missing (known.2 old)]
      by_cases same : fact.functor = functor <;> simp [same]
  inside cursor member :=
    Nat.le_trans (sound.inside cursor member)
      (usage.store.listed_assert fact cursor.query).length_le
  passed cursor member := by
    rw [sound.passed cursor member]
    exact (FactStore.passed_assert fact (sound.inside cursor member)).symm

private theorem Sound.perform (sound : usage.Sound) (operation : Operation) :
    (usage.perform operation).Sound := by
  cases operation with
  | assert fact => exact sound.assert fact
  | declare functor => exact sound.declare functor
  | query pattern => exact sound.query pattern
  | next cursor => exact sound.next cursor

theorem sound_after (operations : List Operation) : (after operations).Sound := by
  have run : ∀ usage : Usage, usage.Sound → (operations.foldl Usage.perform usage).Sound := by
    induction operations with
    | nil => exact fun _ sound ↦ sound
    | cons operation operations ih => exact fun usage sound ↦ ih _ (sound.perform operation)
  exact run {} sound_new

/-! ### A store in use stays in step -/

private theorem Sound.count_factsOf (sound : usage.Sound) (functor : Functor) (fact : Fact) :
    (usage.store.factsOf functor).toList.count fact =
      if fact ∈ usage.facts ∧ fact.functor = functor then 1 else 0 := by
  have member : fact ∈ (usage.store.factsOf functor).toList ↔
      fact ∈ usage.facts ∧ fact.functor = functor := by
    rw [sound.lists, List.mem_filter, List.mem_eraseDups, decide_eq_true_iff]
  split
  · next asserted =>
    exact List.count_eq_one_of_mem (sound.built.nodup_factsOf functor) (member.2 asserted)
  · next missing => exact List.count_eq_zero.2 fun found ↦ missing (member.1 found)

private theorem Sound.nodup_eraseDups (sound : usage.Sound) : usage.facts.eraseDups.Nodup := by
  refine List.nodup_iff_count_le_one.2 fun fact ↦ ?_
  have listed := sound.lists fact.functor
  have one := List.nodup_iff_count_le_one.1 (sound.built.nodup_factsOf fact.functor) fact
  rwa [listed, List.count_filter (by simp)] at one

private theorem Sound.snapshot_perm (sound : usage.Sound) :
    usage.store.snapshot.Perm usage.facts.eraseDups := by
  refine (List.perm_ext_iff_of_nodup sound.built.nodup_snapshot sound.nodup_eraseDups).2 ?_
  intro fact
  rw [sound.built.mem_snapshot, sound.known, List.mem_eraseDups]

private theorem Sound.mem_positionsOf (sound : usage.Sound) (functor : Functor)
    (first : Term) (i : Nat) :
    i ∈ usage.store.positionsOf functor first ↔
      ∃ fact, (usage.store.factsOf functor)[i]? = some fact ∧ fact.args.head? = some first := by
  rw [← Array.mem_toList_iff, sound.built.consistent.positions, FactStore.positionsAmong,
    List.mem_filter, List.mem_range, decide_eq_true_iff, Option.bind_eq_some_iff]
  constructor
  · exact fun found ↦ found.2
  · rintro ⟨fact, there, head⟩
    exact ⟨(Array.getElem?_eq_some_iff.1 there).1, fact, there, head⟩

private theorem Sound.sorted_positionsOf (sound : usage.Sound) (functor : Functor) (first : Term) :
    (usage.store.positionsOf functor first).toList.Pairwise (· < ·) := by
  rw [sound.built.consistent.positions, FactStore.positionsAmong]
  exact List.pairwise_lt_range.filter _

private theorem Sound.nodup_accepted (sound : usage.Sound) (query : Query) :
    (usage.store.accepted query).Nodup := by
  unfold FactStore.accepted
  cases query.functor? with
  | none => exact List.nodup_nil
  | some functor => exact (sound.built.nodup_factsOf functor).filter _

private theorem Sound.returned_eq_accepted (sound : usage.Sound) {cursor : Cursor}
    (member : cursor ∈ usage.cursors) (nothing : (usage.store.next cursor.query).1 = none) :
    cursor.returned = usage.store.accepted cursor.query := by
  rw [sound.passed cursor member]
  exact sound.built.consistent.passed_eq_accepted (sound.inside cursor member) nothing

/-- However assertions, declarations and calls for the next fact of any number of open searches
follow one another, the store, its index and the searches stay in step. -/
theorem inStep_after (operations : List Operation) : (after operations).InStep := by
  have sound := sound_after operations
  have returned : ∀ cursor ∈ (after operations).cursors,
      cursor.returned <+: (after operations).store.accepted cursor.query := by
    intro cursor member
    rw [sound.passed cursor member]
    exact FactStore.passed_prefix _ _
  exact
    { answers := sound.answers
      lists := sound.lists
      once := sound.count_factsOf
      contains := sound.built.consistent.known
      size := sound.built.length_snapshot.symm
      snapshot := sound.snapshot_perm
      index := sound.mem_positionsOf
      increasing := sound.sorted_positionsOf
      returned
      distinct := fun cursor member ↦
        (sound.nodup_accepted cursor.query).sublist (returned cursor member).sublist
      complete := fun cursor member ↦ sound.returned_eq_accepted member }

end Usage
end HornMachine
