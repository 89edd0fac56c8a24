import HornMachine.FactStore
import HornMachine.Proofs.Term.Domain
import Mathlib.Data.List.Forall2

/-!
# Searching the fact store

A store that was filled by assertions is consistent: the list of a functor holds facts of that
functor, and the index by first argument holds the positions of the facts with that argument. Main
statements: a search for a pattern finds the facts of its functor that could match it, in the order
they were asserted, and each call for the next one takes the first of those that remain.
-/

namespace HornMachine

/-! ### Patterns -/

namespace Term

theorem coversAll_iff {ps ts : List Term} :
    coversAll ps ts = true ↔ List.Forall₂ (fun p t ↦ p.covers t = true) ps ts := by
  induction ps generalizing ts with
  | nil => cases ts <;> simp [coversAll]
  | cons p ps ih => cases ts <;> simp [coversAll, ih]

private theorem coversAll_iff_eq {ps ts : List Term}
    (each : ∀ p ∈ ps, ∀ t, p.covers t = true ↔ p = t) : coversAll ps ts = true ↔ ps = ts := by
  induction ps generalizing ts with
  | nil => cases ts <;> simp [coversAll]
  | cons p ps ih =>
    cases ts with
    | nil => simp [coversAll]
    | cons t ts =>
      rw [coversAll, Bool.and_eq_true, each p List.mem_cons_self,
        ih fun other member ↦ each other (List.mem_cons_of_mem _ member), List.cons.injEq]

/-- A ground pattern covers itself alone. -/
theorem covers_iff_eq {pattern : Term} (ground : pattern.isGround = true) (term : Term) :
    pattern.covers term = true ↔ pattern = term := by
  induction pattern generalizing term with
  | var v => simp [isGround] at ground
  | atom symbol | num value => simp [covers]
  | struct symbol args ih =>
    have args_ground : ∀ arg ∈ args, arg.isGround = true := by
      simpa [isGround, allGround_eq_all] using ground
    cases term with
    | atom _ | var _ | num _ => simp [covers]
    | struct other terms =>
      rw [covers, Bool.and_eq_true, decide_eq_true_iff, struct.injEq,
        coversAll_iff_eq fun arg member ↦ ih arg member (args_ground arg member)]

/-- A pattern covers the ground terms that it has the value of. -/
theorem covers_of_eval {D : Type} [Domain D] {pattern term : Term} (ground : term.isGround = true)
    {β γ : Var → D} (same : pattern.eval β = term.eval γ) : pattern.covers term = true := by
  induction pattern generalizing term with
  | var v => simp [covers]
  | atom symbol =>
    rw [eval_injective rfl ground same]
    simpa using covers_iff_eq ground term
  | num value =>
    rw [eval_injective rfl ground same]
    simpa using covers_iff_eq ground term
  | struct symbol args ih =>
    cases term with
    | var v => cases ground
    | atom other => simp at same
    | num value => simp at same
    | struct other terms =>
      rw [eval_struct, eval_struct, Domain.struct_inj] at same
      obtain ⟨rfl, same⟩ := same
      rw [covers, Bool.and_eq_true]
      refine ⟨by simp, coversAll_iff.2 ?_⟩
      exact forall₂_of_map_eq same fun arg inside other among ↦
        ih arg inside (isGround_of_mem ground among)

end Term

namespace FactStore

/-! ### Stores filled by assertions -/

/-- The positions of facts with a given first argument. -/
def positionsAmong (facts : Array Fact) (first : Term) : List Nat :=
  (List.range facts.size).filter fun i ↦ (facts[i]?.bind fun fact ↦ fact.args.head?) = some first

/-- The lists and indexes of a store hold what they should. -/
structure Consistent (store : FactStore) : Prop where
  functor : ∀ functor, ∀ fact ∈ store.factsOf functor, fact.functor = functor
  positions : ∀ functor first,
    (store.positionsOf functor first).toList = positionsAmong (store.factsOf functor) first
  known : ∀ fact, store.contains fact ↔ fact ∈ store.factsOf fact.functor

theorem consistent_empty : empty.Consistent where
  functor := by simp [factsOf, empty]
  positions := by simp [positionsOf, factsOf, empty, positionsAmong]
  known := by simp [contains, factsOf, empty]

theorem Consistent.declare {store : FactStore} (consistent : store.Consistent) (functor : Functor) :
    (store.declare functor).Consistent :=
  ⟨consistent.functor, consistent.positions, consistent.known⟩

theorem factsOf_append (store : FactStore) (fact : Fact) (functor : Functor) :
    (store.append fact).factsOf functor =
      if fact.functor = functor then (store.factsOf functor).push fact
        else store.factsOf functor := by
  simp only [factsOf, append, Std.TreeMap.getD_alter, Std.LawfulEqCmp.compare_eq_iff_eq]
  split
  · next same =>
    subst same
    simp [Std.TreeMap.getD_eq_getD_getElem?]
  · rfl

theorem contains_append {store : FactStore} {fact other : Fact} :
    (store.append fact).contains other = true ↔ store.contains other = true ∨ other = fact := by
  simp only [contains, append, Std.TreeSet.contains_insert, Bool.or_eq_true, beq_iff_eq,
    Std.LawfulEqCmp.compare_eq_iff_eq]
  rw [or_comm, eq_comm (a := fact)]

theorem contains_assert {store : FactStore} {fact other : Fact} :
    (store.assert fact).2.contains other = true ↔ store.contains other = true ∨ other = fact := by
  unfold FactStore.assert
  split
  · next known => exact ⟨.inl, fun either ↦ either.elim id fun same ↦ same ▸ known⟩
  · exact contains_append

theorem contains_ofFacts {facts : List Fact} {fact : Fact} :
    (ofFacts facts).contains fact = true ↔ fact ∈ facts := by
  have asserted (store : FactStore) :
      (facts.foldl (fun store fact ↦ (store.assert fact).2) store).contains fact = true ↔
        store.contains fact = true ∨ fact ∈ facts := by
    induction facts generalizing store with
    | nil => simp
    | cons first facts ih => rw [List.foldl_cons, ih, contains_assert, List.mem_cons, or_assoc]
  rw [ofFacts, asserted]
  exact or_iff_right Bool.false_ne_true

/-- Different facts are listed in the order they were given. -/
theorem toList_factsOf_ofFacts {facts : List Fact} (distinct : facts.Nodup) (functor : Functor) :
    ((ofFacts facts).factsOf functor).toList = facts.filter (·.functor = functor) := by
  have listed (store : FactStore) (fresh : ∀ fact ∈ facts, ¬store.contains fact = true) :
      ((facts.foldl (fun store fact ↦ (store.assert fact).2) store).factsOf functor).toList =
        (store.factsOf functor).toList ++ facts.filter (·.functor = functor) := by
    induction facts generalizing store with
    | nil => simp
    | cons first facts ih =>
      obtain ⟨apart, distinct⟩ := List.nodup_cons.1 distinct
      obtain ⟨new, others⟩ := List.forall_mem_cons.1 fresh
      have added : (store.assert first).2 = store.append first := by
        rw [FactStore.assert, if_neg new]
      rw [List.foldl_cons, added, ih distinct, factsOf_append, List.filter_cons]
      · by_cases same : first.functor = functor <;> simp [same]
      · intro fact member known
        obtain known | rfl := contains_append.1 known
        · exact others fact member known
        · exact apart member
  rw [ofFacts, listed .empty fun _ _ ↦ Bool.false_ne_true]
  simp [factsOf, empty]

theorem positionsAmong_push (facts : Array Fact) (fact : Fact) (first : Term) :
    positionsAmong (facts.push fact) first =
      positionsAmong facts first ++ if fact.args.head? = some first then [facts.size] else [] := by
  rw [positionsAmong, Array.size_push, List.range_succ, List.filter_append, positionsAmong]
  congr 1
  · refine List.filter_congr fun i member ↦ ?_
    have inside := List.mem_range.1 member
    rw [Array.getElem?_push_lt inside, Array.getElem?_eq_getElem inside]
  · by_cases same : fact.args.head? = some first <;> simp [same]

private theorem positionsOf_append (store : FactStore) (fact : Fact) (functor : Functor)
    (first : Term) :
    ((store.append fact).positionsOf functor first).toList =
      (store.positionsOf functor first).toList ++
        if fact.functor = functor ∧ fact.args.head? = some first then
          [(store.factsOf functor).size] else [] := by
  simp only [positionsOf, append, noteFirstArg]
  cases args : fact.args with
  | nil => simp
  | cons head rest =>
    simp only [Std.TreeMap.getD_alter, Std.LawfulEqCmp.compare_eq_iff_eq, Prod.mk.injEq,
      List.head?_cons, Option.some.injEq]
    by_cases same : fact.functor = functor ∧ head = first
    · obtain ⟨rfl, rfl⟩ := same
      simp [Std.TreeMap.getD_eq_getD_getElem?]
    · simp [same]

theorem Consistent.assert {store : FactStore} (consistent : store.Consistent) (fact : Fact) :
    (store.assert fact).2.Consistent := by
  unfold FactStore.assert
  split
  · exact consistent
  · refine ⟨fun functor other member ↦ ?_, fun functor first ↦ ?_, fun other ↦ ?_⟩
    · rw [factsOf_append] at member
      split at member
      · next same =>
        rcases Array.mem_push.1 member with older | rfl
        · exact consistent.functor functor other older
        · exact same
      · exact consistent.functor functor other member
    · rw [positionsOf_append, factsOf_append, consistent.positions]
      by_cases same : fact.functor = functor
      · simp [same, positionsAmong_push]
      · simp [same]
    · rw [contains_append, factsOf_append, consistent.known other]
      split
      · rw [Array.mem_push]
      · next apart => exact or_iff_left fun same ↦ apart (congrArg Fact.functor same.symm)

/-- A store made by assertions and declarations. -/
inductive Built : FactStore → Prop
  | empty : Built .empty
  | assert {store : FactStore} (built : Built store) (fact : Fact) : Built (store.assert fact).2
  | declare {store : FactStore} (built : Built store) (functor : Functor) :
    Built (store.declare functor)

theorem Built.ofFacts (facts : List Fact) : (ofFacts facts).Built := by
  have asserted {store : FactStore} (built : store.Built) :
      (facts.foldl (fun store fact ↦ (store.assert fact).2) store).Built := by
    induction facts generalizing store with
    | nil => exact built
    | cons fact facts ih => exact ih (built.assert fact)
  exact asserted .empty

theorem Built.consistent {store : FactStore} (built : store.Built) : store.Consistent := by
  induction built with
  | empty => exact consistent_empty
  | assert _ fact ih => exact ih.assert fact
  | declare _ functor ih => exact ih.declare functor

end FactStore

/-! ### Searches -/

/-- Candidates among the next `count` that could match. -/
def Candidates.ahead (candidates : Candidates) (query : Query) (count : Nat) : List Fact :=
  (List.range' query.position count).filterMap fun i ↦ (candidates.get? i).filter query.admits

/-- Looking at candidates finds the first that could match, and leaves the others ahead. -/
theorem Candidates.scan_ahead (candidates : Candidates) (count : Nat) (query : Query)
    (present : ∀ i, query.position ≤ i → i < query.position + count → (candidates.get? i).isSome) :
    (candidates.scan count query).2.pattern = query.pattern ∧
      match (candidates.scan count query).1 with
      | none => candidates.ahead query count = []
      | some fact => ∃ fewer,
          (candidates.scan count query).2.position + fewer = query.position + count ∧
          candidates.ahead query count =
            fact :: candidates.ahead (candidates.scan count query).2 fewer := by
  induction count generalizing query with
  | zero => exact ⟨rfl, rfl⟩
  | succ count ih =>
    obtain ⟨fact, here⟩ := Option.isSome_iff_exists.1 (present query.position (by omega) (by omega))
    have split : candidates.ahead query (count + 1) =
        (if query.admits fact then [fact] else []) ++
          candidates.ahead { query with position := query.position + 1 } count := by
      rw [ahead, List.range'_succ, List.filterMap_cons, here]
      by_cases fits : query.admits fact
      · simp [Option.filter, fits]
        rfl
      · simp [Option.filter, fits]
        rfl
    by_cases fits : query.admits fact = true
    · have found : candidates.scan (count + 1) query =
          (some fact, { query with position := query.position + 1 }) := by
        rw [scan, here]
        exact if_pos fits
      rw [found]
      refine ⟨rfl, count, by dsimp only; omega, ?_⟩
      rw [split, if_pos fits]
      rfl
    · have passed : candidates.scan (count + 1) query =
          candidates.scan count { query with position := query.position + 1 } := by
        rw [scan, here]
        exact if_neg fits
      rw [passed, split, if_neg fits, List.nil_append]
      have rest := ih { query with position := query.position + 1 } fun i above below ↦
        present i (by simp only at above; omega) (by simp only at below; omega)
      refine ⟨rest.1, ?_⟩
      have found := rest.2
      cases scanned : (candidates.scan count { query with position := query.position + 1 }).1 with
      | none =>
        rw [scanned] at found
        exact found
      | some other =>
        rw [scanned] at found
        obtain ⟨fewer, total, later⟩ := found
        exact ⟨fewer, by simp only at total; omega, later⟩

/-- What is found is a candidate. -/
theorem Candidates.exists_of_scan {candidates : Candidates} {count : Nat} {query : Query}
    {fact : Fact}
    (found : (candidates.scan count query).1 = some fact) : ∃ i, candidates.get? i = some fact := by
  induction count generalizing query with
  | zero => cases found
  | succ count ih =>
    rw [scan] at found
    split at found
    · cases found
    · next other here =>
      split at found
      · cases found
        exact ⟨_, here⟩
      · exact ih found

/-- Looking at candidates does not change what is searched for. -/
theorem Candidates.pattern_scan (candidates : Candidates) (count : Nat) (query : Query) :
    (candidates.scan count query).2.pattern = query.pattern := by
  induction count generalizing query with
  | zero => rfl
  | succ count ih =>
    rw [scan]
    split
    · rfl
    · split
      · rfl
      · exact ih _

namespace FactStore

variable {store : FactStore}

private theorem remaining_eq_ahead (store : FactStore) (query : Query) :
    store.remaining query =
      (store.candidates query).ahead query ((store.candidates query).size - query.position) := rfl

private theorem candidates_congr {query later : Query} (same : later.pattern = query.pattern) :
    store.candidates later = store.candidates query := by
  simp only [candidates, Query.functor?, Query.key?, same]

private theorem Consistent.get?_isSome (consistent : store.Consistent) (query : Query) {i : Nat}
    (inside : i < (store.candidates query).size) : ((store.candidates query).get? i).isSome := by
  unfold candidates at inside ⊢
  cases functor : query.functor? with
  | none => simp [functor, Candidates.size] at inside
  | some found =>
    simp only [functor] at inside ⊢
    split at inside
    · simp [Candidates.size] at inside
    · next some_facts =>
      rw [if_neg some_facts]
      cases key : query.key? with
      | none =>
        simp only [key, Option.map_none, Candidates.size] at inside
        simpa [Candidates.get?] using inside
      | some first =>
        simp only [key, Option.map_some, Candidates.size] at inside
        simp only [Candidates.get?, Option.map_some]
        rw [Array.getElem?_eq_getElem inside, Option.bind_some]
        have member : (store.positionsOf found first)[i] ∈
            (store.positionsOf found first).toList := by simp
        rw [consistent.positions, positionsAmong, List.mem_filter, List.mem_range] at member
        simpa using member.1

/-- The next fact found is the first of those that remain. -/
theorem Consistent.next_remaining (consistent : store.Consistent) (query : Query) :
    (store.next query).2.pattern = query.pattern ∧
      match (store.next query).1 with
      | none => store.remaining query = []
      | some fact => store.remaining query = fact :: store.remaining (store.next query).2 := by
  have scanned := (store.candidates query).scan_ahead
    ((store.candidates query).size - query.position) query fun i above below ↦
      consistent.get?_isSome query (by omega)
  refine ⟨scanned.1, ?_⟩
  have found := scanned.2
  unfold FactStore.next
  cases first : ((store.candidates query).scan
      ((store.candidates query).size - query.position) query).1 with
  | none =>
    rw [first] at found
    exact found
  | some fact =>
    rw [first] at found
    obtain ⟨fewer, total, ahead⟩ := found
    dsimp only
    rw [remaining_eq_ahead, ahead, remaining_eq_ahead, candidates_congr scanned.1]
    have positive : query.position < (store.candidates query).size := by
      by_contra outside
      have none_left : (store.candidates query).size - query.position = 0 := by omega
      rw [none_left] at first
      cases first
    congr 2
    omega

/-- Looking at all positions is looking at all elements. -/
theorem filterMap_range {α β : Type} (elements : List α) (f : α → Option β) :
    (List.range elements.length).filterMap (fun i ↦ elements[i]?.bind f) =
      elements.filterMap f := by
  induction elements with
  | nil => rfl
  | cons element elements ih =>
    rw [List.length_cons, List.range_succ_eq_map, List.filterMap_cons, List.filterMap_map,
      List.filterMap_cons]
    simp only [List.getElem?_cons_zero, Option.bind_some, Function.comp_def,
      List.getElem?_cons_succ, ih]

/-- A pattern whose first argument is ground covers only facts with that argument. -/
theorem head?_args_of_admits {query : Query} {fact : Fact} {first : Term}
    (key : query.key? = some first) (admits : query.admits fact = true) :
    fact.args.head? = some first := by
  unfold Query.key? at key
  unfold Query.admits at admits
  obtain ⟨head, ground⟩ := Option.filter_eq_some_iff.1 key
  cases shape : query.pattern with
  | atom _ | var _ | num _ =>
    rw [shape] at head
    cases head
  | struct symbol args =>
    rw [shape] at head admits
    cases args with
    | nil => cases head
    | cons arg args =>
      cases head
      cases term : fact.term with
      | atom _ | var _ | num _ =>
        rw [term] at admits
        simp [Term.covers] at admits
      | struct other terms =>
        rw [term, Term.covers, Bool.and_eq_true] at admits
        cases terms with
        | nil => simp [Term.coversAll] at admits
        | cons term' terms =>
          rw [Term.coversAll, Bool.and_eq_true, Term.covers_iff_eq ground] at admits
          simp [Fact.args, term, Term.args, admits.2.1]

/-- A search finds the facts of the functor that could match, in order. -/
theorem Consistent.matching_eq (consistent : store.Consistent) {pattern : Term} {functor : Functor}
    (called : pattern.functor? = some functor) :
    store.matching pattern =
      (store.factsOf functor).toList.filter fun fact ↦ pattern.covers fact.term := by
  have admits (fact : Fact) : Query.admits { pattern } fact = pattern.covers fact.term := rfl
  have all : (store.factsOf functor).toList.filterMap
      (fun fact ↦ if pattern.covers fact.term then some fact else none) =
        (store.factsOf functor).toList.filter fun fact ↦ pattern.covers fact.term := by
    rw [← List.filterMap_eq_filter]
    simp [Option.guard]
  have listed := filterMap_range (store.factsOf functor).toList fun fact ↦
    if pattern.covers fact.term then some fact else none
  rw [Array.length_toList] at listed
  rw [matching, remaining, candidates]
  simp only [Query.functor?, called, Nat.sub_zero]
  split
  · next empty =>
    have none_there : (store.factsOf functor).toList = [] := by simpa using empty
    simp [none_there, Candidates.size]
  · cases key : Query.key? { pattern } with
    | none =>
      simp only [Option.map_none, Candidates.size, Candidates.get?]
      rw [← all, ← listed, List.range_eq_range']
      refine List.filterMap_congr fun i _ ↦ ?_
      rw [Array.getElem?_toList]
      cases (store.factsOf functor)[i]? <;> simp [Option.filter, admits]
    | some first =>
      simp only [Option.map_some, Candidates.size, Candidates.get?]
      have indexed := filterMap_range (store.positionsOf functor first).toList fun place ↦
        ((store.factsOf functor)[place]?).filter (Query.admits { pattern })
      rw [Array.length_toList, consistent.positions, positionsAmong,
        List.filterMap_filter] at indexed
      rw [← all, ← listed]
      refine Eq.trans ?_ (indexed.trans ?_)
      · rw [← List.range_eq_range']
        refine List.filterMap_congr fun i _ ↦ ?_
        have place : (positionsAmong (store.factsOf functor) first)[i]? =
            (store.positionsOf functor first)[i]? := by
          rw [← consistent.positions, Array.getElem?_toList]
        rw [positionsAmong] at place
        rw [place]
        cases (store.positionsOf functor first)[i]? <;> rfl
      · refine List.filterMap_congr fun i _ ↦ ?_
        rw [Array.getElem?_toList]
        cases (store.factsOf functor)[i]? with
        | none => simp
        | some fact =>
          by_cases fits : pattern.covers fact.term = true
          · have head := head?_args_of_admits key ((admits fact).trans fits)
            simp [Option.filter, admits, fits, head]
          · simp [Option.filter, admits, fits]

/-- Candidates are stored under the functor that is searched for. -/
theorem mem_factsOf_of_get? {query : Query} {i : Nat} {fact : Fact}
    (there : (store.candidates query).get? i = some fact) :
    ∃ functor, query.pattern.functor? = some functor ∧ fact ∈ store.factsOf functor := by
  unfold candidates Query.functor? at there
  cases found : query.pattern.functor? with
  | none => simp [found, Candidates.get?] at there
  | some functor =>
    refine ⟨functor, rfl, ?_⟩
    simp only [found] at there
    split at there
    · simp [Candidates.get?] at there
    · cases key : query.key? with
      | none =>
        simp only [key, Candidates.get?, Option.map_none] at there
        exact Array.mem_of_getElem? there
      | some first =>
        simp only [key, Candidates.get?, Option.map_some] at there
        obtain ⟨place, -, there⟩ := Option.bind_eq_some_iff.1 there
        exact Array.mem_of_getElem? there

/-- Facts that remain are stored under the functor that is searched for. -/
theorem mem_factsOf_of_mem_remaining {query : Query} {fact : Fact}
    (member : fact ∈ store.remaining query) :
    ∃ functor, query.pattern.functor? = some functor ∧ fact ∈ store.factsOf functor := by
  obtain ⟨i, -, there⟩ := List.mem_filterMap.1 member
  exact mem_factsOf_of_get? (Option.filter_eq_some_iff.1 there).1

theorem mem_factsOf_of_next {query later : Query} {fact : Fact}
    (found : store.next query = (some fact, later)) :
    ∃ functor, query.pattern.functor? = some functor ∧ fact ∈ store.factsOf functor := by
  have first : ((store.candidates query).scan _ query).1 = some fact := congrArg Prod.fst found
  obtain ⟨i, there⟩ := Candidates.exists_of_scan first
  exact mem_factsOf_of_get? there

/-- No more facts remain than there are of the functor. -/
theorem Consistent.length_remaining_le (consistent : store.Consistent) {query : Query}
    {functor : Functor} (called : ∀ found, query.pattern.functor? = some found → found = functor) :
    (store.remaining query).length ≤ (store.factsOf functor).size := by
  have few : (store.remaining query).length ≤ (store.candidates query).size := by
    rw [remaining_eq_ahead]
    refine Nat.le_trans (List.length_filterMap_le _ _) ?_
    rw [List.length_range']
    exact Nat.sub_le _ _
  refine Nat.le_trans few ?_
  unfold candidates Query.functor?
  cases found : query.pattern.functor? with
  | none => simp [Candidates.size]
  | some other =>
    obtain rfl := called other found
    dsimp only
    split
    · simp [Candidates.size]
    · cases query.key? with
      | none => exact Nat.le_refl _
      | some first =>
        simp only [Option.map_some, Candidates.size]
        rw [← Array.length_toList, consistent.positions, positionsAmong]
        exact Nat.le_trans (List.length_filter_le _ _) (Nat.le_of_eq List.length_range)

end FactStore
end HornMachine
