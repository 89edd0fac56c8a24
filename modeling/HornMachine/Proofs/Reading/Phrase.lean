import HornMachine.Proofs.Computation
import HornMachine.Proofs.Term.Substitution
import HornMachine.Reading.Session
import Mathlib.Data.List.Induction
import Mathlib.Data.List.Zip

/-!
# Phrases and the terms they denote

A phrase is what the text of a term says: names and numbers as they are written, with their
arguments. It denotes a term: its names are looked up in a symbol table, and its variables are
numbered from zero in the order of the text, equal names being one variable and each `_` a variable
of its own.

Main statements: reading a phrase registers its names and gives a term it denotes
(`Phrase.read_eq_ok`), the variables are numbered as they should be (`Scope.numbering_numbers`), and
a phrase denotes one term for each way of numbering its variables (`Phrase.Denotes.unique`).
-/

namespace HornMachine

/-- A term as it is written. -/
inductive Phrase where
  | var (name : String)
  | num (value : Int)
  | compound (name : String) (args : List Phrase)

namespace Phrase

/-- Induction over a phrase with a hypothesis for each argument. -/
@[induction_eliminator]
theorem induct {motive : Phrase → Prop} (var : ∀ name, motive (.var name))
    (num : ∀ value, motive (.num value))
    (compound : ∀ name args, (∀ arg ∈ args, motive arg) → motive (.compound name args)) :
    ∀ phrase, motive phrase
  | .var name => var name
  | .num value => num value
  | .compound name args => compound name args fun arg _ ↦ induct var num compound arg

mutual

/-- The variables of a phrase from left to right, one entry per occurrence. -/
def vars : Phrase → List String
  | .var name => [name]
  | .num _ => []
  | .compound _ args => varsList args

/-- The variables of some phrases from left to right. -/
def varsList : List Phrase → List String
  | [] => []
  | phrase :: phrases => vars phrase ++ varsList phrases

end

mutual

/-- The names of a phrase that are registered, each after those of its arguments. -/
def names : Phrase → List String
  | .var _ | .num _ => []
  | .compound name args => namesList args ++ [name]

/-- The names of some phrases. -/
def namesList : List Phrase → List String
  | [] => []
  | phrase :: phrases => names phrase ++ namesList phrases

end

/-- The term has the form of the phrase, with symbols that the table knows by the phrase's names. -/
inductive Denotes (symbols : SymbolTable) : Phrase → Term → Prop
  | var {name : String} {v : Var} : Denotes symbols (.var name) (.var v)
  | num {value : Int} : Denotes symbols (.num value) (.num value)
  | compound {name : String} {symbol : Symbol} {args : List Phrase} {terms : List Term}
      (known : symbols.name? symbol = some name) (paired : args.length = terms.length)
      (each : ∀ pair ∈ args.zip terms, Denotes symbols pair.1 pair.2) :
      Denotes symbols (.compound name args) (Term.apply symbol terms)

end Phrase

/-! ### Numbering variables -/

/-- The numbers given to the names of variables: equal names have equal numbers, each `_` has a
number of its own, and new numbers are given in order. -/
structure Numbering (names : List String) (numbers : List Var) : Prop where
  length : numbers.length = names.length
  same : ∀ i j, i < names.length → j < names.length →
    (numbers[i]? = numbers[j]? ↔ i = j ∨ names[i]? = names[j]? ∧ names[i]? ≠ some "_")
  order : numbers.eraseDups = List.range numbers.eraseDups.length

/-- One more name is numbered rightly when it shares its number with the places of that name, and
the number is an old one or the next. -/
theorem Numbering.snoc {names : List String} {numbers : List Var} {name : String} {v : Var}
    (numbering : Numbering names numbers)
    (shared : ∀ j < names.length, numbers[j]? = some v ↔ names[j]? = some name ∧ name ≠ "_")
    (given : v ∈ numbers ∨ v = numbers.eraseDups.length) :
    Numbering (names ++ [name]) (numbers ++ [v]) where
  length := by simp [numbering.length]
  same i j inside inside' := by
    have length := numbering.length
    have oldNumber {k : Nat} (h : k < names.length) : (numbers ++ [v])[k]? = numbers[k]? :=
      List.getElem?_append_left (by omega)
    have oldName {k : Nat} (h : k < names.length) : (names ++ [name])[k]? = names[k]? :=
      List.getElem?_append_left h
    have newNumber : (numbers ++ [v])[names.length]? = some v := by
      rw [← length, List.getElem?_concat_length]
    have newName : (names ++ [name])[names.length]? = some name := List.getElem?_concat_length
    rw [List.length_append, List.length_singleton] at inside inside'
    rcases Nat.lt_succ_iff_lt_or_eq.1 inside with below | rfl
    · rcases Nat.lt_succ_iff_lt_or_eq.1 inside' with below' | rfl
      · rw [oldNumber below, oldNumber below', oldName below, oldName below']
        exact numbering.same i j below below'
      · rw [oldNumber below, oldName below, newNumber, newName, shared i below]
        constructor
        · rintro ⟨found, named⟩
          exact .inr ⟨found, by simpa [found] using named⟩
        · rintro (rfl | ⟨found, named⟩)
          · omega
          · exact ⟨found, by simpa [found] using named⟩
    · rcases Nat.lt_succ_iff_lt_or_eq.1 inside' with below' | rfl
      · rw [oldNumber below', oldName below', newNumber, newName, eq_comm, shared j below']
        constructor
        · rintro ⟨found, named⟩
          exact .inr ⟨found.symm, by simpa using named⟩
        · rintro (rfl | ⟨found, named⟩)
          · omega
          · exact ⟨found.symm, by simpa using named⟩
      · simp
  order := by
    rw [Term.eraseDups_concat]
    rcases given with old | rfl
    · rw [if_pos old, List.append_nil]
      exact numbering.order
    · have fresh : numbers.eraseDups.length ∉ numbers := by
        rw [← List.mem_eraseDups, numbering.order]
        simp
      rw [if_neg fresh, List.length_append, List.length_singleton, List.range_succ,
        ← numbering.order]

/-- All but the last number are rightly given to all but the last name. -/
theorem Numbering.of_snoc {names : List String} {numbers : List Var} {name : String} {v : Var}
    (numbering : Numbering (names ++ [name]) (numbers ++ [v])) : Numbering names numbers := by
  have length : numbers.length = names.length := by simpa using numbering.length
  refine ⟨length, fun i j inside inside' ↦ ?_, ?_⟩
  · have same := numbering.same i j (by simp; omega) (by simp; omega)
    rwa [List.getElem?_append_left (by omega), List.getElem?_append_left (by omega),
      List.getElem?_append_left inside, List.getElem?_append_left inside'] at same
  · have order := numbering.order
    rw [Term.eraseDups_concat] at order
    split at order
    · simpa using order
    · rw [List.length_append, List.length_singleton, List.range_succ] at order
      exact (List.append_inj' order rfl).1

/-- The last number is that of an earlier place of the name, or else the next. -/
theorem Numbering.last_mem_iff {names : List String} {numbers : List Var} {name : String} {v : Var}
    (numbering : Numbering (names ++ [name]) (numbers ++ [v])) {j : Nat}
    (inside : j < names.length) :
    numbers[j]? = some v ↔ names[j]? = some name ∧ name ≠ "_" := by
  have length : numbers.length = names.length := by simpa using numbering.length
  have same := numbering.same j names.length (by simp; omega) (by simp)
  have newNumber : (numbers ++ [v])[names.length]? = some v := by
    rw [← length, List.getElem?_concat_length]
  rw [List.getElem?_append_left (by omega), List.getElem?_append_left inside, newNumber,
    List.getElem?_concat_length] at same
  rw [same]
  constructor
  · rintro (rfl | ⟨found, named⟩)
    · omega
    · exact ⟨found, by simpa [found] using named⟩
  · rintro ⟨found, named⟩
    exact .inr ⟨found, by simpa [found] using named⟩

private theorem Numbering.eq_length_of_notMem {names : List String} {numbers : List Var} {v : Var}
    (numbering : Numbering names (numbers ++ [v])) (new : v ∉ numbers) :
    v = numbers.eraseDups.length := by
  have order := numbering.order
  rw [Term.eraseDups_concat, if_neg new, List.length_append, List.length_singleton,
    List.range_succ] at order
  exact (List.cons.inj (List.append_inj' order rfl).2).1

/-- Names can be numbered in one way. -/
theorem Numbering.unique {names : List String} {numbers others : List Var}
    (numbering : Numbering names numbers) (numbering' : Numbering names others) :
    numbers = others := by
  induction names using List.reverseRecOn generalizing numbers others with
  | nil =>
    rw [List.eq_nil_of_length_eq_zero numbering.length,
      List.eq_nil_of_length_eq_zero numbering'.length]
  | append_singleton names name ih =>
    obtain ⟨numbers, v, rfl⟩ : ∃ front last, numbers = front ++ [last] := by
      refine (List.eq_nil_or_concat' numbers).resolve_left ?_
      rintro rfl
      simpa using numbering.length
    obtain ⟨others, w, rfl⟩ : ∃ front last, others = front ++ [last] := by
      refine (List.eq_nil_or_concat' others).resolve_left ?_
      rintro rfl
      simpa using numbering'.length
    obtain rfl : numbers = others := ih numbering.of_snoc numbering'.of_snoc
    have length : numbers.length = names.length := by simpa using numbering.length
    have transfer {v w : Var} (hv : Numbering (names ++ [name]) (numbers ++ [v]))
        (hw : Numbering (names ++ [name]) (numbers ++ [w])) (old : v ∈ numbers) : v = w := by
      obtain ⟨j, there⟩ := List.mem_iff_getElem?.1 old
      obtain ⟨inside, -⟩ := List.getElem?_eq_some_iff.1 there
      have other := (hw.last_mem_iff (by omega)).2 ((hv.last_mem_iff (by omega)).1 there)
      exact Option.some.inj (there.symm.trans other)
    by_cases old : v ∈ numbers
    · rw [transfer numbering numbering' old]
    · by_cases old' : w ∈ numbers
      · rw [transfer numbering' numbering old']
      · rw [numbering.eq_length_of_notMem old, numbering'.eq_length_of_notMem old']

/-- A name with its number among some with one more is an old one or the last. -/
theorem Numbering.exists_concat_iff {names : List String} {numbers : List Var}
    (numbering : Numbering names numbers) (name other : String) (v w : Var) :
    (∃ i : Nat, (names ++ [name])[i]? = some other ∧ (numbers ++ [v])[i]? = some w) ↔
      (∃ i : Nat, names[i]? = some other ∧ numbers[i]? = some w) ∨ (name = other ∧ v = w) := by
  have length := numbering.length
  have mem (pair : String × Var) {names : List String} {numbers : List Var} :
      (∃ i : Nat, names[i]? = some pair.1 ∧ numbers[i]? = some pair.2) ↔
        pair ∈ names.zip numbers := by
    rw [List.mem_iff_getElem?]
    simp only [List.getElem?_zip_eq_some]
  rw [mem (other, w), mem (other, w), List.zip_append length.symm, List.mem_append]
  simp [eq_comm]

namespace Scope

/-- The number of a name, with the scope after it was met. -/
def meet (scope : Scope) (name : String) : Var × Scope :=
  match if name = "_" then none else scope.names[name]? with
  | some v => (v, scope)
  | none =>
    (scope.next,
      { names := if name = "_" then scope.names else scope.names.insert name scope.next
        next := scope.next + 1 })

/-- The numbers of names met one after another. -/
def numbers (scope : Scope) : List String → List Var
  | [] => []
  | name :: names => (scope.meet name).1 :: (scope.meet name).2.numbers names

/-- The scope after names were met. -/
def after (scope : Scope) (names : List String) : Scope :=
  names.foldl (fun scope name ↦ (scope.meet name).2) scope

private theorem numbers_append (scope : Scope) (first second : List String) :
    scope.numbers (first ++ second) = scope.numbers first ++
      (scope.after first).numbers second := by
  induction first generalizing scope with
  | nil => rfl
  | cons name names ih => simp [numbers, after, ih]

private theorem after_append (scope : Scope) (first second : List String) :
    scope.after (first ++ second) = (scope.after first).after second := by
  simp [after]

/-- What is known of a scope after names were met and got their numbers. -/
structure Met (scope : Scope) (names : List String) (numbers : List Var) : Prop where
  numbering : Numbering names numbers
  next : scope.next = numbers.eraseDups.length
  holds : ∀ name v, scope.names[name]? = some v ↔
    name ≠ "_" ∧ ∃ i : Nat, names[i]? = some name ∧ numbers[i]? = some v

private theorem met_new : Met {} [] [] where
  numbering := ⟨rfl, by simp, rfl⟩
  next := rfl
  holds := by simp

variable {scope : Scope} {names : List String} {numbers : List Var}

/-- The numbers given are those below the next one. -/
theorem Met.mem_iff (met : scope.Met names numbers) {v : Var} : v ∈ numbers ↔ v < scope.next := by
  rw [← List.mem_eraseDups, met.numbering.order, List.mem_range, met.next]

/-- A name that was met keeps its number. -/
theorem Met.again (met : scope.Met names numbers) {name : String} {v : Var}
    (found : scope.names[name]? = some v) : scope.Met (names ++ [name]) (numbers ++ [v]) := by
  obtain ⟨named, k, name_k, number_k⟩ := (met.holds name v).1 found
  obtain ⟨k_lt, -⟩ := List.getElem?_eq_some_iff.1 name_k
  have among : v ∈ numbers := List.mem_of_getElem? number_k
  refine ⟨met.numbering.snoc ?_ (.inl among), ?_, ?_⟩
  · intro j j_lt
    rw [← number_k, met.numbering.same j k j_lt k_lt, name_k]
    constructor
    · rintro (rfl | ⟨same, -⟩)
      · exact ⟨name_k, named⟩
      · exact ⟨same, named⟩
    · rintro ⟨same, -⟩
      exact .inr ⟨same, by simpa [same] using named⟩
  · rw [met.next, Term.eraseDups_concat, if_pos among, List.append_nil]
  · intro other w
    rw [met.holds, met.numbering.exists_concat_iff]
    refine and_congr_right fun _ ↦ ⟨.inl, ?_⟩
    rintro (old | ⟨rfl, rfl⟩)
    · exact old
    · exact ⟨k, name_k, number_k⟩

/-- A name that was not met, or `_`, gets the next number. -/
theorem Met.fresh (met : scope.Met names numbers) {name : String}
    (missing : name = "_" ∨ scope.names[name]? = none) :
    Met { names := if name = "_" then scope.names else scope.names.insert name scope.next
          next := scope.next + 1 } (names ++ [name]) (numbers ++ [scope.next]) := by
  have length := met.numbering.length
  have new : scope.next ∉ numbers := fun old ↦ Nat.lt_irrefl _ (met.mem_iff.1 old)
  refine ⟨met.numbering.snoc ?_ (.inr met.next), ?_, ?_⟩
  · intro j j_lt
    refine ⟨fun there ↦ (new (List.mem_of_getElem? there)).elim, fun ⟨there, named⟩ ↦ ?_⟩
    have number := List.getElem?_eq_getElem (l := numbers) (i := j) (by omega)
    have holds := (met.holds name _).2 ⟨named, j, there, number⟩
    rcases missing with rfl | none_there
    · exact absurd rfl named
    · rw [none_there] at holds
      cases holds
  · rw [Term.eraseDups_concat, if_neg new, List.length_append, List.length_singleton, met.next]
  · intro other v
    have old := met.holds other v
    rw [met.numbering.exists_concat_iff]
    by_cases blank : name = "_"
    · rw [if_pos blank, old]
      refine and_congr_right fun named ↦ ⟨.inl, fun either ↦ either.elim id fun last ↦ ?_⟩
      exact absurd (last.1.symm.trans blank) named
    · rw [if_neg blank, Std.HashMap.getElem?_insert]
      have absent := missing.resolve_left blank
      by_cases same : name = other
      · subst same
        have unmet : ¬ ∃ i : Nat, names[i]? = some name ∧ numbers[i]? = some v := fun there ↦ by
          rw [(met.holds name v).2 ⟨blank, there⟩] at absent
          cases absent
        simp [blank, unmet]
      · simp [same, old]

/-- Names met one after another are numbered rightly. -/
theorem met_after (names : List String) : (after {} names).Met names (Scope.numbers {} names) := by
  induction names using List.reverseRecOn with
  | nil => exact met_new
  | append_singleton names name ih =>
    rw [after_append, numbers_append]
    change ((after {} names).meet name).2.Met _ (_ ++ [((after {} names).meet name).1])
    unfold meet
    split
    · next v found =>
      split at found
      · cases found
      · exact ih.again found
    · next missing =>
      refine ih.fresh ?_
      split at missing
      · next blank => exact .inl blank
      · exact .inr missing

theorem numbering_numbers (names : List String) : Numbering names (Scope.numbers {} names) :=
  (met_after names).numbering

end Scope

/-! ### Registering names -/

namespace SymbolTable

/-- The table after names were registered. -/
def registerAll (symbols : SymbolTable) (names : List String) : SymbolTable :=
  names.foldl (fun symbols name ↦ (symbols.intern name).2) symbols

private theorem registerAll_append (symbols : SymbolTable) (first second : List String) :
    symbols.registerAll (first ++ second) = (symbols.registerAll first).registerAll second := by
  simp [registerAll]

private theorem name?_intern_of_name? {symbols : SymbolTable} {symbol : Symbol} {known : String}
    (issued : symbols.name? symbol = some known) (name : String) :
    (symbols.intern name).2.name? symbol = some known := by
  unfold intern
  split
  · exact issued
  · obtain ⟨inside, -⟩ := Array.getElem?_eq_some_iff.1 issued
    rw [name?, register, Array.getElem?_push_lt inside, ← Array.getElem?_eq_getElem inside]
    exact issued

/-- Names stay registered. -/
theorem name?_registerAll {symbols : SymbolTable} {symbol : Symbol} {known : String}
    (issued : symbols.name? symbol = some known) (names : List String) :
    (symbols.registerAll names).name? symbol = some known := by
  induction names generalizing symbols with
  | nil => exact issued
  | cons name names ih => exact ih (name?_intern_of_name? issued name)

/-- Registering names that are registered changes nothing. -/
theorem registerAll_of_lookup? {symbols : SymbolTable} {names : List String}
    (known : ∀ name ∈ names, ∃ symbol, symbols.name? symbol = some name) :
    symbols.registerAll names = symbols := by
  induction names with
  | nil => rfl
  | cons name names ih =>
    obtain ⟨symbol, issued⟩ := known name List.mem_cons_self
    rw [registerAll, List.foldl_cons,
      intern_of_lookup? ((symbols.lookup?_eq_some_iff name symbol).2 issued)]
    exact ih fun other member ↦ known other (List.mem_cons_of_mem _ member)

end SymbolTable

/-! ### Reading a phrase -/

namespace Reading

private theorem namedVar_apply (name : String) (session : Session) :
    namedVar name session =
      .ok (session.scope.meet name).1 { session with scope := (session.scope.meet name).2 } := by
  unfold namedVar Scope.meet
  cases if name = "_" then none else session.scope.names[name]? <;> rfl

private theorem intern_apply (name : String) (session : Session) :
    intern name session = .ok (session.symbols.intern name).1
      { session with symbols := (session.symbols.intern name).2 } := rfl

end Reading

namespace Phrase

open Reading

mutual

/-- The term of a phrase: variables get their numbers from left to right, and a name is registered
after the names of its arguments. -/
def read : Phrase → Reading Term
  | .var name => Term.var <$> namedVar name
  | .num value => pure (.num value)
  | .compound name args => do
    let terms ← readAll args
    let symbol ← intern name
    pure (Term.apply symbol terms)

/-- The terms of some phrases. -/
def readAll : List Phrase → Reading (List Term)
  | [] => pure []
  | phrase :: phrases => do
    let term ← read phrase
    let terms ← readAll phrases
    pure (term :: terms)

end

theorem Denotes.registerAll {symbols : SymbolTable} {phrase : Phrase} {term : Term}
    (denotes : phrase.Denotes symbols term) (names : List String) :
    phrase.Denotes (symbols.registerAll names) term := by
  induction denotes with
  | var => exact .var
  | num => exact .num
  | compound known paired _ ih =>
    exact .compound (SymbolTable.name?_registerAll known names) paired ih

/-- Reading a phrase always gives a term: its names are registered, and its variables numbered. -/
def Reads (phrase : Phrase) : Prop :=
  ∀ session : Session, ∃ term,
    phrase.read session =
      .ok term ⟨session.symbols.registerAll phrase.names, session.scope.after phrase.vars⟩ ∧
    phrase.Denotes (session.symbols.registerAll phrase.names) term ∧
    term.occurrences = session.scope.numbers phrase.vars

theorem exists_readAll {phrases : List Phrase} (each : ∀ phrase ∈ phrases, phrase.Reads)
    (session : Session) :
    ∃ terms,
      readAll phrases session = .ok terms
        ⟨session.symbols.registerAll (namesList phrases), session.scope.after (varsList phrases)⟩ ∧
      phrases.length = terms.length ∧
      (∀ pair ∈ phrases.zip terms,
        pair.1.Denotes (session.symbols.registerAll (namesList phrases)) pair.2) ∧
      Term.occurrencesList terms = session.scope.numbers (varsList phrases) := by
  induction phrases generalizing session with
  | nil => exact ⟨[], rfl, rfl, nofun, rfl⟩
  | cons phrase phrases ih =>
    obtain ⟨term, read, denotes, numbered⟩ := each phrase List.mem_cons_self session
    obtain ⟨terms, readRest, paired, denoteRest, numberedRest⟩ :=
      ih (fun other member ↦ each other (List.mem_cons_of_mem _ member))
        ⟨session.symbols.registerAll phrase.names, session.scope.after phrase.vars⟩
    simp only [namesList, varsList, SymbolTable.registerAll_append, Scope.after_append,
      Scope.numbers_append]
    refine ⟨term :: terms, ?_, by simp [paired], ?_, ?_⟩
    · rw [readAll, bind_apply, read]
      dsimp only
      rw [bind_apply, readRest]
      rfl
    · rw [List.zip_cons_cons]
      refine List.forall_mem_cons.2 ⟨denotes.registerAll _, denoteRest⟩
    · rw [Term.occurrencesList, numbered, numberedRest]

theorem reads (phrase : Phrase) : phrase.Reads := by
  induction phrase with
  | var name =>
    intro session
    refine ⟨.var (session.scope.meet name).1, ?_, .var, ?_⟩
    · rw [read, map_apply, namedVar_apply]
      rfl
    · simp [Term.occurrences, vars, Scope.numbers]
  | num value =>
    intro session
    exact ⟨.num value, rfl, .num, rfl⟩
  | compound name args ih =>
    intro session
    obtain ⟨terms, read_args, paired, denote, numbered⟩ := exists_readAll ih session
    have table : session.symbols.registerAll (names (.compound name args)) =
        ((session.symbols.registerAll (namesList args)).intern name).2 := by
      rw [names, SymbolTable.registerAll_append]
      rfl
    refine ⟨.apply ((session.symbols.registerAll (namesList args)).intern name).1 terms, ?_,
      .compound ?_ paired ?_, ?_⟩
    · rw [read, bind_apply, read_args]
      dsimp only
      rw [bind_apply, intern_apply, table, vars]
      rfl
    · rw [table]
      exact SymbolTable.name?_intern _ name
    · intro pair member
      rw [names, SymbolTable.registerAll_append]
      exact (denote pair member).registerAll _
    · rw [Term.occurrences_apply, numbered, vars]

/-! ### A phrase denotes one term -/

private theorem length_occurrencesList {args : List Phrase} {terms : List Term}
    (paired : args.length = terms.length)
    (each : ∀ pair ∈ args.zip terms, pair.2.occurrences.length = pair.1.vars.length) :
    (Term.occurrencesList terms).length = (varsList args).length := by
  induction args generalizing terms with
  | nil =>
    cases terms with
    | nil => rfl
    | cons => cases paired
  | cons arg args ih =>
    cases terms with
    | nil => cases paired
    | cons term terms =>
      rw [List.zip_cons_cons] at each
      obtain ⟨here, later⟩ := List.forall_mem_cons.1 each
      have rest := ih (Nat.succ.inj paired) later
      simp only [Term.occurrencesList, varsList, List.length_append, here, rest]

/-- A term has as many variable occurrences as the phrase that denotes it. -/
theorem Denotes.length_occurrences {symbols : SymbolTable} {phrase : Phrase} {term : Term}
    (denotes : phrase.Denotes symbols term) : term.occurrences.length = phrase.vars.length := by
  induction denotes with
  | var => rfl
  | num => rfl
  | compound _ paired _ ih =>
    rw [Term.occurrences_apply, vars]
    exact length_occurrencesList paired ih

/-- Terms that phrases denote are told apart by their variable occurrences. -/
theorem eq_of_denote {symbols : SymbolTable} {args : List Phrase} {terms others : List Term}
    (paired : args.length = terms.length) (paired' : args.length = others.length)
    (each : ∀ pair ∈ args.zip terms, pair.1.Denotes symbols pair.2)
    (each' : ∀ pair ∈ args.zip others, pair.1.Denotes symbols pair.2)
    (unique : ∀ pair ∈ args.zip terms, ∀ other, pair.1.Denotes symbols other →
      pair.2.occurrences = other.occurrences → pair.2 = other)
    (same : Term.occurrencesList terms = Term.occurrencesList others) : terms = others := by
  induction args generalizing terms others with
  | nil =>
    rw [List.eq_nil_of_length_eq_zero paired.symm, List.eq_nil_of_length_eq_zero paired'.symm]
  | cons arg args ih =>
    cases terms with
    | nil => cases paired
    | cons term terms =>
      cases others with
      | nil => cases paired'
      | cons other others =>
        rw [List.zip_cons_cons] at each each' unique
        obtain ⟨here, later⟩ := List.forall_mem_cons.1 each
        obtain ⟨here', later'⟩ := List.forall_mem_cons.1 each'
        obtain ⟨one, rest⟩ := List.forall_mem_cons.1 unique
        have long : term.occurrences.length = other.occurrences.length :=
          here.length_occurrences.trans here'.length_occurrences.symm
        obtain ⟨front, back⟩ := List.append_inj same long
        rw [show term = other from one other here' front,
          ih (Nat.succ.inj paired) (Nat.succ.inj paired') later later' rest back]

/-- A phrase denotes one term for each numbering of its variables. -/
theorem Denotes.unique {symbols : SymbolTable} {phrase : Phrase} {term other : Term}
    (denotes : phrase.Denotes symbols term) (denotes' : phrase.Denotes symbols other)
    (same : term.occurrences = other.occurrences) : term = other := by
  induction denotes generalizing other with
  | var =>
    cases denotes'
    simpa [Term.occurrences] using same
  | num =>
    cases denotes'
    rfl
  | @compound name symbol args terms known paired each ih =>
    cases denotes' with
    | @compound _ symbol' _ terms' known' paired' each' =>
      have one : symbol = symbol' := by
        rw [← symbols.lookup?_eq_some_iff] at known known'
        exact Option.some.inj (known.symm.trans known')
      rw [Term.occurrences_apply, Term.occurrences_apply] at same
      rw [one, eq_of_denote paired paired' each each' (fun pair member _ ↦ ih pair member) same]

end Phrase
end HornMachine
