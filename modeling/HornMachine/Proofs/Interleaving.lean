import HornMachine.Engine.Build
import HornMachine.Proofs.Code.Acceptance
import Mathlib.Data.List.Sort

/-!
# Statements in another order

Building goes over a source in passes, and each pass looks at statements of one kind. What rules may
call is known before the first of them is compiled, and afterwards no more becomes known by adding
them. Of the functors that are known it matters only which these are. So an engine does not depend
on how statements of different kinds are mixed, nor on the order of the declarations.

Main statement: sources with the same facts, rules and goals and the same declared functors give
engines with the same content or the same error, and a call is unknown only if nothing in the whole
source makes it known (`Engine.build_interleaved`).
-/

namespace HornMachine

/-! ### Functors in order -/

namespace Functor

private theorem isLE_compare_iff {f g : Functor} : (compare f g).isLE = true ↔
    f.symbol.id < g.symbol.id ∨ f.symbol.id = g.symbol.id ∧ f.arity ≤ g.arity := by
  have lexicographic : compare f g = (compare f.symbol.id g.symbol.id).then
    (compare f.arity g.arity) := rfl
  rw [lexicographic, Ordering.isLE_then_iff_or, Nat.compare_eq_lt, Nat.compare_eq_eq,
    Nat.isLE_compare]

end Functor

namespace FactStore

variable (store : FactStore)

private theorem mem_predicates_iff {functor : Functor} :
    functor ∈ store.predicates ↔ store.knows functor = true := by
  rw [predicates, (List.mergeSort_perm _ _).mem_iff, Std.TreeSet.mem_toList, Std.TreeSet.mem_ofList,
    List.contains_iff_mem, List.mem_append, Std.TreeMap.mem_keys, Std.TreeSet.mem_toList, knows,
      Bool.or_eq_true]
  rfl

private theorem nodup_predicates : store.predicates.Nodup := by
  rw [predicates, (List.mergeSort_perm _ _).nodup_iff]
  exact (Std.TreeSet.distinct_toList).imp fun different same ↦ by simp [same] at different

private theorem pairwise_predicates :
    store.predicates.Pairwise fun f g ↦ (compare f g).isLE = true := by
  refine List.pairwise_mergeSort (fun f g h lower upper ↦ ?_) (fun f g ↦ ?_) _
  · rw [Functor.isLE_compare_iff] at lower upper ⊢
    omega
  · rw [Bool.or_eq_true, Functor.isLE_compare_iff, Functor.isLE_compare_iff]
    omega

/-- Predicates are listed in the order of their functors, whatever order they became known in. -/
theorem predicates_congr {store other : FactStore}
    (same : ∀ functor, other.knows functor = store.knows functor) :
    other.predicates = store.predicates := by
  refine List.Perm.eq_of_pairwise (fun f g _ _ lower upper ↦ ?_)
    other.pairwise_predicates store.pairwise_predicates
    ((List.perm_ext_iff_of_nodup other.nodup_predicates store.nodup_predicates).2 fun functor ↦ ?_)
  · rw [Functor.isLE_compare_iff] at lower upper
    obtain ⟨⟨first⟩, arity⟩ := f
    obtain ⟨⟨second⟩, others⟩ := g
    simp only [Functor.mk.injEq, Symbol.mk.injEq]
    dsimp only at lower upper
    omega
  · rw [mem_predicates_iff, mem_predicates_iff, same]

end FactStore

/-- A functor calls nothing known if it is no builtin, is not declared and has no rules. -/
theorem Program.target?_eq_none_iff {program : Program} {symbols : SymbolTable}
    {functor : Functor} :
    (program.signatures symbols).target? functor = none ↔
      Builtin.ofFunctor? symbols functor = none ∧ functor ∉ program.declared ∧
      functor ∉ program.index := by
  rw [signatures]
  dsimp only
  cases Builtin.ofFunctor? symbols functor with
  | some builtin => simp
  | none =>
    rw [Std.TreeSet.mem_iff_contains, Std.TreeMap.mem_iff_contains]
    cases program.declared.contains functor <;> cases program.index.contains functor <;> simp

/-- Where a rule is rejected for an unknown predicate, what this says of it is so. -/
theorem Rule.holds_unknownPredicate {rule blamed : Rule} {signatures : Signatures}
    {registers index : Nat} {functor : Functor} (failed : rule.compile signatures registers =
      .error ⟨blamed, .unknownPredicate index functor⟩) :
    blamed = rule ∧ rule.Holds signatures registers (.unknownPredicate index functor) := by
  obtain ⟨same, refused⟩ := compile_eq_error_iff.1 failed
  refine ⟨same, ?_⟩
  cases refused with
  | @goal head _ goal _ fits found here before refused =>
    rcases resolveGoal_eq_error refused with ⟨-, other⟩ | ⟨wide, -, other⟩ |
      ⟨called, called_found, possible, foreign, unknown, same⟩
    · cases other
    · cases other
    · cases same
      refine ⟨goal, here, possible, called_found, fun own ↦ foreign ?_, unknown⟩
      exact Option.some.inj (own.symm.trans found)

/-- What a source makes known, wherever in it: it is declared, has a fact or is the head of a
rule. -/
def Source.Defines (source : Source) (functor : Functor) : Prop :=
  functor ∈ source.declarations ∨ (∃ fact ∈ source.facts, fact.functor = functor) ∨
    ∃ rule ∈ source.rules, rule.head.functor? = some functor

namespace Engine

variable {engine : Engine} {callable stored : Std.TreeSet Functor}

/-! ### What is known before rules are added -/

/-- The engine with other functors that may be called and other predicates that may have facts. -/
def knowing (engine : Engine) (callable stored : Std.TreeSet Functor) : Engine :=
  { engine with
    program := { engine.program with declared := callable }
    store := { engine.store with declared := stored } }

/-- Declarations change nothing but what is known. -/
theorem exists_foldl_declare (functors : List Functor) :
    ∃ more others, functors.foldl declare (engine.knowing callable stored) =
      engine.knowing more others ∧
      (∀ functor, functor ∈ more ↔ functor ∈ callable ∨ functor ∈ functors) ∧
      ∀ functor, functor ∈ others ↔ functor ∈ stored ∨ functor ∈ functors := by
  induction functors generalizing callable stored with
  | nil => exact ⟨callable, stored, rfl, by simp, by simp⟩
  | cons first functors ih =>
    obtain ⟨more, others, made, mem_more, mem_others⟩ :=
      @ih (callable.insert first) (stored.insert first)
    refine ⟨more, others, made, fun functor ↦ ?_, fun functor ↦ ?_⟩
    · rw [mem_more, Std.TreeSet.mem_insert, Std.LawfulEqCmp.compare_eq_iff_eq, List.mem_cons]
      tauto
    · rw [mem_others, Std.TreeSet.mem_insert, Std.LawfulEqCmp.compare_eq_iff_eq, List.mem_cons]
      tauto

/-- A fact makes its functor known to rules; whether it is new depends on nothing that is known. -/
theorem assertFact_knowing (fact : Fact) :
    ((engine.knowing callable stored).assertFact fact).2 =
      (engine.assertFact fact).2.knowing (callable.insert fact.functor) stored := by
  have same : (engine.knowing callable stored).store.contains fact = engine.store.contains fact :=
    rfl
  rw [assertFact, assertFact, FactStore.assert, FactStore.assert, same]
  cases engine.store.contains fact <;> rfl

private theorem exists_foldl_assertFact (facts : List Fact) :
    ∃ more, facts.foldl (fun engine fact ↦ (engine.assertFact fact).2)
      (engine.knowing callable stored) =
        (facts.foldl (fun engine fact ↦ (engine.assertFact fact).2) engine).knowing more stored ∧
      ∀ functor, functor ∈ more ↔ functor ∈ callable ∨ ∃ fact ∈ facts, fact.functor = functor := by
  induction facts generalizing engine callable with
  | nil => exact ⟨callable, rfl, by simp⟩
  | cons fact facts ih =>
    obtain ⟨more, made, mem_more⟩ := @ih (engine.assertFact fact).2 (callable.insert fact.functor)
    refine ⟨more, ?_, fun functor ↦ ?_⟩
    · rw [List.foldl_cons, List.foldl_cons, assertFact_knowing, made]
    · simp only [mem_more, Std.TreeSet.mem_insert, Std.LawfulEqCmp.compare_eq_iff_eq, List.mem_cons,
        exists_eq_or_imp]
      tauto

/-- What is asserted for a source. -/
def asserted (config : Config) (symbols : SymbolTable) (facts : List Fact) : Engine :=
  facts.foldl (fun engine fact ↦ (engine.assertFact fact).2) (new config symbols)

private theorem symbols_asserted (config : Config) (symbols : SymbolTable) (facts : List Fact) :
    (asserted config symbols facts).symbols = symbols := by
  have kept (engine : Engine) :
      (facts.foldl (fun engine fact ↦ (engine.assertFact fact).2) engine).symbols =
        engine.symbols := by
    induction facts generalizing engine with
    | nil => rfl
    | cons fact facts ih => exact ih _
  exact kept _

/-- The engine of a source before its rules are added. -/
def prepared (config : Config) (symbols : SymbolTable) (source : Source) : Engine :=
  declareHeads (source.facts.foldl (fun engine fact ↦ (engine.assertFact fact).2)
    (source.declarations.foldl declare (new config symbols))) source.rules

/-- Before rules are added, what is known is what the source declares, has facts of or rules for. -/
theorem exists_prepared (config : Config) (symbols : SymbolTable) (source : Source) :
    ∃ callable stored,
      prepared config symbols source = (asserted config symbols source.facts).knowing
        callable stored ∧
      (∀ functor, functor ∈ callable ↔ source.Defines functor) ∧
      ∀ functor, functor ∈ stored ↔
        functor ∈ source.declarations ∨ ∃ rule ∈ source.rules, rule.head.functor? =
          some functor := by
  obtain ⟨called, held, declared, mem_called, mem_held⟩ :=
    @exists_foldl_declare (new config symbols) ∅ ∅ source.declarations
  obtain ⟨known, facts, mem_known⟩ :=
    @exists_foldl_assertFact (new config symbols) called held source.facts
  obtain ⟨callable, stored, heads, mem_callable, mem_stored⟩ :=
    @exists_foldl_declare (asserted config symbols source.facts) known held
      (source.rules.filterMap fun rule ↦ rule.head.functor?)
  refine ⟨callable, stored, ?_, fun functor ↦ ?_, fun functor ↦ ?_⟩
  · rw [prepared, show source.declarations.foldl declare (new config symbols) = _ from declared,
      facts, declareHeads]
    exact heads
  · rw [mem_callable, mem_known, mem_called, List.mem_filterMap, Source.Defines]
    simp [or_assoc]
  · rw [mem_stored, mem_held, List.mem_filterMap]
    simp

/-! ### Adding rules -/

variable {more others : Std.TreeSet Functor}

/-- Of the functors that may be called it matters which they are. -/
theorem signatures_knowing (same : ∀ functor, functor ∈ more ↔ functor ∈ callable)
    (symbols : SymbolTable) :
    (engine.knowing more others).program.signatures symbols =
      (engine.knowing callable stored).program.signatures symbols := by
  have contains (functor : Functor) : more.contains functor = callable.contains functor :=
    Bool.eq_iff_iff.2 (same functor)
  simp only [Program.signatures, knowing, contains]
  rfl

private theorem addRules_cons (rule : Rule) (rules : List Rule) :
    engine.addRules (rule :: rules) = (engine.program.compile engine.symbols rule).bind
      fun compiled ↦
      { engine with program := engine.program.append compiled }.addRules rules := by
  rw [addRules, addRule, Program.addRule]
  cases engine.program.compile engine.symbols rule <;> rfl

/-- Rules compile alike whatever else is known of the functors that may be called. -/
theorem addRules_knowing (same : ∀ functor, functor ∈ more ↔ functor ∈ callable)
    (rules : List Rule) :
    (engine.knowing more others).addRules rules =
      ((engine.knowing callable stored).addRules rules).map (knowing · more others) := by
  induction rules generalizing engine with
  | nil => rfl
  | cons rule rules ih =>
    have compiles : (engine.knowing more others).program.compile
      (engine.knowing more others).symbols rule =
        (engine.knowing callable stored).program.compile
          (engine.knowing callable stored).symbols rule := by
      rw [Program.compile, signatures_knowing same]
      rfl
    have next (compiled : CompiledRule) :=
      @ih { engine with program := engine.program.append compiled }
    rw [addRules_cons, addRules_cons, compiles]
    cases (engine.knowing callable stored).program.compile
      (engine.knowing callable stored).symbols rule with
    | error error => rfl
    | ok compiled => exact next compiled

/-- Adding rules makes no further functor known, and the first rule that does not compile is the
error. -/
theorem exists_of_addRules_eq_error {rules : List Rule} {error : CompileError}
    (failed : engine.addRules rules = .error error) :
    ∃ program : Program, program.declared = engine.program.declared ∧
      ∃ rule ∈ rules, program.compile engine.symbols rule = .error error := by
  induction rules generalizing engine with
  | nil => cases failed
  | cons rule rules ih =>
    rw [addRules_cons] at failed
    cases compiles : engine.program.compile engine.symbols rule with
    | error reason =>
      rw [compiles] at failed
      cases failed
      exact ⟨engine.program, rfl, rule, List.mem_cons_self, compiles⟩
    | ok compiled =>
      rw [compiles] at failed
      obtain ⟨program, declared, other, member, refused⟩ := ih failed
      exact ⟨program, declared, other, List.mem_cons_of_mem _ member, refused⟩

private theorem foldl_addGoal_knowing (goals : List Term) :
    goals.foldl addGoal (engine.knowing callable stored) =
      (goals.foldl addGoal engine).knowing callable stored := by
  induction goals generalizing engine with
  | nil => rfl
  | cons goal goals ih => exact @ih (engine.addGoal goal)

/-! ### Building -/

/-- What can be seen of an engine without attempting anything. -/
structure SameContent (engine twin : Engine) : Prop where
  rules : twin.program.rules = engine.program.rules
  clauses : ∀ functor, twin.program.clauses functor = engine.program.clauses functor
  signatures : ∀ symbols, twin.program.signatures symbols = engine.program.signatures symbols
  goals : twin.goals = engine.goals
  facts : ∀ functor, twin.store.factsOf functor = engine.store.factsOf functor
  snapshot : twin.store.snapshot = engine.store.snapshot
  predicates : twin.store.predicates = engine.store.predicates

private theorem sameContent_knowing
    (called : ∀ functor, functor ∈ callable ↔ functor ∈ engine.program.declared)
    (held : ∀ functor, functor ∈ stored ↔ functor ∈ engine.store.declared) :
    engine.SameContent (engine.knowing callable stored) where
  rules := rfl
  clauses _ := rfl
  signatures := signatures_knowing called
  goals := rfl
  facts _ := rfl
  snapshot := rfl
  predicates := FactStore.predicates_congr fun functor ↦
    congrArg (engine.store.byFunctor.contains functor || ·) (Bool.eq_iff_iff.2 (held functor))

private theorem build_of_refused {config : Config} {issue : ConfigIssue}
    (refused : config.validate = .error issue) (symbols : SymbolTable) (source : Source) :
    build config symbols source = .error (.config issue) := by
  rw [build, refused]
  rfl

/-- With settings that are accepted, a source is built of what is prepared for it. -/
theorem build_of_validate {config checked : Config} (valid : config.validate = .ok checked)
    (symbols : SymbolTable) (source : Source) : build config symbols source =
      (((prepared checked symbols source).addRules source.rules).mapError EngineError.compile).map
        (source.goals.foldl addGoal) := by
  rw [build, valid]
  change ((prepared checked symbols source).addRules source.rules).mapError EngineError.compile >>=
    (fun engine ↦ .ok (source.goals.foldl addGoal engine)) = Except.map _ _
  cases (prepared checked symbols source).addRules source.rules <;> rfl

/-- With the same facts, rules and goals an engine differs in the sets of what is known at most, and
if the same is declared they have the same elements. -/
theorem exists_build_knowing {config : Config} {symbols : SymbolTable} {source other : Source}
    (facts : other.facts = source.facts) (rules : other.rules = source.rules)
    (goals : other.goals = source.goals)
    (declared : ∀ functor, functor ∈ other.declarations ↔ functor ∈ source.declarations) :
    ∃ callable stored,
      build config symbols other = (build config symbols source).map (knowing · callable stored) ∧
      ∀ engine, build config symbols source = .ok engine →
        (∀ functor, functor ∈ callable ↔ functor ∈ engine.program.declared) ∧
        ∀ functor, functor ∈ stored ↔ functor ∈ engine.store.declared := by
  cases valid : config.validate with
  | error issue =>
    rw [build_of_refused valid, build_of_refused valid]
    exact ⟨∅, ∅, rfl, nofun⟩
  | ok config =>
    obtain ⟨callable, stored, start, mem_callable, mem_stored⟩ :=
      exists_prepared config symbols source
    obtain ⟨more, others, begun, mem_more, mem_others⟩ := exists_prepared config symbols other
    rw [build_of_validate valid, build_of_validate valid]
    have called (functor : Functor) : functor ∈ more ↔ functor ∈ callable := by
      rw [mem_more, mem_callable, Source.Defines, Source.Defines, facts, rules, declared]
    have held (functor : Functor) : functor ∈ others ↔ functor ∈ stored := by
      rw [mem_others, mem_stored, rules, declared]
    have again :=
      @addRules_knowing (asserted config symbols source.facts) callable stored callable stored
      (fun _ ↦ Iff.rfl) source.rules
    have apart :=
      @addRules_knowing (asserted config symbols source.facts) callable stored more others
      called source.rules
    refine ⟨more, others, ?_, ?_⟩
    · rw [start, begun, facts, rules, goals, apart]
      cases (knowing (asserted config symbols source.facts) callable stored).addRules
        source.rules with
      | error error => rfl
      | ok engine => exact congrArg Except.ok (foldl_addGoal_knowing source.goals)
    · rw [start]
      cases added : (knowing (asserted config symbols source.facts) callable stored).addRules
        source.rules with
      | error error => exact nofun
      | ok engine =>
        rw [added] at again
        intro built ended
        have known : engine = engine.knowing callable stored := Except.ok.inj again
        rw [known] at ended
        have whole : built = (source.goals.foldl addGoal engine).knowing callable stored := by
          rw [← foldl_addGoal_knowing]
          exact (Except.ok.inj ended).symm
        rw [whole]
        exact ⟨called, held⟩

/-- A goal is said to call nothing known only if its functor is no builtin and nothing defines
it. -/
theorem unknown_of_build {config : Config} {symbols : SymbolTable} {source : Source} {rule : Rule}
    {index : Nat} {functor : Functor} (failed : build config symbols source =
      .error (.compile ⟨rule, .unknownPredicate index functor⟩)) :
    rule ∈ source.rules ∧ ∃ goal, rule.body[index]? = some goal ∧
    Rule.isFalse symbols goal = false ∧
      goal.functor? = some functor ∧ Builtin.ofFunctor? symbols functor = none ∧
      ¬source.Defines functor := by
  cases valid : config.validate with
  | error issue =>
    rw [build_of_refused valid] at failed
    cases failed
  | ok config =>
    obtain ⟨callable, stored, start, mem_callable, -⟩ := exists_prepared config symbols source
    rw [build_of_validate valid, start] at failed
    cases added : (knowing (asserted config symbols source.facts) callable stored).addRules
      source.rules with
    | ok engine =>
      rw [added] at failed
      cases failed
    | error error =>
      rw [added] at failed
      cases failed
      obtain ⟨program, declared, compiled, member, refused⟩ := exists_of_addRules_eq_error added
      rw [show (knowing (asserted config symbols source.facts) callable stored).symbols =
        symbols from
        symbols_asserted config symbols source.facts] at refused
      obtain ⟨rfl, goal, here, possible, found, -, unknown⟩ := Rule.holds_unknownPredicate refused
      obtain ⟨builtin, missing, -⟩ := Program.target?_eq_none_iff.1 unknown
      rw [declared] at missing
      exact ⟨member, goal, here, possible, found, builtin,
        fun defined ↦ missing ((mem_callable functor).2 defined)⟩

/-- An engine does not depend on how the statements of its source are mixed: with the same facts,
rules and goals in their orders and the same declared functors, building either fails with the same
error or gives the same content. A goal is said to call nothing known only if it is not `false` and
its functor is no builtin, is not declared and has neither a fact nor a rule anywhere in the
source. -/
theorem build_interleaved (config : Config) (symbols : SymbolTable) (source : Source) :
    (∀ other : Source, other.facts = source.facts → other.rules = source.rules →
      other.goals = source.goals →
      (∀ functor, functor ∈ other.declarations ↔ functor ∈ source.declarations) →
      (∃ error, build config symbols source = .error error ∧
        build config symbols other = .error error) ∨
        ∃ engine twin, build config symbols source = .ok engine ∧
        build config symbols other = .ok twin ∧
          engine.SameContent twin) ∧
    ∀ rule index functor,
      build config symbols source = .error (.compile ⟨rule, .unknownPredicate index functor⟩) →
      rule ∈ source.rules ∧ ∃ goal, rule.body[index]? = some goal ∧
      Rule.isFalse symbols goal = false ∧
        goal.functor? = some functor ∧ Builtin.ofFunctor? symbols functor = none ∧
        ¬source.Defines functor := by
  refine ⟨fun other facts rules goals declared ↦ ?_, fun _ _ _ ↦ unknown_of_build⟩
  obtain ⟨callable, stored, same, known⟩ :=
    @exists_build_knowing config symbols _ _ facts rules goals declared
  rw [same]
  cases built : build config symbols source with
  | error error => exact .inl ⟨error, rfl, rfl⟩
  | ok engine =>
    obtain ⟨called, held⟩ := known engine built
    exact .inr ⟨engine, _, rfl, rfl, sameContent_knowing called held⟩

/-- A fact. -/
def atomFact : Fact := ⟨.atom ⟨2⟩, rfl, rfl, rfl⟩

/-- A rule that calls what the fact does not define. -/
def strayRule : Rule := ⟨.struct ⟨0⟩ [.var 0], [.struct ⟨1⟩ [.var 0]], none⟩

private theorem build_strayRule : build {} .empty ⟨[.fact atomFact, .rule strayRule]⟩ =
    .error (.compile ⟨strayRule, .unknownPredicate 0 ⟨⟨1⟩, 1⟩⟩) := by
  obtain ⟨callable, stored, start, mem_callable, -⟩ :=
    exists_prepared {} .empty ⟨[.fact atomFact, .rule strayRule]⟩
  let engine := knowing (asserted {} .empty [atomFact]) callable stored
  have undefined : (⟨⟨1⟩, 1⟩ : Functor) ∉ callable := by
    simp [mem_callable, Source.Defines, Source.declarations, Source.facts, Source.rules,
      Fact.functor, strayRule, atomFact, Term.functor?]
  have unknown : (engine.program.signatures .empty).target? ⟨⟨1⟩, 1⟩ = none :=
    Program.target?_eq_none_iff.2 ⟨rfl, undefined, Std.TreeMap.not_mem_emptyc⟩
  have goal : Rule.resolveGoal (engine.program.signatures .empty) ⟨⟨0⟩,
    1⟩ 0 (.struct ⟨1⟩ [.var 0]) =
      .error (.unknownPredicate 0 ⟨⟨1⟩, 1⟩) := by
    rw [Rule.resolveGoal, show Term.functor? (.struct ⟨1⟩ [.var 0]) = some ⟨⟨1⟩, 1⟩ from rfl]
    dsimp only
    rw [unknown]
    rfl
  have compiles : engine.program.compile engine.symbols strayRule =
      .error ⟨strayRule, .unknownPredicate 0 ⟨⟨1⟩, 1⟩⟩ :=
    Rule.compile_eq_error_iff.2 ⟨rfl, .goal rfl rfl rfl (by simp) goal⟩
  have stops : engine.addRules [strayRule] = .error ⟨strayRule, .unknownPredicate 0 ⟨⟨1⟩, 1⟩⟩ := by
    rw [addRules_cons, compiles]
    rfl
  rw [build_of_validate rfl, start]
  exact congrArg (fun result ↦ (result.mapError EngineError.compile).map (List.foldl addGoal · []))
    stops

/-- Declarations may be split and repeated, and a call stays unknown wherever its rule stands. -/
theorem build_interleaved_mixed :
    (∃ engine twin,
      build {} .empty ⟨[.declare [⟨⟨3⟩, 0⟩], .fact atomFact, .goal atomFact.term]⟩ = .ok engine ∧
      build {} .empty ⟨[.goal atomFact.term, .declare [⟨⟨3⟩, 0⟩, ⟨⟨3⟩, 0⟩], .fact atomFact,
        .declare []]⟩ =
        .ok twin ∧
      engine.SameContent twin) ∧
    build {} .empty ⟨[.rule strayRule, .fact atomFact]⟩ =
      .error (.compile ⟨strayRule, .unknownPredicate 0 ⟨⟨1⟩, 1⟩⟩) ∧
    ¬Source.Defines ⟨[.fact atomFact, .rule strayRule]⟩ ⟨⟨1⟩, 1⟩ := by
  obtain ⟨same, -⟩ :=
    build_interleaved {} .empty ⟨[.declare [⟨⟨3⟩, 0⟩], .fact atomFact, .goal atomFact.term]⟩
  obtain ⟨fails, unknown⟩ := build_interleaved {} .empty ⟨[.fact atomFact, .rule strayRule]⟩
  refine ⟨?_, ?_, ?_⟩
  · obtain ⟨error, failed, -⟩ | both :=
      same ⟨[.goal atomFact.term, .declare [⟨⟨3⟩, 0⟩, ⟨⟨3⟩, 0⟩], .fact atomFact,
      .declare []]⟩ rfl rfl rfl (by simp [Source.declarations])
    · cases failed
    · exact both
  · obtain ⟨error, failed, also⟩ | ⟨engine, -, made, -⟩ :=
      fails ⟨[.rule strayRule, .fact atomFact]⟩ rfl rfl rfl fun _ ↦ Iff.rfl
    · rw [also, ← failed, build_strayRule]
    · cases build_strayRule.symm.trans made
  · obtain ⟨-, goal, -, -, -, -, undefined⟩ := unknown strayRule 0 ⟨⟨1⟩, 1⟩ build_strayRule
    exact undefined

end Engine

end HornMachine
