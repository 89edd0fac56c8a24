import HornMachine.Proposal
import HornMachine.Reading.Source
import HornMachine.Saturation

/-!
# Engines

An engine holds names, rules, facts and goals together and sums up what its attempts do. Rules and
facts are added one by one; goals are solved against all clauses of their predicate; saturation
derives all it can; proposals from outside are acted on in order.
-/

namespace HornMachine

/-- Why something asked of an engine was not done. -/
inductive EngineError where
  | compile (error : CompileError)
  | attempt (error : AttemptError)
  | parse (error : ParseError)
  | config (issue : ConfigIssue)
deriving DecidableEq

/-- The wording of each error. -/
def EngineError.message (symbols : SymbolTable) : EngineError → String
  | .compile error => error.message symbols
  | .attempt error => error.message
  | .parse error => error.message
  | .config issue => issue.message

/-- Names, rules, facts, goals and counters. -/
structure Engine where
  config : Config
  symbols : SymbolTable
  program : Program
  store : FactStore
  goals : List Term
  /-- Whether attempts are to stop; stays until it is taken back. -/
  cancelled : Bool
  stats : Statistics

/-- What came of a batch of proposals. -/
structure Consultation where
  rules : List RuleId := []
  derivations : List Derivation := []
  rejected : List String := []
deriving DecidableEq

/-- The facts that the goals added. -/
def Consultation.newFacts (consultation : Consultation) : List Fact :=
  consultation.derivations.flatMap Derivation.newFacts

namespace Engine

/-- An engine without rules and facts. -/
def new (config : Config) (symbols : SymbolTable := .empty) : Engine where
  config
  symbols
  program := .new config.registers
  store := .empty
  goals := []
  cancelled := false
  stats := {}

/-- What attempts of the engine share. -/
def setting (engine : Engine) : Setting where
  program := engine.program
  config := engine.config
  cancelled := engine.cancelled

/-- Read text with the engine's names. -/
def read {α : Type} (engine : Engine) (reading : Reading α) : Except ParseError α × Engine :=
  let (result, symbols) := reading.run engine.symbols
  (result, { engine with symbols })

/-- Let a functor be called though nothing defines it. -/
def declare (engine : Engine) (functor : Functor) : Engine :=
  { engine with
    program := engine.program.declare functor
    store := engine.store.declare functor }

/-- Assert a fact; whether it was new is returned with the engine. -/
def assertFact (engine : Engine) (fact : Fact) : Bool × Engine :=
  let (isNew, store) := engine.store.assert fact
  (isNew, { engine with program := engine.program.declare fact.functor, store })

/-- Compile a rule and add it to the program. -/
def addRule (engine : Engine) (rule : Rule) : Except CompileError (RuleId × Engine) := do
  let (id, program) ← engine.program.addRule engine.symbols rule
  .ok (id, { engine with program })

/-- Add a goal after the others. -/
def addGoal (engine : Engine) (goal : Term) : Engine :=
  { engine with goals := engine.goals ++ [goal] }

/-- Run one attempt. -/
def derive (engine : Engine) (attempt : Attempt) : Except AttemptError Derivation × Engine :=
  let outcome := engine.setting.derive engine.store attempt
  (outcome.result, { engine with store := outcome.store, stats := engine.stats + outcome.stats })

/-- The attempts of a goal, one for each clause of its predicate. -/
def attemptsOf (engine : Engine) (goal : Term) : List Attempt :=
  match goal.functor? with
  | none => []
  | some functor =>
    (engine.program.clauses functor).toList.map fun rule ↦ { rule, goal := some goal }

/-- Join derivations, or give the first error among them. -/
def merge (results : List (Except AttemptError Derivation)) : Except AttemptError Derivation := do
  let derivations ← results.mapM id
  .ok (.ofParts (derivations.flatMap Derivation.newFacts)
    (derivations.flatMap Derivation.solutions))

/-- Attempt a goal against every clause of its predicate. -/
def solve (engine : Engine) (goal : Term) : Except AttemptError Derivation × Engine :=
  let (results, stats, store) := engine.setting.attemptAll engine.store (engine.attemptsOf goal)
  (merge results, { engine with store, stats := engine.stats + stats })

/-- Derive facts until nothing new follows or the limit on rounds is reached. Counters of a
cancelled saturation are dropped. -/
def saturate (engine : Engine) : Except AttemptError Saturation × Engine :=
  match engine.setting.saturate engine.store with
  | (.error error, store) => (.error error, { engine with store })
  | (.ok saturation, store) =>
    (.ok saturation, { engine with store, stats := engine.stats + saturation.stats })

/-- Act on a suggestion: add its rule or solve its goal. -/
def follow (engine : Engine) (consultation : Consultation) :
    Suggestion → Except AttemptError Consultation × Engine
  | .rule rule =>
    match engine.addRule rule with
    | .ok (id, engine) =>
      (.ok { consultation with rules := consultation.rules ++ [id] }, engine)
    | .error error =>
      (.ok { consultation with
        rejected := consultation.rejected ++ [error.message engine.symbols] }, engine)
  | .goal goal =>
    let (result, engine) := engine.solve goal
    (result.map fun derivation ↦
      { consultation with derivations := consultation.derivations ++ [derivation] }, engine)

/-- Act on proposals in order. Those that cannot be read or compiled are left out with a message; a
goal whose attempt is broken off ends the consultation. -/
def act (engine : Engine) (consultation : Consultation) :
    List Proposal → Except AttemptError Consultation × Engine
  | [] => (.ok consultation, engine)
  | proposal :: proposals =>
    match engine.read proposal.read with
    | (.error error, engine) =>
      engine.act { consultation with rejected := consultation.rejected ++ [error.message] }
        proposals
    | (.ok suggestion, engine) =>
      match engine.follow consultation suggestion with
      | (.error error, engine) => (.error error, engine)
      | (.ok consultation, engine) => engine.act consultation proposals

/-- Act on the next batch of a script. -/
def consult (engine : Engine) (script : Script) :
    Except AttemptError Consultation × Engine × Script :=
  let (proposals, script) := script.next
  let (result, engine) := engine.act {} proposals
  (result, engine, script)

end Engine
end HornMachine
