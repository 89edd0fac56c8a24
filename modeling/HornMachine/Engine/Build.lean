import HornMachine.Engine.Basic

/-!
# Building engines

An engine is built from a source in passes: declarations, facts, the heads of all rules, the rules
and the goals. So a rule can call what is defined only further down, and the order in which
different kinds of statements are mixed does not matter.
-/

namespace HornMachine.Engine

/-- Let the heads of rules be called. -/
def declareHeads (engine : Engine) (rules : List Rule) : Engine :=
  (rules.filterMap fun rule ↦ rule.head.functor?).foldl declare engine

/-- Add rules in order, up to the first that does not compile. -/
def addRules (engine : Engine) : List Rule → Except CompileError Engine
  | [] => .ok engine
  | rule :: rules => do
    let (_, engine) ← engine.addRule rule
    engine.addRules rules

/-- Build an engine from a source read with the given names. -/
def build (config : Config) (symbols : SymbolTable) (source : Source) :
    Except EngineError Engine := do
  let config ← config.validate.mapError .config
  let engine := source.declarations.foldl declare (new config symbols)
  let engine := source.facts.foldl (fun engine fact ↦ (engine.assertFact fact).2) engine
  let engine ← ((engine.declareHeads source.rules).addRules source.rules).mapError .compile
  .ok (source.goals.foldl addGoal engine)

/-- Build an engine from text. The names registered are returned whether or not that works. -/
def ofText (config : Config) (symbols : SymbolTable) (text : String) :
    Except EngineError Engine × SymbolTable :=
  match (Reading.readSource text.toList).run symbols with
  | (.error error, symbols) => (.error (.parse error), symbols)
  | (.ok source, symbols) => (build config symbols source, symbols)

end HornMachine.Engine
