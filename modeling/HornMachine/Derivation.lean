import HornMachine.Machine.Run

/-!
# Derivations

An attempt runs a rule to exhaustion on a machine of its own. Each solution whose head is ground is
asserted before the next one is searched for, so facts found early can answer later calls of the
same attempt. An attempt that is broken off leaves the facts it has asserted in the store.
-/

namespace HornMachine

/-- A rule to run, perhaps against a goal. -/
structure Attempt where
  rule : RuleId
  goal : Option Term := none
deriving DecidableEq

/-- What an attempt that ran to its end has found. -/
inductive Derivation where
  | exhausted
  | derived (newFacts : List Fact) (solutions : List Solution)
deriving DecidableEq

namespace Derivation

/-- The facts that were new. -/
def newFacts : Derivation → List Fact
  | .exhausted => []
  | .derived facts _ => facts

/-- The solutions. -/
def solutions : Derivation → List Solution
  | .exhausted => []
  | .derived _ found => found

/-- New facts and solutions as a derivation. -/
def ofParts (facts : List Fact) (found : List Solution) : Derivation :=
  if found.isEmpty then .exhausted else .derived facts found

end Derivation

/-- Rules and settings that attempts share. -/
structure Setting where
  program : Program
  config : Config
  /-- Whether attempts are to stop before their next instruction. -/
  cancelled : Bool := false

namespace Setting

/-- What an attempt runs against, given the facts. -/
def context (setting : Setting) (store : FactStore) : Context where
  program := setting.program
  store
  occursCheck := setting.config.occursCheck
  stepLimit := setting.config.stepLimit
  cancelled := setting.cancelled

/-- Progress of an attempt. -/
structure Progress where
  machine : Machine
  store : FactStore
  newFacts : List Fact := []
  solutions : List Solution := []

/-- Take a solution: assert its head if that is a fact. -/
def Progress.take (progress : Progress) (solution : Solution) : Progress :=
  let progress := { progress with solutions := solution :: progress.solutions }
  match solution.fact? with
  | none => progress
  | some fact =>
    let (isNew, store) := progress.store.assert fact
    { progress with
      store
      newFacts := if isNew then fact :: progress.newFacts else progress.newFacts }

/-- Take solutions until there are no more, or `count` of them. -/
def collectWithin (setting : Setting) : Nat → Progress → Except AttemptError Unit × Progress
  | 0, progress => (.ok (), progress)
  | count + 1, progress =>
    match Machine.nextSolution (setting.context progress.store) progress.machine with
    | .error error machine => (.error error, { progress with machine })
    | .ok none machine => (.ok (), { progress with machine })
    | .ok (some solution) machine =>
      setting.collectWithin count ({ progress with machine }.take solution)

/-- Start an attempt and take all its solutions. -/
def collect (setting : Setting) (store : FactStore) (attempt : Attempt) :
    Except AttemptError Unit × Progress :=
  let context := setting.context store
  match Machine.start context attempt.rule attempt.goal (Machine.new setting.program.registers) with
  | .error error machine => (.error error, { machine, store })
  | .ok () machine =>
    setting.collectWithin (Machine.solutionBound context machine) { machine, store }

/-- What came of an attempt: its derivation or error, what the machine did, and the facts after
it. -/
structure Outcome where
  result : Except AttemptError Derivation
  stats : Statistics
  store : FactStore

/-- Run an attempt to exhaustion. New facts are counted when the attempt ran to its end. -/
def derive (setting : Setting) (store : FactStore) (attempt : Attempt) : Outcome :=
  match setting.collect store attempt with
  | (.error error, progress) =>
    { result := .error error, stats := progress.machine.stats, store := progress.store }
  | (.ok (), progress) =>
    let stats := progress.machine.stats
    { result := .ok (.ofParts progress.newFacts.reverse progress.solutions.reverse)
      stats := { stats with factsAsserted := stats.factsAsserted + progress.newFacts.length }
      store := progress.store }

/-- Run attempts one after another: their results in order, the sum of their counters, and the facts
after all of them. -/
def attemptAll (setting : Setting) (store : FactStore) :
    List Attempt → List (Except AttemptError Derivation) × Statistics × FactStore
  | [] => ([], {}, store)
  | attempt :: attempts =>
    let outcome := setting.derive store attempt
    let (results, stats, store) := setting.attemptAll outcome.store attempts
    (outcome.result :: results, outcome.stats + stats, store)

end Setting
end HornMachine
