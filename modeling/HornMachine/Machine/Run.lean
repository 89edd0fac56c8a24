import HornMachine.Machine.Execute

/-!
# Attempts

An attempt of a rule starts with the arguments of a goal, or with fresh variables, in the registers.
It runs until its rule is left, which is a solution, and can then go back for the next one. Each
instruction counts against the step limit, so every run ends.
-/

namespace HornMachine.Machine

/-- A computation of an attempt. An error keeps the state it found. -/
abbrev Run := EStateM AttemptError Machine

/-- Run part of an attempt; a fault is reported where the machine stands then. -/
def Run.ofExec {α : Type} (exec : Exec α) : Run α := fun machine ↦
  match exec machine with
  | .ok value machine => .ok value machine
  | .error fault machine => .error (machine.faultHere fault) machine

/-! ### Starting -/

/-- Load terms that share variables and return their addresses. -/
def loadAll (memory : Memory) : List Term → Std.HashMap Var Address →
    Except Fault (List Address) × Memory
  | [], _ => (.ok [], memory)
  | term :: terms, vars =>
    match memory.heap.load term vars with
    | (.error fault, state) => (.error fault, { memory with heap := state.heap })
    | (.ok address, state) =>
      let (rest, memory) := loadAll { memory with heap := state.heap } terms state.vars
      (rest.map (address :: ·), memory)

/-- Put addresses in the registers from `index` on. -/
def setArguments (index : Nat) : List Address → Exec Unit
  | [] => pure ()
  | address :: addresses => do
    Exec.setRegister index address
    setArguments (index + 1) addresses

/-- Add the arguments of the head: those of the goal, or new variables. -/
def enterArguments (arity : Nat) : Option Term → Exec (List Address)
  | some goal => Exec.onMemory fun memory ↦ loadAll memory goal.args ∅
  | none => (List.range arity).mapM fun _ ↦ Exec.pushVar

/-- Whether a goal can match the head of a rule at all. -/
def fitsHead (head : Functor) (goal : Term) : Bool :=
  goal.args.length = head.arity && goal.functor? = some head && goal.fits

/-- Start an attempt of a rule after the machine was reset. A goal of another functor has no
solutions. -/
def enter (rule : RuleId) (head : Functor) (goal : Option Term) : Run Unit := do
  modify ({ · with rule := some rule })
  let machine ← get
  if head.arity > machine.registers.size then
    throw (machine.faultHere (.badRegister head.arity machine.registers.size))
  if goal.all (fitsHead head) then
    let arguments ← Run.ofExec (enterArguments head.arity goal)
    Run.ofExec (setArguments 0 arguments)
    modify ({ · with entry := some { rule, head, arguments }, status := .running })
  else modify ({ · with status := .failed })

/-- Start an attempt of a rule, with or without a goal. A rule that is not in the program leaves the
machine as it is. -/
def start (context : Context) (rule : RuleId) (goal : Option Term) : Run Unit := do
  match context.program.rule? rule with
  | none => throw (.unknownRule rule)
  | some compiled =>
    modify reset
    enter rule compiled.head goal

/-! ### Running -/

/-- Run one instruction. -/
def step (context : Context) : Run Unit := do
  if context.cancelled then throw .cancelled
  if (← get).steps ≥ context.stepLimit then throw (.stepLimit context.stepLimit)
  modify fun machine ↦
    { machine with
      steps := machine.steps + 1
      stats := { machine.stats with instructions := machine.stats.instructions + 1 } }
  let machine ← get
  match machine.rule with
  | none => throw (machine.faultHere (.badProgramCounter machine.counter))
  | some rule =>
    match context.program.rule? rule with
    | none => throw (.unknownRule rule)
    | some compiled =>
      match compiled.code[machine.counter]? with
      | none => throw (machine.faultHere (.badProgramCounter machine.counter))
      | some instruction =>
        modify fun machine ↦
          { machine with offset := machine.counter, counter := machine.counter + 1 }
        if !(← Run.ofExec (Exec.execute context compiled instruction)) then
          modify ({ · with status := .backtracking })

/-- Go back to the newest of the given choice points with an answer left. Each one without is
dropped on the way. -/
def backtrackOver (context : Context) : List Choice → Run Unit
  | [] => modify ({ · with status := .failed })
  | _ :: older => do
    modify fun machine ↦
      { machine with
        stats := { machine.stats with backtracks := machine.stats.backtracks + 1 } }
    if ← Run.ofExec (Exec.resume context) then modify ({ · with status := .running })
    else backtrackOver context older

/-- Go back to the newest choice point with an answer left. The attempt has failed if there is
none. -/
def backtrack (context : Context) : Run Unit := do
  backtrackOver context (← get).choices

/-- Run until the next solution or failure, in at most `turns` instructions and returns to choice
points. -/
def runWithin (context : Context) : Nat → Run (Option Solution)
  | 0 => throw (.stepLimit context.stepLimit)
  | turns + 1 => do
    match (← get).status with
    | .running =>
      step context
      runWithin context turns
    | .backtracking =>
      backtrack context
      runWithin context turns
    | .succeeded =>
      let machine ← get
      set { machine with pending := none }
      pure machine.pending
    | .failed | .idle => pure none

/-- A number of turns no run exceeds: each instruction counts against the step limit, and between
two returns to a choice point there is an instruction. -/
def turnBound (context : Context) (machine : Machine) : Nat :=
  2 * (context.stepLimit - machine.steps) + 3

/-- The next solution of the attempt, if there is one. An attempt that was broken off has no more
solutions. -/
def nextSolution (context : Context) : Run (Option Solution) := fun machine ↦
  let machine :=
    if machine.status = .succeeded then { machine with status := .backtracking } else machine
  match runWithin context (machine.turnBound context) machine with
  | .ok solution machine => .ok solution machine
  | .error error machine => .error error { machine with status := .failed }

/-- Up to `count` further solutions after those `found`, the latest of which is first, or those
until there are no more. -/
def solutionsWithin (context : Context) : Nat → List Solution → Run (List Solution)
  | 0, found => pure found.reverse
  | count + 1, found => do
    match ← nextSolution context with
    | none => pure found.reverse
    | some solution => solutionsWithin context count (solution :: found)

/-- A number of solutions no attempt exceeds: each takes an instruction. -/
def solutionBound (context : Context) (machine : Machine) : Nat :=
  context.stepLimit - machine.steps + 1

/-- All further solutions of the attempt. -/
def solutions (context : Context) : Run (List Solution) := do
  solutionsWithin context (solutionBound context (← get)) []

end HornMachine.Machine
