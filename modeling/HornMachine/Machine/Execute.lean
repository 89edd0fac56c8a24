import HornMachine.Heap.Load
import HornMachine.Machine.State

/-!
# Running instructions

Each instruction reads and writes registers, slots and the memory. It succeeds, fails, which sends
the machine back to its newest choice point, or ends in a fault. A call of a predicate pushes a
choice point and takes its first answer: the stored facts that unify with the arguments, in the
order they were asserted, and then the clauses in the order they were added.
-/

namespace HornMachine

/-- A computation on a machine. A fault keeps the state it found. -/
abbrev Exec := EStateM Fault Machine

namespace Exec

/-- A result that may be a fault. -/
def lift {α : Type} : Except Fault α → Exec α
  | .ok value => pure value
  | .error fault => throw fault

/-! ### Registers and slots -/

/-- The address in a register. -/
def register (index : Nat) : Exec Address := do
  let machine ← get
  match machine.registers[index]? with
  | none => throw (.badRegister index machine.registers.size)
  | some none => throw (.emptyRegister index)
  | some (some address) => pure address

/-- Put an address in a register. -/
def setRegister (index : Nat) (address : Address) : Exec Unit := do
  let machine ← get
  if index < machine.registers.size then
    set { machine with registers := machine.registers.setIfInBounds index (some address) }
  else throw (.badRegister index machine.registers.size)

/-- The current frame and its number. -/
def frame : Exec (Nat × Frame) := do
  let machine ← get
  match machine.environment with
  | none => throw .noFrame
  | some index =>
    match machine.frames[index]? with
    | none => throw .noFrame
    | some frame => pure (index, frame)

/-- The address in a place. -/
def load : Place → Exec Address
  | .register index => register index
  | .slot index => do
    let (_, current) ← frame
    match current.slots[index]? with
    | none => throw (.badSlot index current.slots.size)
    | some none => throw (.emptySlot index)
    | some (some address) => pure address

/-- Put an address in a place. -/
def store (place : Place) (address : Address) : Exec Unit := do
  match place with
  | .register index => setRegister index address
  | .slot index =>
    let (number, current) ← frame
    if index < current.slots.size then
      modify fun machine ↦
        { machine with
          frames := machine.frames.modify number (·.setSlot index address) }
    else throw (.badSlot index current.slots.size)

/-! ### Memory -/

/-- Change the memory by an operation that may be a fault. -/
def onMemory {α : Type} (operation : Memory → Except Fault α × Memory) : Exec α := do
  let machine ← get
  let (result, memory) := operation machine.memory
  set { machine with memory }
  lift result

/-- Change the heap and return its former size, the address of the first cell added. -/
def extend (operation : Heap → Heap) : Exec Address := do
  let machine ← get
  let address := machine.memory.heap.size
  set { machine with memory := { machine.memory with heap := operation machine.memory.heap } }
  pure address

/-- Add a cell. -/
def push (cell : Cell) : Exec Address := extend (·.push cell)

/-- Add an unbound variable. -/
def pushVar : Exec Address := extend Heap.pushVar

/-- Begin a structure. -/
def pushStructure (functor : Functor) : Exec Address := extend (·.pushStructure functor)

/-- What an address stands for. -/
def value (address : Address) : Exec (Address × Value) := do
  lift ((← get).memory.heap.value address)

/-- Bind a variable. -/
def bind (address target : Address) : Exec Unit := do
  let machine ← get
  if address < machine.memory.heap.size then
    set { machine with memory := machine.memory.assign address target }
  else throw (.badAddress address)

/-- Unify two addresses. -/
def unify (check : OccursCheck) (left right : Address) : Exec Bool :=
  onMemory fun memory ↦ memory.unify check left right

/-- Match an address with a constant. -/
def matchConstant (address : Address) (constant : Constant) : Exec Bool := do
  match ← value address with
  | (found, .unbound) =>
    let target ← push constant.cell
    bind found target
    pure true
  | (_, .atom symbol) => pure (constant = .atom symbol)
  | (_, .num number) => pure (constant = .num number)
  | (_, .compound _ _) => pure false

/-! ### Choice points -/

/-- Go back to the state in which the newest choice point was pushed. -/
def restore : Exec Unit := do
  let machine ← get
  match machine.choices with
  | [] => pure ()
  | choice :: _ =>
    let length := machine.memory.trail.size
    if choice.trailSize > length then throw (.trailUnderflow choice.trailSize length)
    set { machine with
      memory := (machine.memory.unbindLast (length - choice.trailSize)).truncate choice.heapSize
      frames := machine.frames.shrink choice.frameCount
      registers := choice.arguments.toList.zipIdx.foldl
        (fun registers (address, index) ↦ registers.setIfInBounds index address) machine.registers
      environment := choice.environment
      continuation := choice.continuation }

/-- Replace the answers left to the newest choice point. -/
def setAlternative (alternative : Alternative) : Exec Unit :=
  modify fun machine ↦
    match machine.choices with
    | [] => machine
    | choice :: rest => { machine with choices := { choice with alternative } :: rest }

/-- Drop the newest choice point. -/
def dropChoice : Exec Unit := modify fun machine ↦ { machine with choices := machine.choices.tail }

/-- Go on at an instruction of a rule. -/
def jump (rule : RuleId) (offset : Nat) : Exec Unit :=
  modify fun machine ↦ { machine with rule := some rule, counter := offset }

/-- Go on after the call of a choice point. -/
def continueAfter : Continuation → Exec Unit
  | .halt => pure ()
  | .goTo rule offset => jump rule offset

/-- Unify argument registers from `index` on with the arguments of a structure. -/
def unifyArguments (check : OccursCheck) (header : Address) : List Nat → Exec Bool
  | [] => pure true
  | index :: indices => do
    let address ← register index
    if ← unify check address (Heap.argument header index) then
      unifyArguments check header indices
    else pure false

/-- Unify the argument registers with a stored fact. -/
def unifyFact (check : OccursCheck) (goal : Functor) (fact : Fact) : Exec Bool := do
  if goal.arity = 0 then pure true
  else do
    let address ← onMemory fun memory ↦
      let (result, heap) := memory.heap.loadAlone fact.term
      (result, { memory with heap })
    match ← value address with
    | (_, .compound functor header) =>
      if functor = goal then unifyArguments check header (List.range goal.arity) else pure false
    | _ => pure false

/-- Take the clause of the newest choice point at a position. The choice point is dropped with its
last clause. -/
def takeClause (context : Context) (choice : Choice) (position : Nat) : Exec Bool := do
  let clauses := context.program.clauses choice.goal
  match clauses[position]? with
  | none =>
    dropChoice
    pure false
  | some rule =>
    if position + 1 = clauses.size then dropChoice
    else setAlternative (.clauses (position + 1))
    jump rule 0
    pure true

/-- Take the next fact of the newest choice point that unifies, or its first clause after `count`
facts that do not. -/
def takeFact (context : Context) (choice : Choice) (query : Query) : Nat → Exec Bool
  | 0 => do
    setAlternative (.clauses 0)
    takeClause context choice 0
  | count + 1 =>
    match context.store.next query with
    | (none, _) => do
      setAlternative (.clauses 0)
      takeClause context choice 0
    | (some fact, query) => do
      setAlternative (.facts query)
      if ← unifyFact context.occursCheck choice.goal fact then
        continueAfter choice.continuation
        pure true
      else do
        restore
        takeFact context choice query count

/-- Take the next answer of the newest choice point. Without one the choice point is dropped. -/
def resume (context : Context) : Exec Bool := do
  restore
  match (← get).choices with
  | [] => pure false
  | choice :: _ =>
    match choice.alternative with
    | .facts query =>
      takeFact context choice query (context.store.factsOf choice.goal).size
    | .clauses position => takeClause context choice position

/-! ### Calls and solutions -/

/-- The term at an address; a cyclic one is taken for a variable. -/
def patternArg (index : Nat) (argument : Option Address) : Exec Term := do
  match argument with
  | none => throw (.emptyRegister index)
  | some address =>
    match (← get).memory.heap.extract address with
    | .ok term => pure term
    | .error .cyclicTerm => pure (.var address)
    | .error fault => throw fault

/-- The goal called, as a pattern for facts. -/
def pattern (goal : Functor) (arguments : Array (Option Address)) : Exec Term := do
  let args ← arguments.toList.zipIdx.mapM fun (argument, index) ↦ patternArg index argument
  pure (Term.apply goal.symbol args)

/-- Call a predicate: push a choice point and take its first answer. -/
def callPredicate (context : Context) (goal : Functor) : Exec Bool := do
  let machine ← get
  match machine.rule with
  | none => throw (.badProgramCounter machine.counter)
  | some rule =>
    if goal.arity > machine.registers.size then
      throw (.badRegister goal.arity machine.registers.size)
    let arguments := machine.registers.extract 0 goal.arity
    let goalPattern ← pattern goal arguments
    modify fun machine ↦
      { machine with
        choices :=
          { goal, arguments
            alternative := .facts { pattern := goalPattern }
            environment := machine.environment
            continuation := .goTo rule machine.counter
            trailSize := machine.memory.trail.size
            heapSize := machine.memory.heap.size
            frameCount := machine.frames.size } :: machine.choices
        stats := { machine.stats with choicePoints := machine.stats.choicePoints + 1 } }
    resume context

/-- Call a builtin or a predicate. -/
def call (context : Context) (target : Target) : Exec Bool := do
  modify fun machine ↦
    { machine with stats := { machine.stats with calls := machine.stats.calls + 1 } }
  match target with
  | .builtin builtin arity =>
    let args ← (List.range arity).mapM register
    onMemory fun memory ↦ builtin.run context.occursCheck memory args
  | .predicate goal => callPredicate context goal

/-- Read addresses as terms, with common names for their variables. -/
def readTerms (heap : Heap) : List Address → VarNames → Except Fault (List Term × VarNames)
  | [], names => .ok ([], names)
  | address :: addresses, names => do
    let (result, names) := heap.extractNamed address names
    let term ← result
    let (terms, names) ← readTerms heap addresses names
    .ok (term :: terms, names)

/-- Read the slots of variables as their bindings. Empty slots and cyclic terms are left out. -/
def readBindings (heap : Heap) (answer : Array (Option Address)) :
    List (Var × Nat) → VarNames → Bindings → Except Fault Bindings
  | [], _, bindings => .ok bindings
  | (v, slot) :: slots, names, bindings =>
    match answer[slot]? with
    | some (some address) =>
      match heap.extractNamed address names with
      | (.ok term, names) => readBindings heap answer slots names (bindings.bind v term)
      | (.error .cyclicTerm, names) => readBindings heap answer slots names bindings
      | (.error fault, _) => .error fault
    | _ => readBindings heap answer slots names bindings

/-- Read the solution of the attempted rule. Variables left unbound are named apart from the rule's
own. -/
def capture (compiled : CompiledRule) : Exec Solution := do
  let machine ← get
  set { machine with answer := none }
  match machine.entry with
  | none => throw .noFrame
  | some entry =>
    let heap := machine.memory.heap
    let names := VarNames.reserving (compiled.slots.map Prod.fst)
    let (args, names) ← lift (readTerms heap entry.arguments names)
    let bindings ← lift (readBindings heap (machine.answer.getD #[]) compiled.slots names .empty)
    pure { rule := entry.rule, head := Term.apply entry.head.symbol args, bindings }

/-- Leave a rule: go on after its call, or hand out a solution. -/
def proceed (compiled : CompiledRule) : Exec Unit := do
  match (← get).continuation with
  | .goTo rule offset => jump rule offset
  | .halt =>
    let solution ← capture compiled
    modify fun machine ↦
      { machine with
        pending := some solution
        status := .succeeded
        stats := { machine.stats with solutions := machine.stats.solutions + 1 } }

/-! ### Instructions -/

/-- Match a register with a structure, or bind it to a new one. -/
def getStructure (functor : Functor) (arg : Nat) : Exec Bool := do
  let address ← register arg
  match ← value address with
  | (found, .unbound) =>
    let target ← pushStructure functor
    bind found target
    modify ({ · with mode := .write })
    pure true
  | (_, .compound other header) =>
    if other = functor then
      modify ({ · with mode := .read (Heap.argument header 0) })
      pure true
    else pure false
  | _ => pure false

/-- Run an instruction of a rule; false sends the machine back to a choice point. -/
def execute (context : Context) (compiled : CompiledRule) : Instruction → Exec Bool
  | .allocate size => do
    modify fun machine ↦
      let number := machine.frames.size
      { machine with
        frames := machine.frames.push
          { slots := Array.replicate size none
            continuation := machine.continuation
            previous := machine.environment }
        environment := some number }
    pure true
  | .deallocate => do
    let (_, current) ← frame
    modify fun machine ↦
      { machine with
        answer := if current.continuation = .halt then some current.slots else machine.answer
        continuation := current.continuation
        environment := current.previous }
    pure true
  | .getVariable place arg => do
    let address ← register arg
    store place address
    pure true
  | .getValue place arg => do
    let left ← load place
    let right ← register arg
    unify context.occursCheck left right
  | .getConstant constant arg => do
    let address ← register arg
    matchConstant address constant
  | .getStructure functor arg => getStructure functor arg
  | .unifyVariable place => do
    match (← get).mode with
    | .read next =>
      store place next
      modify ({ · with mode := .read (next + 1) })
    | .write =>
      let address ← pushVar
      store place address
    pure true
  | .unifyValue place => do
    let address ← load place
    match (← get).mode with
    | .read next =>
      modify ({ · with mode := .read (next + 1) })
      unify context.occursCheck address next
    | .write =>
      let _ ← push (.ref address)
      pure true
  | .unifyConstant constant => do
    match (← get).mode with
    | .read next =>
      modify ({ · with mode := .read (next + 1) })
      matchConstant next constant
    | .write =>
      let _ ← push constant.cell
      pure true
  | .putVariable place arg => do
    let address ← pushVar
    store place address
    setRegister arg address
    pure true
  | .putValue place arg => do
    let address ← load place
    setRegister arg address
    pure true
  | .putConstant constant arg => do
    let address ← push constant.cell
    setRegister arg address
    pure true
  | .putStructure functor index => do
    let address ← pushStructure functor
    setRegister index address
    modify ({ · with mode := .write })
    pure true
  | .setVariable place => do
    let address ← pushVar
    store place address
    pure true
  | .setValue place => do
    let address ← load place
    let _ ← push (.ref address)
    pure true
  | .setConstant constant => do
    let _ ← push constant.cell
    pure true
  | .call target => call context target
  | .proceed => do
    proceed compiled
    pure true
  | .fail => pure false

end Exec
end HornMachine
