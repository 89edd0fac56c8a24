import HornMachine.Code.Emit

/-!
# Compiling rules

A rule compiles when its head and goals are atoms or structures, no structure is too wide, every
goal calls something known, and it needs no more slots and registers than there are. A goal `false`
fails, and nothing after it is compiled.
-/

namespace HornMachine

/-- Why a rule does not compile. -/
inductive CompileIssue where
  | invalidHead
  | invalidGoal (index : Nat) (goal : Term)
  | unknownPredicate (index : Nat) (functor : Functor)
  | registerOverflow (needed available : Nat)
  | arityOverflow (term : Term)
deriving DecidableEq

/-- A rule that does not compile, with the reason. -/
structure CompileError where
  rule : Rule
  issue : CompileIssue
deriving DecidableEq

/-- Messages name a rule by its label, or else by its head. -/
def Rule.name (rule : Rule) (symbols : SymbolTable) : String :=
  rule.label.getD (rule.head.text symbols)

/-- The full message, with the rule in front. -/
def CompileError.message (error : CompileError) (symbols : SymbolTable) : String :=
  error.rule.name symbols ++ ": " ++
    match error.issue with
    | .invalidHead => "head `" ++ error.rule.head.text symbols ++ "` is not an atom or structure"
    | .invalidGoal index goal =>
      "body goal " ++ toString index ++ " `" ++ goal.text symbols ++ "` is not an atom or structure"
    | .unknownPredicate index functor =>
      "body goal " ++ toString index ++ " calls unknown predicate " ++ functor.text symbols
    | .registerOverflow needed available =>
      "needs " ++ toString needed ++ " registers, machine has " ++ toString available
    | .arityOverflow term => "structure `" ++ term.text symbols ++ "` has more than 255 arguments"

/-- What goals of a rule can call. -/
structure Signatures where
  symbols : SymbolTable
  target? : Functor → Option Target

/-- A rule with its code. -/
structure CompiledRule where
  rule : Rule
  head : Functor
  code : Array Instruction
  slots : List (Var × Nat)
  registers : Nat

/-- Number of slots of the rule's frame. -/
def CompiledRule.frameSize (compiled : CompiledRule) : Nat := compiled.slots.length

namespace Term

mutual

/-- The first structure in a term that is too wide, an outer one before those inside it. -/
def tooWide? : Term → Option Term
  | .struct symbol args =>
    if args.length > Functor.maxArity then some (.struct symbol args) else firstTooWide? args
  | .atom _ | .var _ | .num _ => none

/-- The first structure in a list of terms that is too wide. -/
def firstTooWide? : List Term → Option Term
  | [] => none
  | term :: terms =>
    match tooWide? term with
    | some wide => some wide
    | none => firstTooWide? terms

end

end Term

namespace Rule

/-- A body goal as it is compiled. -/
inductive Goal where
  | fail
  | call (args : List Term) (target : Target)

/-- Report a structure that is too wide. -/
def checkWidth (term : Term) : Except CompileIssue Unit :=
  match term.tooWide? with
  | some wide => .error (.arityOverflow wide)
  | none => .ok ()

/-- Whether a goal is the atom `false`. -/
def isFalse (symbols : SymbolTable) : Term → Bool
  | .atom symbol => symbols.name? symbol = some "false"
  | _ => false

/-- Find what a body goal calls. The functor of the rule's own head is always callable, and is a
predicate even if a builtin has its name. -/
def resolveGoal (signatures : Signatures) (head : Functor) (index : Nat) (goal : Term) :
    Except CompileIssue Goal :=
  match goal.functor? with
  | none => .error (.invalidGoal index goal)
  | some functor => do
    checkWidth goal
    if isFalse signatures.symbols goal then .ok .fail
    else if functor = head then .ok (.call goal.args (.predicate head))
    else match signatures.target? functor with
      | some target => .ok (.call goal.args target)
      | none => .error (.unknownPredicate index functor)

/-- Find what the goals from `index` on call. -/
def resolveGoals (signatures : Signatures) (head : Functor) (index : Nat) :
    List Term → Except CompileIssue (List Goal)
  | [] => .ok []
  | goal :: goals => do
    let first ← resolveGoal signatures head index goal
    let rest ← resolveGoals signatures head (index + 1) goals
    .ok (first :: rest)

/-- Code of the goals and of the end of the rule. -/
def bodyCode (slots : Emit.Slots) (base : Nat) : List Goal → Emit Code
  | [] => pure [.deallocate, .proceed]
  | .fail :: _ => pure [.fail]
  | .call args target :: goals => do
    let code ← Emit.goal slots base args target
    let more ← bodyCode slots base goals
    pure (code ++ more)

/-- The largest number of arguments of the head and the goals. -/
def argumentCount (rule : Rule) : Nat :=
  rule.body.foldl (fun count goal ↦ max count goal.arity) rule.head.arity

/-- Code of a rule whose goals are resolved, with the number of registers it uses. -/
def emit (rule : Rule) (slots : List (Var × Nat)) (goals : List Goal) : Code × Nat :=
  let base := rule.argumentCount
  let places := Std.TreeMap.ofList slots
  let emission : Emit Code := do
    let head ← Emit.headArgs places base 0 rule.head.args
    let body ← bodyCode places base goals
    pure (.allocate slots.length :: (head ++ body))
  let (code, state) := emission.run { nextTemp := base, used := base }
  (code, state.used)

/-- Compile a rule for a bank of `registers` registers, or give the reason it does not compile. -/
def tryCompile (rule : Rule) (signatures : Signatures) (registers : Nat) :
    Except CompileIssue CompiledRule := do
  checkWidth rule.head
  match rule.head.functor? with
  | none => .error .invalidHead
  | some head =>
    let goals ← resolveGoals signatures head 0 rule.body
    let slots := rule.vars.zipIdx
    if slots.length > Emit.maxRegister then
      .error (.registerOverflow slots.length Emit.maxRegister)
    else
      let (code, used) := rule.emit slots goals
      if used > registers then .error (.registerOverflow used registers)
      else .ok { rule, head, code := code.toArray, slots, registers := used }

/-- Compile a rule for a bank of `registers` registers. -/
def compile (rule : Rule) (signatures : Signatures) (registers : Nat) :
    Except CompileError CompiledRule :=
  match rule.tryCompile signatures registers with
  | .ok compiled => .ok compiled
  | .error issue => .error ⟨rule, issue⟩

end Rule
end HornMachine
