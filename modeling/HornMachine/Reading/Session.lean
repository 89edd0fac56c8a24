import HornMachine.Symbol
import HornMachine.Term.Basic

/-!
# Reading sessions

Reading text registers names in a symbol table and numbers the variables of each statement. Both
are the state of a reading; an error keeps the state reached, so names met before the error stay
registered.
-/

namespace HornMachine

/-- What can be wrong with source text. -/
inductive ParseIssue where
  | emptyTerm
  | unterminated
  | trailing (term : String)
  /-- The text before an argument list is no atom name. -/
  | badFunctor (name : String)
  | tooManyArguments (name : String)
  | unsupportedToken (word : String)
  | emptyBody
  | factNotCallable
  | factNotGround
  | unsupportedDirective (text : String)
  | missingArity (text : String)
  | badPredicate (name : String)
  | badArity (text : String)
  | missingPeriod
  | declarationSuggested
deriving DecidableEq

/-- The wording of each issue. -/
def ParseIssue.message : ParseIssue → String
  | emptyTerm => "empty term"
  | unterminated => "unterminated term"
  | trailing term => "unexpected text after `" ++ term ++ "`"
  | badFunctor name => "invalid functor name `" ++ name ++ "`"
  | tooManyArguments name => "too many arguments for `" ++ name ++ "`"
  | unsupportedToken word => "unsupported token `" ++ word ++ "`"
  | emptyBody => "rule body is empty"
  | factNotCallable => "a fact must be an atom or structure"
  | factNotGround => "a fact must be ground"
  | unsupportedDirective text => "unsupported directive `" ++ text ++ "`"
  | missingArity text => "expected name/arity, found `" ++ text ++ "`"
  | badPredicate name => "invalid predicate name `" ++ name ++ "`"
  | badArity text => "invalid arity in `" ++ text ++ "`"
  | missingPeriod => "statement is missing its terminating `.`"
  | declarationSuggested => "declarations are not accepted as suggestions"

/-- An issue with its place; lines and columns count from one, columns in bytes. -/
structure ParseError where
  line : Nat
  column : Nat
  issue : ParseIssue
deriving DecidableEq

/-- The full message, with the place in front. -/
def ParseError.message (error : ParseError) : String :=
  "parse error at line " ++ toString error.line ++ ", column " ++ toString error.column ++ ": " ++
    error.issue.message

/-- Numbers given to the variable names of one statement. -/
structure Scope where
  names : Std.HashMap String Var := ∅
  next : Var := 0

/-- State of a reading. -/
structure Session where
  symbols : SymbolTable
  scope : Scope := {}

/-- A computation that reads text, registering names as it goes. -/
abbrev Reading := EStateM ParseError Session

namespace Reading

/-- Run a reading on a symbol table; the table is returned whether or not the reading succeeds. -/
def run {α : Type} (reading : Reading α) (symbols : SymbolTable) :
    Except ParseError α × SymbolTable :=
  match EStateM.run reading { symbols } with
  | .ok value session => (.ok value, session.symbols)
  | .error error session => (.error error, session.symbols)

/-- Report an issue on the first line. -/
def fail {α : Type} (column : Nat) (issue : ParseIssue) : Reading α :=
  throw ⟨1, column, issue⟩

/-- Report errors of a reading as errors on `line`. -/
def onLine {α : Type} (line : Nat) (reading : Reading α) : Reading α :=
  EStateM.adaptExcept (fun error ↦ { error with line }) reading

/-- Register a name. -/
def intern (name : String) : Reading Symbol := fun session ↦
  match session.symbols.intern name with
  | (symbol, symbols) => .ok symbol { session with symbols }

/-- Forget the variable names met so far. -/
def newScope : Reading Unit := modify fun session ↦ { session with scope := {} }

/-- A variable that no name refers to. -/
def freshVar : Reading Var := fun session ↦
  let v := session.scope.next
  .ok v { session with scope := { session.scope with next := v + 1 } }

/-- The variable of a name: the same for equal names of a statement, a fresh one for each `_`. -/
def namedVar (name : String) : Reading Var := fun session ↦
  match if name = "_" then none else session.scope.names[name]? with
  | some v => .ok v session
  | none =>
    let v := session.scope.next
    let names := if name = "_" then session.scope.names else session.scope.names.insert name v
    .ok v { session with scope := { names, next := v + 1 } }

end Reading
end HornMachine
