import HornMachine.Fact
import HornMachine.Reading.Term
import HornMachine.Rule

/-!
# Reading clauses

A statement is a fact, a rule `head :- goal, goal`, a goal `?- goal` or a declaration
`:- declare(name/arity, name/arity)`. A bare head that is a fact is read as a fact, any other as a
rule with an empty body. Each statement may end in a period and has variables of its own.
-/

namespace HornMachine

/-- One statement of a rule source. -/
inductive Statement where
  | fact (fact : Fact)
  | rule (rule : Rule)
  | goal (goal : Term)
  | declare (functors : List Functor)
deriving DecidableEq

namespace Reading

open HornMachine.Text

/-- Read a ground fact. -/
def readFact (text : List Char) : Reading Fact := do
  match ← readSingleTerm text with
  | .var _ | .num _ => fail 1 .factNotCallable
  | term =>
    match Fact.ofTerm? term with
    | some fact => pure fact
    | none => fail 1 .factNotGround

/-- Read a rule or a bare head. -/
def readRule (text : List Char) : Reading Rule := do
  newScope
  match splitArrow? (dropPeriod text) with
  | none =>
    let head ← readTerm (dropPeriod text)
    pure { head, body := [] }
  | some (before, after) =>
    let head ← readTerm before
    if (pieces after).isEmpty then fail (byteLength before + 3) .emptyBody
    let body ← (pieces after).mapM readTerm
    pure { head, body }

/-- The text before and after the last occurrence of a character. -/
def splitLast? (mark : Char) : List Char → Option (List Char × List Char)
  | [] => none
  | c :: rest =>
    match splitLast? mark rest with
    | some (before, after) => some (c :: before, after)
    | none => if c = mark then some ([], rest) else none

/-- Read a predicate given as `name/arity`. -/
def readIndicator (text : List Char) : Reading Functor :=
  match splitLast? '/' text with
  | none => fail 1 (.missingArity (String.ofList text))
  | some (before, after) =>
    let name := trim before
    if !isAtomName name then fail 1 (.badPredicate (String.ofList name))
    else match readNat? Functor.maxArity (trim after) with
      | none => fail 1 (.badArity (String.ofList text))
      | some arity => do
        let symbol ← intern (String.ofList name)
        pure ⟨symbol, arity⟩

/-- The text after `start`, if the text starts with it. -/
def afterStart? (start text : List Char) : Option (List Char) :=
  if start.isPrefixOf text then some (text.drop start.length) else none

/-- The predicates listed between the parentheses of a declaration. -/
def declared? (text : List Char) : Option (List Char) := do
  let rest ← afterStart? "declare(".toList text
  if rest.getLast? = some ')' then some rest.dropLast else none

/-- Read what follows the arrow of a directive. -/
def readDirective (text : List Char) : Reading Statement :=
  match declared? (trim text) with
  | none => fail 1 (.unsupportedDirective (String.ofList (trim text)))
  | some inside => do
    let functors ← (pieces inside).mapM readIndicator
    pure (.declare functors)

/-- Read one statement. -/
def readStatement (text : List Char) : Reading Statement :=
  match afterStart? "?-".toList (trim text) with
  | some goal => Statement.goal <$> readSingleTerm goal
  | none =>
    match afterStart? ":-".toList (trim text) with
    | some directive => readDirective (dropPeriod directive)
    | none => do
      let rule ← readRule (trim text)
      match rule.body, Fact.ofTerm? rule.head with
      | [], some fact => pure (.fact fact)
      | _, _ => pure (.rule rule)

end Reading
end HornMachine
