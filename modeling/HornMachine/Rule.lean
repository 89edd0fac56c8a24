import HornMachine.Term.Basic

/-!
# Rules

A rule says that its head holds whenever all goals of its body do. With an empty body the head
holds unconditionally.
-/

namespace HornMachine

/-- Rules of a program are numbered in the order they were added. -/
structure RuleId where
  index : Nat
deriving DecidableEq, Repr

/-- A rule is named `rule#` and its number. -/
def RuleId.text (id : RuleId) : String := "rule#" ++ toString id.index

/-- A deduction rule, perhaps with a label for messages. -/
structure Rule where
  head : Term
  body : List Term
  label : Option String := none
deriving DecidableEq

namespace Rule

/-- Variable occurrences, head first and then goal by goal. -/
def occurrences (rule : Rule) : List Var :=
  rule.head.occurrences ++ Term.occurrencesList rule.body

/-- The variables of a rule in the order of first occurrence, head first. -/
def vars (rule : Rule) : List Var := Term.distinct rule.occurrences

/-- Variables of the head that no goal mentions. -/
def headOnlyVars (rule : Rule) : List Var :=
  let inBody := Std.TreeSet.ofList (Term.occurrencesList rule.body)
  rule.head.vars.filter fun v ↦ !inBody.contains v

/-- The goals after the first, each after a comma. -/
def moreGoalsText (symbols : SymbolTable) (goals : List Term) : String :=
  goals.foldr (fun goal rest ↦ ", " ++ goal.text symbols ++ rest) ""

/-- The body with the arrow in front of it; an empty body is not written. -/
def bodyText (symbols : SymbolTable) : List Term → String
  | [] => ""
  | goal :: goals => " :- " ++ goal.text symbols ++ moreGoalsText symbols goals

/-- A rule is written as a clause ended by a period. -/
def text (rule : Rule) (symbols : SymbolTable) : String :=
  rule.head.text symbols ++ bodyText symbols rule.body ++ "."

end Rule
end HornMachine
