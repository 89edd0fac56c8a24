import HornMachine.Reading.Clause

/-!
# Proposals

An engine can be given rules and goals from outside while it runs. A proposal is one of them or a
text for one; a script holds batches of proposals, handed out one batch at a time.
-/

namespace HornMachine

/-- What an engine acts on. -/
inductive Suggestion where
  | rule (rule : Rule)
  | goal (goal : Term)
deriving DecidableEq

/-- A suggestion, or a text still to be read. -/
inductive Proposal where
  | text (text : String)
  | suggestion (suggestion : Suggestion)
deriving DecidableEq

namespace Proposal

/-- The suggestion a proposal makes. Texts of facts and goals suggest goals, texts of rules suggest
rules, and declarations are refused. -/
def read : Proposal → Reading Suggestion
  | .suggestion made => pure made
  | .text source => do
    match ← Reading.readStatement source.toList with
    | .rule rule => pure (.rule rule)
    | .goal goal => pure (.goal goal)
    | .fact fact => pure (.goal fact.term)
    | .declare _ => Reading.fail 1 .declarationSuggested

end Proposal

/-- Batches of proposals still to be handed out. -/
structure Script where
  batches : List (List Proposal)

namespace Script

/-- The next batch, empty once all were handed out, and the script after it. -/
def next (script : Script) : List Proposal × Script :=
  match script.batches with
  | [] => ([], script)
  | batch :: batches => (batch, ⟨batches⟩)

/-- Number of batches left. -/
def remaining (script : Script) : Nat := script.batches.length

end Script
end HornMachine
