import HornMachine.Text.Pad

/-!
# Statistics

Counters of what a machine has done, which add up over attempts.
-/

namespace HornMachine

/-- Counters of one or more attempts. -/
structure Statistics where
  instructions : Nat := 0
  calls : Nat := 0
  choicePoints : Nat := 0
  backtracks : Nat := 0
  solutions : Nat := 0
  factsAsserted : Nat := 0
deriving DecidableEq, Repr, Inhabited

namespace Statistics

/-- Counters add up one by one. -/
instance : Add Statistics where
  add a b :=
    { instructions := a.instructions + b.instructions
      calls := a.calls + b.calls
      choicePoints := a.choicePoints + b.choicePoints
      backtracks := a.backtracks + b.backtracks
      solutions := a.solutions + b.solutions
      factsAsserted := a.factsAsserted + b.factsAsserted }

/-- The counters with their names. -/
def entries (stats : Statistics) : List (String × Nat) :=
  [("  instructions:   ", stats.instructions), ("  calls:          ", stats.calls),
    ("  choice points:  ", stats.choicePoints), ("  backtracks:     ", stats.backtracks),
    ("  solutions:      ", stats.solutions), ("  facts asserted: ", stats.factsAsserted)]

/-- The counters, one on a line, set flush right. -/
def text (stats : Statistics) : String :=
  "\n".intercalate
    (stats.entries.map fun (name, count) ↦ name ++ Text.padStart 10 (toString count))

end Statistics
end HornMachine
