import HornMachine.Derivation

/-!
# Saturation

A round attempts every rule of the program without a goal. Rounds go on until one adds no fact or
the limit on rounds is reached. A rule whose attempt is broken off is tried again in the next round;
only cancelling stops the whole run.
-/

namespace HornMachine

/-- What a saturation has done. -/
structure Saturation where
  rounds : Nat := 0
  /-- Facts added by attempts that ran to their end, in order. -/
  newFacts : List Fact := []
  fixpoint : Bool := false
  aborted : List RuleId := []
  stats : Statistics := {}
deriving DecidableEq

namespace Saturation

/-- Take the result of one attempt of a round; nothing is left of a round that was cancelled. -/
def take (saturation : Saturation) (attempt : Attempt) :
    Except AttemptError Derivation → Except AttemptError Saturation
  | .ok derivation =>
    .ok { saturation with newFacts := saturation.newFacts ++ derivation.newFacts }
  | .error .cancelled => .error .cancelled
  | .error _ => .ok { saturation with aborted := saturation.aborted ++ [attempt.rule] }

end Saturation

namespace Setting

/-- An attempt without a goal for each rule. -/
def ruleAttempts (setting : Setting) : List Attempt :=
  setting.program.ruleIds.map fun rule ↦ { rule }

/-- Run one round. -/
def round (setting : Setting) (saturation : Saturation) (store : FactStore) :
    Except AttemptError Saturation × FactStore :=
  let attempts := setting.ruleAttempts
  let (results, stats, store) := setting.attemptAll store attempts
  let begun :=
    { saturation with rounds := saturation.rounds + 1, stats := saturation.stats + stats }
  let done := (attempts.zip results).foldlM
    (fun (saturation : Saturation) (attempt, result) ↦ saturation.take attempt result) begun
  (done, store)

/-- Run up to `count` further rounds. -/
def saturateWithin (setting : Setting) :
    Nat → Saturation → FactStore → Except AttemptError Saturation × FactStore
  | 0, saturation, store => (.ok saturation, store)
  | count + 1, saturation, store =>
    if setting.cancelled then (.error .cancelled, store)
    else match setting.round saturation store with
      | (.error error, store) => (.error error, store)
      | (.ok next, store) =>
        if next.newFacts.length = saturation.newFacts.length then
          (.ok { next with fixpoint := true }, store)
        else setting.saturateWithin count next store

/-- Run rounds until one adds no fact or the limit on rounds is reached. A program without rules is
at its fixpoint. -/
def saturate (setting : Setting) (store : FactStore) :
    Except AttemptError Saturation × FactStore :=
  if setting.program.size = 0 then (.ok { fixpoint := true }, store)
  else setting.saturateWithin setting.config.maxRounds {} store

end Setting
end HornMachine
