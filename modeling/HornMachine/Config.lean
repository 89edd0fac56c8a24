import HornMachine.Bindings.Unify
import HornMachine.Code.Emit

/-!
# Configuration

Settings of an engine with their defaults. The register bank must hold at least one register and no
more than instructions can name.
-/

namespace HornMachine

/-- Settings of an engine. -/
structure Config where
  occursCheck : OccursCheck := .off
  registers : Nat := 256
  /-- Instructions allowed in one attempt; zero for no limit. -/
  maxSteps : Nat := 1000000
  maxRounds : Nat := 32
  parallel : Bool := true
deriving DecidableEq, Repr, Inhabited

/-- Why settings are refused. -/
inductive ConfigIssue where
  | malformed
  | noRegisters
  | tooManyRegisters
deriving DecidableEq

/-- The wording of each issue. -/
def ConfigIssue.message : ConfigIssue → String
  | malformed => "invalid config: the text does not describe settings"
  | noRegisters => "invalid config: registers must be at least 1"
  | tooManyRegisters => "invalid config: registers must not exceed " ++ toString Emit.maxRegister

namespace Config

/-- Accept settings whose register bank can be used. -/
def validate (config : Config) : Except ConfigIssue Config :=
  if config.registers = 0 then .error .noRegisters
  else if config.registers > Emit.maxRegister then .error .tooManyRegisters
  else .ok config

/-- The number of instructions after which an attempt stops. Steps are counted in 64 bits, so an
attempt without a limit stops where the count is full. -/
def stepLimit (config : Config) : Nat :=
  if config.maxSteps = 0 then 0x10000000000000000 else config.maxSteps

end Config
end HornMachine
