import HornMachine.Config
import HornMachine.Program
import HornMachine.Statistics

/-!
# The state of the machine

A machine runs one attempt of a rule at a time. Frames hold the variables of active rules, a choice
point holds what is needed to go back to a call and try another answer, and the memory holds the
terms. Frames are not removed when a rule is left, since a choice point may still need them; they
are cut off when the machine goes back to a choice point below them.
-/

namespace HornMachine

/-- Where a rule goes on when it is done. -/
inductive Continuation where
  | halt
  | goTo (rule : RuleId) (offset : Nat)
deriving DecidableEq

/-- The variables of an active rule. -/
structure Frame where
  /-- Addresses of the variables; a slot is empty until its variable is met. -/
  slots : Array (Option Address)
  continuation : Continuation
  previous : Option Nat
deriving DecidableEq

/-- Fill a slot. -/
def Frame.setSlot (frame : Frame) (index : Nat) (address : Address) : Frame :=
  { frame with slots := frame.slots.setIfInBounds index (some address) }

/-- The answers to a call not tried yet. -/
inductive Alternative where
  | facts (query : Query)
  | clauses (position : Nat)
deriving DecidableEq

/-- A call with answers left to try, and the state to go back to. -/
structure Choice where
  goal : Functor
  alternative : Alternative
  arguments : Array (Option Address)
  environment : Option Nat
  continuation : Continuation
  trailSize : Nat
  heapSize : Nat
  frameCount : Nat
deriving DecidableEq

/-- Whether structure arguments are matched or added. -/
inductive Mode where
  /-- Matching; the address is that of the next argument. -/
  | read (next : Address)
  | write
deriving DecidableEq

/-- What the machine is doing. -/
inductive Status where
  | idle
  | running
  | succeeded
  | failed
  | backtracking
deriving DecidableEq

/-- The rule an attempt started with and the arguments of its head. -/
structure Entry where
  rule : RuleId
  head : Functor
  arguments : List Address
deriving DecidableEq

/-- An answer of an attempt. -/
structure Solution where
  rule : RuleId
  head : Term
  bindings : Bindings
deriving DecidableEq

/-- The head of a solution as a fact, if it is ground. -/
def Solution.fact? (solution : Solution) : Option Fact := Fact.ofTerm? solution.head

/-- Why an attempt is broken off. -/
inductive AttemptError where
  | fault (fault : MachineFault)
  | unknownRule (rule : RuleId)
  | stepLimit (limit : Nat)
  | cancelled
deriving DecidableEq

/-- The wording of each error. -/
def AttemptError.message : AttemptError → String
  | fault report => report.message
  | unknownRule rule => rule.text ++ " not present in the program"
  | stepLimit limit => "step limit of " ++ toString limit ++ " instructions exceeded"
  | cancelled => "derivation attempt cancelled"

/-- What an attempt runs against. -/
structure Context where
  program : Program
  store : FactStore
  occursCheck : OccursCheck
  /-- Number of instructions after which an attempt stops. -/
  stepLimit : Nat
  /-- Whether the attempt is to stop before its next instruction. -/
  cancelled : Bool := false

/-- The state of a machine. -/
structure Machine where
  registers : Array (Option Address)
  memory : Memory := {}
  frames : Array Frame := #[]
  environment : Option Nat := none
  choices : List Choice := []
  rule : Option RuleId := none
  counter : Nat := 0
  offset : Nat := 0
  continuation : Continuation := .halt
  mode : Mode := .write
  status : Status := .idle
  entry : Option Entry := none
  answer : Option (Array (Option Address)) := none
  pending : Option Solution := none
  steps : Nat := 0
  stats : Statistics := {}

namespace Machine

/-- A machine with a bank of empty registers. -/
def new (registers : Nat) : Machine := { registers := Array.replicate registers none }

/-- The machine without an attempt; its counters go on. -/
def reset (machine : Machine) : Machine :=
  { registers := Array.replicate machine.registers.size none, stats := machine.stats }

/-- A fault at the place the machine is at. -/
def faultHere (machine : Machine) (fault : Fault) : AttemptError :=
  .fault ⟨machine.rule, machine.offset, fault⟩

end Machine
end HornMachine
