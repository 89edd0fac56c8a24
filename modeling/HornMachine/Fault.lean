import HornMachine.Rule

/-!
# Faults

A fault is a broken rule of the machine, not a failed unification: an address outside the heap, a
register read before it was written, a term that contains itself where a finite one is needed. A
machine fault adds where the fault happened.
-/

namespace HornMachine

/-- What a heap, trail or machine can do wrong. -/
inductive Fault where
  | trailUnderflow (mark length : Nat)
  | badAddress (address : Nat)
  /-- A register that was read before it was written. -/
  | emptyRegister (index : Nat)
  | badRegister (index size : Nat)
  | badSlot (index size : Nat)
  | emptySlot (index : Nat)
  | noFrame
  | noStructure
  | cyclicTerm
  | arityOverflow (arity : Nat)
  | badProgramCounter (offset : Nat)
deriving DecidableEq, Repr

/-- The wording of each fault. -/
def Fault.message : Fault → String
  | trailUnderflow mark length =>
    "trail underflow: mark " ++ toString mark ++ " beyond trail length " ++ toString length
  | badAddress address => "heap address " ++ toString address ++ " out of range"
  | emptyRegister index => "register X" ++ toString index ++ " read before it was written"
  | badRegister index size =>
    "register X" ++ toString index ++ " outside a bank of " ++ toString size
  | badSlot index size =>
    "permanent slot Y" ++ toString index ++ " outside a frame of " ++ toString size
  | emptySlot index => "permanent slot Y" ++ toString index ++ " read before it was written"
  | noFrame => "no active environment frame"
  | noStructure => "structure argument written outside a structure"
  | cyclicTerm => "cyclic term reached while building a fact"
  | arityOverflow arity =>
    "structure with " ++ toString arity ++ " arguments does not fit a functor"
  | badProgramCounter offset =>
    "program counter " ++ toString offset ++ " past the end of the code"

/-- A fault with the rule and the instruction it happened at. -/
structure MachineFault where
  rule : Option RuleId
  offset : Nat
  fault : Fault
deriving DecidableEq

/-- The full message, with the place in front. -/
def MachineFault.message (fault : MachineFault) : String :=
  "machine fault in " ++ (fault.rule.map RuleId.text).getD "query" ++ " at instruction " ++
    toString fault.offset ++ ": " ++ fault.fault.message

end HornMachine
