import HornMachine.Code.Instruction
import HornMachine.Rule
import Std.Data.TreeMap

/-!
# Code for heads and goals

A head argument is matched where it stands in its register; the structures inside it are taken out
into temporary registers and matched after it, level by level. A goal argument is built from the
inside out: nested structures first, each in a temporary register, then the structure around them.
The first instruction for a variable gives its slot a value and later ones use it.
-/

namespace HornMachine

mutual

/-- Number of structures in a term, itself included. -/
def Term.structures : Term → Nat
  | .struct _ args => Term.structuresList args + 1
  | .atom _ | .var _ | .num _ => 0

/-- Number of structures in a list of terms. -/
def Term.structuresList : List Term → Nat
  | [] => 0
  | term :: terms => Term.structures term + Term.structuresList terms

end

namespace Emit

/-- The highest register code can name. -/
def maxRegister : Nat := 65535

/-- State of emitting code. -/
structure State where
  seen : Std.TreeSet Var := ∅
  nextTemp : Nat
  used : Nat

end Emit

/-- A computation that emits code. -/
abbrev Emit := StateM Emit.State

namespace Emit

/-- Slots of a rule's variables. -/
abbrev Slots := Std.TreeMap Var Nat

/-- The slot of a variable. -/
def slotOf (slots : Slots) (v : Var) : Place := .slot (slots.getD v 0)

/-- Begin again with temporary registers at `base`. -/
def resetTemps (base : Nat) : Emit Unit := modify fun state ↦ { state with nextTemp := base }

/-- Take a temporary register. -/
def temp : Emit Nat := fun state ↦
  (min state.nextTemp maxRegister,
    { state with nextTemp := state.nextTemp + 1, used := max state.used (state.nextTemp + 1) })

/-- Whether a variable is met for the first time. -/
def first (v : Var) : Emit Bool := fun state ↦
  (!state.seen.contains v, { state with seen := state.seen.insert v })

/-- A structure still to be matched, with the register it is in. -/
structure Pending where
  symbol : Symbol
  args : List Term
  register : Nat

/-- Match the arguments of a structure; structures among them are put in temporary registers and
returned. -/
def matchArgs (slots : Slots) : List Term → Emit (Code × List Pending)
  | [] => pure ([], [])
  | .var v :: args => do
    let isFirst ← first v
    let place := slotOf slots v
    let (code, nested) ← matchArgs slots args
    pure ((if isFirst then .unifyVariable place else .unifyValue place) :: code, nested)
  | .struct symbol inner :: args => do
    let register ← temp
    let (code, nested) ← matchArgs slots args
    pure (.unifyVariable (.register register) :: code, ⟨symbol, inner, register⟩ :: nested)
  | .atom symbol :: args => do
    let (code, nested) ← matchArgs slots args
    pure (.unifyConstant (.atom symbol) :: code, nested)
  | .num value :: args => do
    let (code, nested) ← matchArgs slots args
    pure (.unifyConstant (.num value) :: code, nested)

/-- Match pending structures in order; those found inside them are returned, in the same order. -/
def matchLevel (slots : Slots) : List Pending → Emit (Code × List Pending)
  | [] => pure ([], [])
  | pending :: rest => do
    let (code, nested) ← matchArgs slots pending.args
    let (more, deeper) ← matchLevel slots rest
    let functor := ⟨pending.symbol, pending.args.length⟩
    pure (.getStructure functor pending.register :: (code ++ more), nested ++ deeper)

/-- Match pending structures, then those found inside them, level by level. `count` bounds the
number of levels. -/
def matchLevels (slots : Slots) : Nat → List Pending → Emit Code
  | 0, _ => pure []
  | _, [] => pure []
  | count + 1, level => do
    let (code, next) ← matchLevel slots level
    let more ← matchLevels slots count next
    pure (code ++ more)

/-- Match one head argument. -/
def headArg (slots : Slots) (base register : Nat) (arg : Term) : Emit Code := do
  resetTemps base
  match arg with
  | .var v =>
    let isFirst ← first v
    let place := slotOf slots v
    pure [if isFirst then .getVariable place register else .getValue place register]
  | .struct symbol args =>
    matchLevels slots arg.structures [⟨symbol, args, register⟩]
  | .atom symbol => pure [.getConstant (.atom symbol) register]
  | .num value => pure [.getConstant (.num value) register]

/-- Match head arguments in registers from `register` on. -/
def headArgs (slots : Slots) (base register : Nat) : List Term → Emit Code
  | [] => pure []
  | arg :: args => do
    let code ← headArg slots base register arg
    let more ← headArgs slots base (register + 1) args
    pure (code ++ more)

/-- Add the arguments of a structure begun; its nested structures are in the given registers. -/
def setArgs (slots : Slots) : List Term → List Nat → Emit Code
  | [], _ => pure []
  | .var v :: args, registers => do
    let isFirst ← first v
    let place := slotOf slots v
    let code ← setArgs slots args registers
    pure ((if isFirst then .setVariable place else .setValue place) :: code)
  | .struct _ _ :: args, register :: registers => do
    let code ← setArgs slots args registers
    pure (.setValue (.register register) :: code)
  | .struct _ _ :: args, [] => setArgs slots args []
  | .atom symbol :: args, registers => do
    let code ← setArgs slots args registers
    pure (.setConstant (.atom symbol) :: code)
  | .num value :: args, registers => do
    let code ← setArgs slots args registers
    pure (.setConstant (.num value) :: code)

mutual

/-- Build a structure in a register, the structures inside it first. -/
def buildStructure (slots : Slots) (register : Nat) : Term → Emit Code
  | .struct symbol args => do
    let (inner, registers) ← buildNested slots args
    let code ← setArgs slots args registers
    pure (inner ++ .putStructure ⟨symbol, args.length⟩ register :: code)
  | .atom _ | .var _ | .num _ => pure []

/-- Build the structures among arguments, each in a temporary register. -/
def buildNested (slots : Slots) : List Term → Emit (Code × List Nat)
  | [] => pure ([], [])
  | .struct symbol inner :: args => do
    let register ← temp
    let code ← buildStructure slots register (.struct symbol inner)
    let (more, registers) ← buildNested slots args
    pure (code ++ more, register :: registers)
  | .atom _ :: args | .var _ :: args | .num _ :: args => buildNested slots args

end

/-- Build one goal argument. -/
def goalArg (slots : Slots) (register : Nat) (arg : Term) : Emit Code := do
  match arg with
  | .var v =>
    let isFirst ← first v
    let place := slotOf slots v
    pure [if isFirst then .putVariable place register else .putValue place register]
  | .struct _ _ => buildStructure slots register arg
  | .atom symbol => pure [.putConstant (.atom symbol) register]
  | .num value => pure [.putConstant (.num value) register]

/-- Build goal arguments in registers from `register` on. -/
def goalArgs (slots : Slots) (register : Nat) : List Term → Emit Code
  | [] => pure []
  | arg :: args => do
    let code ← goalArg slots register arg
    let more ← goalArgs slots (register + 1) args
    pure (code ++ more)

/-- Build a goal's arguments and call it. -/
def goal (slots : Slots) (base : Nat) (args : List Term) (target : Target) : Emit Code := do
  resetTemps base
  let code ← goalArgs slots 0 args
  pure (code ++ [.call target])

end Emit
end HornMachine
