import HornMachine.Builtin
import HornMachine.Text.Pad

/-!
# Instructions

The code of a rule reads its arguments from registers, matches them against the head, builds the
arguments of each goal and calls it. The variables of a rule live in the slots of a frame; registers
above the arguments hold nested structures on their way in or out.
-/

namespace HornMachine

/-- Where an instruction finds or puts a cell. -/
inductive Place where
  | register (index : Nat)
  | slot (index : Nat)
deriving DecidableEq, Repr

/-- A constant in code. -/
inductive Constant where
  | atom (symbol : Symbol)
  | num (value : Int)
deriving DecidableEq, Repr

/-- What a call runs. -/
inductive Target where
  | builtin (builtin : Builtin) (arity : Nat)
  | predicate (functor : Functor)
deriving DecidableEq, Repr

/-- An instruction of the machine. -/
inductive Instruction where
  | allocate (size : Nat)
  | deallocate
  | getVariable (place : Place) (arg : Nat)
  | getValue (place : Place) (arg : Nat)
  | getConstant (constant : Constant) (arg : Nat)
  | getStructure (functor : Functor) (arg : Nat)
  | unifyVariable (place : Place)
  | unifyValue (place : Place)
  | unifyConstant (constant : Constant)
  | putVariable (place : Place) (arg : Nat)
  | putValue (place : Place) (arg : Nat)
  | putConstant (constant : Constant) (arg : Nat)
  | putStructure (functor : Functor) (register : Nat)
  | setVariable (place : Place)
  | setValue (place : Place)
  | setConstant (constant : Constant)
  | call (target : Target)
  | proceed
  | fail
deriving DecidableEq, Repr

/-- A place is written with the letter of its kind. -/
def Place.text : Place → String
  | .register index => "X" ++ toString index
  | .slot index => "Y" ++ toString index

/-- A constant is written as the term it is. -/
def Constant.text (symbols : SymbolTable) : Constant → String
  | .atom symbol => symbols.nameOf symbol
  | .num value => toString value

/-- A call of a builtin is marked by a dollar sign. -/
def Target.text (symbols : SymbolTable) : Target → String
  | .builtin test arity => "$" ++ test.name ++ "/" ++ toString arity
  | .predicate functor => functor.text symbols

/-- The constant a term is, if it is one. -/
def Term.constant? : Term → Option Constant
  | .atom symbol => some (.atom symbol)
  | .num value => some (.num value)
  | .var _ | .struct _ _ => none

/-- The cell of a constant. -/
def Constant.cell : Constant → Cell
  | .atom symbol => .atom symbol
  | .num value => .num value

namespace Instruction

/-- Name of an instruction. -/
def mnemonic : Instruction → String
  | allocate _ => "allocate"
  | deallocate => "deallocate"
  | getVariable _ _ => "get_variable"
  | getValue _ _ => "get_value"
  | getConstant _ _ => "get_constant"
  | getStructure _ _ => "get_structure"
  | unifyVariable _ => "unify_variable"
  | unifyValue _ => "unify_value"
  | unifyConstant _ => "unify_constant"
  | putVariable _ _ => "put_variable"
  | putValue _ _ => "put_value"
  | putConstant _ _ => "put_constant"
  | putStructure _ _ => "put_structure"
  | setVariable _ => "set_variable"
  | setValue _ => "set_value"
  | setConstant _ => "set_constant"
  | call _ => "call"
  | proceed => "proceed"
  | fail => "fail"

/-- Whether the instruction can make the machine backtrack. -/
def canFail : Instruction → Bool
  | getValue _ _ | getConstant _ _ | getStructure _ _ | unifyValue _ | unifyConstant _ | call _
  | fail => true
  | _ => false

/-- Operands of an instruction as they are listed. Argument registers are written `A`. -/
def operands (symbols : SymbolTable) : Instruction → List String
  | allocate size => [toString size]
  | deallocate | proceed | fail => []
  | getVariable place arg | getValue place arg | putVariable place arg | putValue place arg =>
    [place.text, "A" ++ toString arg]
  | getConstant constant arg | putConstant constant arg =>
    [constant.text symbols, "A" ++ toString arg]
  | getStructure functor arg => [functor.text symbols, "A" ++ toString arg]
  | putStructure functor register => [functor.text symbols, "X" ++ toString register]
  | unifyVariable place | unifyValue place | setVariable place | setValue place => [place.text]
  | unifyConstant constant | setConstant constant => [constant.text symbols]
  | call target => [target.text symbols]

/-- An instruction is written as its name and operands. -/
def text (instruction : Instruction) (symbols : SymbolTable) : String :=
  match instruction.operands symbols with
  | [] => instruction.mnemonic
  | operands => instruction.mnemonic ++ " " ++ ", ".intercalate operands

end Instruction

/-- Instructions in the order they are run. -/
abbrev Code := List Instruction

/-- Code with one instruction on a line, each after its offset. -/
def Code.listing (code : Code) (symbols : SymbolTable) : String :=
  "\n".intercalate (code.zipIdx.map fun (instruction, offset) ↦
    Text.padStart 4 (toString offset) ++ ": " ++ instruction.text symbols)

end HornMachine
