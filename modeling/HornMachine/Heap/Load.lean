import HornMachine.Heap.Basic
import Std.Data.HashMap

/-!
# Putting terms on the heap

Loading a term adds its cells at the end of the heap. The argument cells of a structure directly
follow its header, so they are reserved before nested structures are loaded behind them. Terms
loaded with one map of variables share their variables.
-/

namespace HornMachine

namespace Heap

/-- State of loading terms: the heap and the cell of each variable met. -/
structure Loading where
  heap : Heap
  vars : Std.HashMap Var Address := ∅

/-- A computation that loads terms. A fault keeps the cells added before it. -/
abbrev Load := EStateM Fault Loading

namespace Load

/-- Add a cell and return its address. -/
def push (cell : Cell) : Load Address := fun state ↦
  .ok state.heap.size { state with heap := state.heap.push cell }

/-- Add a structure cell and header and return the address of the structure cell. -/
def pushStructure (functor : Functor) : Load Address := fun state ↦
  .ok state.heap.size { state with heap := state.heap.pushStructure functor }

/-- Add `count` cells to be filled in later and return the address of the first. -/
def reserve (count : Nat) : Load Address := fun state ↦
  .ok state.heap.size
    { state with heap := (List.replicate count (Cell.ref 0)).foldl Heap.push state.heap }

/-- Fill in a reserved cell. -/
def fill (address : Address) (cell : Cell) : Load Unit :=
  modify fun state ↦ { state with heap := state.heap.set address cell }

/-- The cell of a variable; on its first use that is `fresh`. -/
def variableAt (v : Var) (fresh : Address) : Load Address := fun state ↦
  match state.vars[v]? with
  | some address => .ok address state
  | none => .ok fresh { state with vars := state.vars.insert v fresh }

/-- The cell of a variable, added at the end of the heap on its first use. -/
def loadVar (v : Var) : Load Address := fun state ↦
  match state.vars[v]? with
  | some address => .ok address state
  | none =>
    .ok state.heap.size
      { heap := state.heap.pushVar, vars := state.vars.insert v state.heap.size }

mutual

/-- Add a term to the heap and return its address. -/
def load : Term → Load Address
  | .var v => loadVar v
  | .atom symbol => push (.atom symbol)
  | .num value => push (.num value)
  | .struct symbol args => do
    if args.length > Functor.maxArity then throw (.arityOverflow args.length)
    let address ← pushStructure ⟨symbol, args.length⟩
    let first ← reserve args.length
    loadArgs first args
    pure address

/-- Fill in consecutive argument cells. -/
def loadArgs (slot : Address) : List Term → Load Unit
  | [] => pure ()
  | .atom symbol :: args => do
    fill slot (.atom symbol)
    loadArgs (slot + 1) args
  | .num value :: args => do
    fill slot (.num value)
    loadArgs (slot + 1) args
  | .var v :: args => do
    let target ← variableAt v slot
    fill slot (.ref target)
    loadArgs (slot + 1) args
  | .struct symbol inner :: args => do
    let target ← load (.struct symbol inner)
    fill slot (.ref target)
    loadArgs (slot + 1) args

end

end Load

/-- Load a term, sharing variables with those already in `vars`. The state is returned whether or
not the term fits. -/
def load (heap : Heap) (term : Term) (vars : Std.HashMap Var Address) :
    Except Fault Address × Loading :=
  match (Load.load term).run { heap, vars } with
  | .ok address state => (.ok address, state)
  | .error fault state => (.error fault, state)

/-- Load a term with variables of its own. -/
def loadAlone (heap : Heap) (term : Term) : Except Fault Address × Heap :=
  let (result, state) := heap.load term ∅
  (result, state.heap)

end Heap
end HornMachine
