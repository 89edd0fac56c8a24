import HornMachine.Heap.Extract
import HornMachine.Heap.Unify

/-!
# Builtin predicates

Builtins are tests that the machine runs itself: each succeeds once or fails, and only `eq` binds
variables.
-/

namespace HornMachine

/-- A predicate that the machine knows. -/
inductive Builtin where
  | true
  | distinct
  | eq
  | neq
deriving DecidableEq, Repr

namespace Builtin

/-- Name of a builtin. -/
def name : Builtin → String
  | .true => "true"
  | .distinct => "distinct"
  | .eq => "eq"
  | .neq => "neq"

/-- The builtin with a name and arity. -/
def ofName? (name : String) (arity : Nat) : Option Builtin :=
  if name = "true" ∧ arity = 0 then some .true
  else if name = "distinct" then some .distinct
  else if name = "eq" ∧ arity = 2 then some .eq
  else if name = "neq" ∧ arity = 2 then some .neq
  else none

/-- The builtin a functor calls, by the name of its symbol. -/
def ofFunctor? (symbols : SymbolTable) (functor : Functor) : Option Builtin := do
  let name ← symbols.name? functor.symbol
  ofName? name functor.arity

/-- The terms at the given addresses, or nothing if one of them is not ground. -/
def groundTerms (heap : Heap) : List Address → Except Fault (Option (List Term))
  | [] => .ok (some [])
  | address :: addresses => do
    if ← heap.isGround address then
      let term ← heap.extract address
      let terms ← groundTerms heap addresses
      .ok (terms.map (term :: ·))
    else .ok none

/-- Whether all terms of a list are different. -/
def allDifferent : List Term → Bool
  | [] => Bool.true
  | term :: terms => !terms.contains term && allDifferent terms

/-- Run a builtin on argument addresses. -/
def run (builtin : Builtin) (check : OccursCheck) (memory : Memory) (args : List Address) :
    Except Fault Bool × Memory :=
  match builtin, args with
  | .true, _ => (.ok Bool.true, memory)
  | .eq, [left, right] => memory.unify check left right
  | .eq, _ => (.ok false, memory)
  | .neq, [left, right] =>
    ((groundTerms memory.heap [left, right]).map fun terms ↦ terms.any allDifferent, memory)
  | .neq, _ => (.ok false, memory)
  | .distinct, args =>
    ((groundTerms memory.heap args).map fun terms ↦ terms.any allDifferent, memory)

end Builtin
end HornMachine
