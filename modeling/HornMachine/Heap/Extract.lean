import HornMachine.Heap.Basic
import Std.Data.TreeMap

/-!
# Reading terms back from the heap

Reading an address follows references and structures and gives a finite term, or the fault that the
term contains itself: that a structure is met again inside itself. Each structure entered leaves
fewer to enter, so reading ends on every heap. Unbound cells are read as variables; names given to
cells are kept, so that several reads agree on shared variables, and numbers already in use
elsewhere can be reserved.
-/

namespace HornMachine

/-- Variables given to unbound cells. -/
structure VarNames where
  names : Std.TreeMap Address Var := ∅
  reserved : Std.TreeSet Var := ∅
  next : Var := 0

namespace VarNames

/-- Names that avoid the given variables. -/
def reserving (vars : List Var) : VarNames := { reserved := Std.TreeSet.ofList vars }

/-- The first variable from `v` on that is not reserved, looking at no more than `tries` reserved
ones. -/
def firstFree (reserved : Std.TreeSet Var) : Nat → Var → Var
  | 0, v => v
  | tries + 1, v => if reserved.contains v then firstFree reserved tries (v + 1) else v

/-- The variable of a cell: the one it was given before, or the smallest one that is neither given
nor reserved. -/
def name (names : VarNames) (address : Address) : Var × VarNames :=
  match names.names[address]? with
  | some v => (v, names)
  | none =>
    let v := firstFree names.reserved names.reserved.size names.next
    (v, { names with names := names.names.insert address v, next := v + 1 })

end VarNames

namespace Heap

/-- A computation that reads terms. A fault keeps the names given before it. -/
abbrev Extract := EStateM Fault VarNames

/-- The variable of an unbound cell. -/
def Extract.name (address : Address) : Extract Var := fun names ↦
  match names.name address with
  | (v, names) => .ok v names

/-- Read the term at an address. `path` holds the headers passed on the way down; meeting one again
is a cycle. -/
@[semireducible]
def extractBelow (heap : Heap) (path : Std.TreeSet Address) (address : Address) : Extract Term :=
  match _ : heap.value address with
  | .error fault => throw fault
  | .ok (found, .unbound) => Term.var <$> Extract.name found
  | .ok (_, .atom symbol) => pure (.atom symbol)
  | .ok (_, .num value) => pure (.num value)
  | .ok (_, .compound functor header) =>
    if _ : header ∈ path then throw .cyclicTerm
    else do
      let args ← (arguments functor header).mapM fun argument ↦
        heap.extractBelow (path.insert header) argument
      pure (Term.apply functor.symbol args)
termination_by heap.unpassed path
decreasing_by exact unpassed_insert_lt (lt_size_of_value ‹_›) ‹_›

/-- The recursion itself, without the reason why it ends. -/
theorem extractBelow_eq (heap : Heap) (path : Std.TreeSet Address) (address : Address) :
    heap.extractBelow path address =
      match heap.value address with
      | .error fault => throw fault
      | .ok (found, .unbound) => Term.var <$> Extract.name found
      | .ok (_, .atom symbol) => pure (.atom symbol)
      | .ok (_, .num value) => pure (.num value)
      | .ok (_, .compound functor header) =>
        if header ∈ path then throw .cyclicTerm
        else (arguments functor header).mapM (heap.extractBelow (path.insert header)) >>= fun args ↦
          pure (.apply functor.symbol args) := by
  rw [extractBelow]
  split <;> simp_all

/-- Read the term at an address, with names for its unbound cells. -/
def extractNamed (heap : Heap) (address : Address) (names : VarNames) :
    Except Fault Term × VarNames :=
  match (heap.extractBelow ∅ address).run names with
  | .ok term names => (.ok term, names)
  | .error fault names => (.error fault, names)

/-- Read the term at an address, numbering its unbound cells from zero as they are met. -/
def extract (heap : Heap) (address : Address) : Except Fault Term :=
  (heap.extractNamed address {}).1

end Heap
end HornMachine
