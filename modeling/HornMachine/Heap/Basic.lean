import HornMachine.Fault
import HornMachine.Term.Basic
import Std.Data.TreeSet

/-!
# The heap

The machine keeps its terms in numbered cells. A variable is a reference cell: unbound when it
refers to itself, bound when it refers to another cell. A structure is a pointer to a header with
its functor, and the cells after the header are the arguments. The heap grows at its end, so taking
it back to an earlier state is a truncation after rebound variables are freed.
-/

namespace HornMachine

/-- Cells are numbered from zero. -/
abbrev Address := Nat

/-- A cell of the heap. -/
inductive Cell where
  | ref (target : Address)
  | str (header : Address)
  | functor (functor : Functor)
  | atom (symbol : Symbol)
  | num (value : Int)
deriving DecidableEq, Repr

/-- What a cell stands for once references are followed. -/
inductive Value where
  | unbound
  | compound (functor : Functor) (header : Address)
  | atom (symbol : Symbol)
  | num (value : Int)
deriving DecidableEq, Repr

/-- Cells in the order of their addresses. -/
structure Heap where
  cells : Array Cell := #[]
deriving DecidableEq, Inhabited

namespace Heap

/-- Number of cells, which is the address of the next one. -/
def size (heap : Heap) : Nat := heap.cells.size

/-- The cell at an address. -/
def cell (heap : Heap) (address : Address) : Except Fault Cell :=
  match heap.cells[address]? with
  | some cell => .ok cell
  | none => .error (.badAddress address)

/-- Add a cell at the end. -/
def push (heap : Heap) (cell : Cell) : Heap := ⟨heap.cells.push cell⟩

/-- Add an unbound variable at the end. -/
def pushVar (heap : Heap) : Heap := heap.push (.ref heap.size)

/-- Add a structure cell and its header at the end; the arguments are to follow. -/
def pushStructure (heap : Heap) (functor : Functor) : Heap :=
  (heap.push (.str (heap.size + 1))).push (.functor functor)

/-- Replace the cell at an address inside the heap. -/
def set (heap : Heap) (address : Address) (cell : Cell) : Heap :=
  ⟨heap.cells.setIfInBounds address cell⟩

/-- Keep the first `size` cells. -/
def truncate (heap : Heap) (size : Nat) : Heap := ⟨heap.cells.shrink size⟩

/-- Make the cell at `address` an unbound variable. -/
def unbind (heap : Heap) (address : Address) : Heap := heap.set address (.ref address)

/-- Address of an argument, counted from zero, of the structure with the given header. -/
def argument (header : Address) (index : Nat) : Address := header + 1 + index

/-- Addresses of all arguments of the structure with the given header. -/
def arguments (functor : Functor) (header : Address) : List Address :=
  (List.range functor.arity).map (argument header)

/-- Follow at most `steps` references. References that go on longer run in a circle. -/
def derefWithin (heap : Heap) : Nat → Address → Except Fault Address
  | 0, _ => .error .cyclicTerm
  | steps + 1, address => do
    match ← heap.cell address with
    | .ref target => if target = address then .ok address else heap.derefWithin steps target
    | _ => .ok address

/-- Follow references until an unbound variable or another kind of cell. References that end do so
within as many steps as there are cells. -/
def deref (heap : Heap) (address : Address) : Except Fault Address :=
  heap.derefWithin (heap.size + 1) address

/-- Follow references from an address and classify the cell they end at. -/
def value (heap : Heap) (address : Address) : Except Fault (Address × Value) := do
  let found ← heap.deref address
  match ← heap.cell found with
  | .ref _ => .ok (found, .unbound)
  | .str header =>
    match ← heap.cell header with
    | .functor functor => .ok (found, .compound functor header)
    | _ => .error (.badAddress header)
  | .functor functor => .ok (found, .compound functor found)
  | .atom symbol => .ok (found, .atom symbol)
  | .num value => .ok (found, .num value)

theorem cell_eq_ok_iff {heap : Heap} {address : Address} {cell : Cell} :
    heap.cell address = .ok cell ↔ heap.cells[address]? = some cell := by
  unfold Heap.cell
  split <;> simp_all

theorem lt_size_of_getElem? {heap : Heap} {address : Nat} {cell : Cell}
    (found : heap.cells[address]? = some cell) : address < heap.size := by
  obtain ⟨inside, -⟩ := Array.getElem?_eq_some_iff.1 found
  exact inside

/-- The header of a structure that is found is in the heap. -/
theorem lt_size_of_value {heap : Heap} {address found header : Address} {functor : Functor}
    (read : heap.value address = .ok (found, .compound functor header)) : header < heap.size := by
  have inside {place : Address} {cell : Cell} (here : heap.cell place = .ok cell) :
    place < heap.size :=
    lt_size_of_getElem? (cell_eq_ok_iff.1 here)
  unfold value at read
  cases ended : heap.deref address with
  | error fault => simp [ended, bind, Except.bind] at read
  | ok place =>
    cases here : heap.cell place with
    | error fault => simp [ended, here, bind, Except.bind] at read
    | ok cell =>
      simp only [ended, here, bind, Except.bind] at read
      cases cell with
      | ref _ | atom _ | num _ => cases read
      | functor _ =>
        cases read
        exact inside here
      | str target =>
        cases at_header : heap.cell target with
        | error fault => simp [at_header] at read
        | ok cell =>
          cases cell with
          | ref _ | str _ | atom _ | num _ => simp [at_header] at read
          | functor _ =>
            simp only [at_header] at read
            cases read
            exact inside at_header

theorem mem_insert_iff {path : Std.TreeSet Address} {header other : Address} :
    other ∈ path.insert header ↔ other = header ∨ other ∈ path := by
  rw [Std.TreeSet.mem_insert, Std.LawfulEqCmp.compare_eq_iff_eq, eq_comm]

/-- Number of addresses that are not among the headers passed on a way down. -/
def unpassed (heap : Heap) (path : Std.TreeSet Address) : Nat :=
  ((List.range heap.size).filter (· ∉ path)).length

/-- Each structure entered leaves fewer of them. -/
theorem unpassed_insert_lt {heap : Heap} {path : Std.TreeSet Address} {header : Address}
    (inside : header < heap.size) (fresh : header ∉ path) :
    heap.unpassed (path.insert header) < heap.unpassed path := by
  have fewer : (List.range heap.size).filter (· ∉ path.insert header) =
      ((List.range heap.size).filter (· ∉ path)).filter (· ≠ header) := by
    rw [List.filter_filter]
    refine List.filter_congr fun other _ ↦ ?_
    rw [← Bool.decide_and, decide_eq_decide, mem_insert_iff, not_or]
  rw [unpassed, fewer]
  refine List.length_filter_lt_length_iff_exists.2 ⟨header, ?_, by simp⟩
  simpa [fresh] using inside

/-- Whether every cell below an address is free of unbound variables, from left to right. `path`
holds the headers passed on the way down; meeting one again is a cycle. -/
@[semireducible]
def isGroundBelow (heap : Heap) (path : Std.TreeSet Address) (address : Address) :
    Except Fault Bool :=
  match _ : heap.value address with
  | .error fault => .error fault
  | .ok (_, .unbound) => .ok false
  | .ok (_, .atom _) | .ok (_, .num _) => .ok true
  | .ok (_, .compound functor header) =>
    if _ : header ∈ path then .error .cyclicTerm
    else (arguments functor header).allM fun argument ↦
      heap.isGroundBelow (path.insert header) argument
termination_by heap.unpassed path
decreasing_by exact unpassed_insert_lt (lt_size_of_value ‹_›) ‹_›

/-- The recursion itself, without the reason why it ends. -/
theorem isGroundBelow_eq (heap : Heap) (path : Std.TreeSet Address) (address : Address) :
    heap.isGroundBelow path address =
      match heap.value address with
      | .error fault => .error fault
      | .ok (_, .unbound) => .ok false
      | .ok (_, .atom _) | .ok (_, .num _) => .ok true
      | .ok (_, .compound functor header) =>
        if header ∈ path then .error .cyclicTerm
        else (arguments functor header).allM (heap.isGroundBelow (path.insert header)) := by
  rw [isGroundBelow]
  split <;> simp_all

/-- Whether no unbound variable is met below an address. -/
def isGround (heap : Heap) (address : Address) : Except Fault Bool := heap.isGroundBelow ∅ address

/-- Whether an unbound variable is met below an address at most `depth` structures down. -/
def occursWithin (heap : Heap) (target : Address) : Nat → Address → Except Fault Bool
  | 0, _ => .error .cyclicTerm
  | depth + 1, address => do
    match ← heap.value address with
    | (found, .unbound) => .ok (found = target)
    | (_, .atom _) | (_, .num _) => .ok false
    | (_, .compound functor header) =>
      (arguments functor header).anyM (heap.occursWithin target depth)

/-- Whether an unbound variable occurs in the term at an address. -/
def occurs (heap : Heap) (target address : Address) : Except Fault Bool :=
  heap.occursWithin target (heap.size + 1) address

@[simp]
theorem size_push (heap : Heap) (cell : Cell) : (heap.push cell).size = heap.size + 1 := by
  simp [push, size]

@[simp]
theorem size_set (heap : Heap) (address : Address) (cell : Cell) :
    (heap.set address cell).size = heap.size := by
  simp [set, size]

end Heap
end HornMachine
