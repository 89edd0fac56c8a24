import HornMachine.Bindings.Unify
import HornMachine.Heap.Basic
import Std.Data.TreeSet

/-!
# Unification on the heap

The memory of the machine is a heap with a trail of the variables that were bound, in order. Two
addresses are unified by binding variables, each recorded on the trail; a failed attempt is taken
back. Without the occurs check a pair of structures met a second time counts as unified already.
-/

namespace HornMachine

/-- A heap and the variables bound since it was empty, in order. -/
structure Memory where
  heap : Heap := {}
  trail : Array Address := #[]
deriving DecidableEq, Inhabited

namespace Memory

/-- Make the cell at `address` refer to `target` and record it. -/
def assign (memory : Memory) (address target : Address) : Memory :=
  { heap := memory.heap.set address (.ref target), trail := memory.trail.push address }

/-- Bind a variable of the heap and record it. -/
def bind (memory : Memory) (address target : Address) : Except Fault Memory :=
  if address < memory.heap.size then .ok (memory.assign address target)
  else .error (.badAddress address)

/-- Keep the first `size` cells. -/
def truncate (memory : Memory) (size : Nat) : Memory :=
  { memory with heap := memory.heap.truncate size }

/-- Free the latest `count` variables of the trail. -/
def unbindLast (memory : Memory) : Nat → Memory
  | 0 => memory
  | count + 1 =>
    match memory.trail.back? with
    | none => memory
    | some address =>
      unbindLast { heap := memory.heap.unbind address, trail := memory.trail.pop } count

/-- Free every variable bound since the trail was `mark` long. -/
def rewind (memory : Memory) (mark : Nat) : Except Fault Memory :=
  if mark > memory.trail.size then .error (.trailUnderflow mark memory.trail.size)
  else .ok (memory.unbindLast (memory.trail.size - mark))

/-- Why unification stops without success. -/
inductive Obstacle where
  | clash
  | fault (fault : Fault)
  | unfinished
deriving DecidableEq

/-- State of a unification. -/
structure Unifying where
  memory : Memory
  seen : Std.TreeSet (Address × Address) lexOrd.compare := ∅

/-- A unification in progress; its state is kept when it stops. -/
abbrev Unification := EStateM Obstacle Unifying

namespace Unification

/-- A result that may be a fault. -/
def lift {α : Type} : Except Fault α → Unification α
  | .ok value => pure value
  | .error fault => throw (.fault fault)

/-- What an address stands for. -/
def value (address : Address) : Unification (Address × Value) := do
  lift ((← get).memory.heap.value address)

/-- Bind a variable and record it. -/
def bindVar (address target : Address) : Unification Unit := do
  if address < (← get).memory.heap.size then
    modify fun state ↦ { state with memory := state.memory.assign address target }
  else throw (.fault (.badAddress address))

/-- Bind a variable to something other than a variable, unless the occurs check forbids it. -/
def bindChecked (check : OccursCheck) (address target : Address) : Unification Unit := do
  if check = .on then
    if ← lift ((← get).memory.heap.occurs address target) then throw .clash
  bindVar address target

/-- Whether the arguments of two headers are still to be unified. Without the occurs check the pair
is noted, and taken up once only. -/
def takeUp (check : OccursCheck) (left right : Address) : Unification Bool := do
  match check with
  | .on => pure true
  | .off =>
    if (left, right) ∈ (← get).seen then pure false
    else
      modify fun state ↦ { state with seen := state.seen.insert (left, right) }
      pure true

end Unification

open Unification in
/-- Unify the terms at two addresses whose common structure is less than `depth` deep. Of two
variables the younger is bound to the older; arguments are unified from left to right. -/
def unifyWithin (check : OccursCheck) : Nat → Address → Address → Unification Unit
  | 0, _, _ => throw .unfinished
  | depth + 1, a, b => do
    let (a, left) ← value a
    let (b, right) ← value b
    if a = b then pure ()
    else match left, right with
      | .unbound, .unbound => if a > b then bindVar a b else bindVar b a
      | .unbound, _ => bindChecked check a b
      | _, .unbound => bindChecked check b a
      | .atom p, .atom q => if p = q then pure () else throw .clash
      | .num m, .num n => if m = n then pure () else throw .clash
      | .compound f left, .compound g right =>
        if f ≠ g then throw .clash
        else if ← takeUp check left right then
          ((Heap.arguments f left).zip (Heap.arguments g right)).forM fun (x, y) ↦
            unifyWithin check depth x y
      | _, _ => throw .clash

/-- A depth no unification exceeds: no pair of headers is taken up twice. -/
def depthBound (memory : Memory) : Nat := (memory.heap.size + 1) * (memory.heap.size + 1)

/-- What a unification that began with a trail of length `mark` comes to. A failed one is taken
back; a fault leaves the memory as it was found. Not inlined: the mark is taken once, before the
unification begins, so that the trail is not held while it grows. -/
@[noinline]
def settle (mark : Nat) : EStateM.Result Obstacle Unifying Unit → Except Fault Bool × Memory
  | .ok () state => (.ok true, state.memory)
  | .error (.fault fault) state => (.error fault, state.memory)
  | .error _ state => (.ok false, state.memory.unbindLast (state.memory.trail.size - mark))

/-- Unify the terms at two addresses. A failed attempt leaves the memory as it was; a fault leaves
it as the fault found it. -/
def unify (check : OccursCheck) (memory : Memory) (a b : Address) : Except Fault Bool × Memory :=
  settle memory.trail.size ((unifyWithin check memory.depthBound a b).run { memory })

end Memory
end HornMachine
