import HornMachine.Bindings.Basic
import HornMachine.Term.Order
import Std.Data.TreeSet

/-!
# Unification of terms

Two terms are unified under bindings by adding bindings, and a failed attempt undoes those it has
made. Without the occurs check a variable may be bound to a term that contains it; terms are then
rational trees, and a pair of structures met a second time counts as unified already, so unification
still ends.
-/

namespace HornMachine

/-- Whether a variable may be bound to a term it occurs in. -/
inductive OccursCheck where
  | on
  | off
deriving DecidableEq, Repr

namespace Bindings

/-- Why unification stops without a unifier. -/
inductive Obstacle where
  | clash
  | unfinished
deriving DecidableEq

/-- State of a unification. -/
structure Unifying where
  bindings : Bindings
  seen : Std.TreeSet (Term × Term) lexOrd.compare := ∅

/-- A unification in progress; its state is lost when it fails. -/
abbrev Unification := StateT Unifying (Except Obstacle)

/-- A unification in progress; its state is kept when it fails, so that its bindings can be
undone. -/
abbrev Tentative := EStateM Obstacle Unifying

namespace Unification

variable {m : Type → Type} [Monad m] [MonadStateOf Unifying m] [MonadExceptOf Obstacle m]

/-- Follow bindings at the root of a term. -/
def resolved (term : Term) : m Term := do
  return (← get).bindings.resolve term

/-- Bind a variable unless the occurs check forbids it. -/
def bindChecked (check : OccursCheck) (v : Var) (term : Term) : m Unit := do
  if check = .on then
    if (← get).bindings.occursIn v term then throw .clash
  modify fun state ↦ { state with bindings := state.bindings.bind v term }

/-- Whether the arguments of two structures are still to be unified. Without the occurs check the
pair is noted, and taken up once only. -/
def takeUp (check : OccursCheck) (left right : Term) : m Bool := do
  match check with
  | .on => pure true
  | .off =>
    if (left, right) ∈ (← get).seen then pure false
    else
      modify fun state ↦ { state with seen := state.seen.insert (left, right) }
      pure true

/-- Unify two terms whose common structure is less than `depth` deep. Variables are bound to the
term opposite, those on the left first, and arguments are unified from left to right. -/
def attempt (check : OccursCheck) : Nat → Term → Term → m Unit
  | 0, _, _ => throw .unfinished
  | depth + 1, a, b => do
    let left ← resolved a
    let right ← resolved b
    match left, right with
    | .var x, .var y => if x = y then pure () else bindChecked check x (.var y)
    | .var x, right => bindChecked check x right
    | left, .var y => bindChecked check y left
    | .atom p, .atom q => if p = q then pure () else throw .clash
    | .num m, .num n => if m = n then pure () else throw .clash
    | .struct f xs, .struct g ys =>
      if f ≠ g ∨ xs.length ≠ ys.length then throw .clash
      else if ← takeUp check (.struct f xs) (.struct g ys) then
        (xs.zip ys).forM fun (x, y) ↦ attempt check depth x y
    | _, _ => throw .clash

end Unification

/-- The unification of two terms of which nothing is left if it fails. -/
def unifyWithin (check : OccursCheck) (depth : Nat) (a b : Term) : Unification Unit :=
  Unification.attempt check depth a b

/-- A depth no unification of `a` and `b` exceeds: structures met below one another are subterms of
the two terms or of a bound term, and no pair of them is taken up twice. -/
def depthBound (bindings : Bindings) (a b : Term) : Nat :=
  let total := a.size + b.size + Term.sizeList (bindings.entries.map Prod.snd) + 1
  total * total

/-- Unify two terms: the bindings with those added, or nothing if the terms do not unify. -/
def unify (check : OccursCheck) (bindings : Bindings) (a b : Term) : Option Bindings :=
  match (unifyWithin check (bindings.depthBound a b) a b).run { bindings } with
  | .ok ((), state) => some state.bindings
  | .error _ => none

/-- Unify two terms in place: whether they unify, and the bindings afterwards. If they do not, the
bindings that were made on the way are undone. -/
def unifyInPlace (check : OccursCheck) (bindings : Bindings) (a b : Term) : Bool × Bindings :=
  let mark := bindings.entries.length
  let run : Tentative Unit := Unification.attempt check (bindings.depthBound a b) a b
  match run { bindings } with
  | .ok () state => (true, state.bindings)
  | .error _ state =>
    match state.bindings.undoTo mark with
    | .ok restored => (false, restored)
    | .error _ => (false, state.bindings)

end Bindings

/-- The bindings that make two terms equal, found without the occurs check. -/
def Term.unifier? (a b : Term) : Option Bindings := Bindings.unify .off .empty a b

end HornMachine
