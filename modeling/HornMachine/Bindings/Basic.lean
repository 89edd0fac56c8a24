import HornMachine.Fault
import HornMachine.Term.Basic
import Std.Data.TreeMap
import Std.Data.TreeSet

/-!
# Bindings

Bindings map variables to terms and remember the order in which they were made, so that the latest
ones can be undone. A variable without a binding is unbound. Bound terms may mention bound
variables; `resolve` follows bindings at the root of a term and `apply` everywhere in it. Bindings
made without the occurs check can make a term contain itself, which `apply` reports.

The history alone determines bindings; an index by variable, kept with it, answers lookups. Main
statements: bindings with one history are equal, and a lookup finds the latest binding.
-/

namespace HornMachine

/-- The latest term of each variable in a history of bindings, the latest first. -/
def Bindings.indexOf (entries : List (Var × Term)) : Std.TreeMap Var Term :=
  entries.foldr (fun (v, term) index ↦ index.insert v term) ∅

/-- Bindings of variables. -/
structure Bindings where
  /-- Bound variables with their terms, the latest first. -/
  entries : List (Var × Term)
  index : Std.TreeMap Var Term
  index_eq : index = Bindings.indexOf entries

/-- A bound variable that is reached from its own term. -/
structure CyclicBinding where
  var : Var
deriving DecidableEq

/-- The wording for a variable that contains itself. -/
def CyclicBinding.message (error : CyclicBinding) : String :=
  "variable _G" ++ toString error.var ++ " is bound to a term containing itself"

namespace Term

mutual

/-- Replace every variable of a term, from left to right, by a computed term. -/
def substM {m : Type → Type} [Monad m] (f : Var → m Term) : Term → m Term
  | .var v => f v
  | .struct symbol args => do
    let args ← substListM f args
    pure (.struct symbol args)
  | term@(.atom _) | term@(.num _) => pure term

/-- Replace every variable of a list of terms. -/
def substListM {m : Type → Type} [Monad m] (f : Var → m Term) : List Term → m (List Term)
  | [] => pure []
  | term :: terms => do
    let term ← substM f term
    let terms ← substListM f terms
    pure (term :: terms)

end

mutual

/-- Whether some variable of the term, from left to right, has the property. -/
def anyVar (p : Var → Bool) : Term → Bool
  | .var v => p v
  | .struct _ args => anyVarList p args
  | .atom _ | .num _ => false

/-- Whether some variable of the terms has the property. -/
def anyVarList (p : Var → Bool) : List Term → Bool
  | [] => false
  | term :: terms => anyVar p term || anyVarList p terms

end

mutual

/-- Number of atoms, variables, structures and numbers in a term. -/
def size : Term → Nat
  | .struct _ args => sizeList args + 1
  | .atom _ | .var _ | .num _ => 1

/-- Total size of a list of terms. -/
def sizeList : List Term → Nat
  | [] => 0
  | term :: terms => size term + sizeList terms

end

end Term

namespace Bindings

/-- Bindings with the same history are equal. -/
theorem eq_of_entries_eq {a b : Bindings} (h : a.entries = b.entries) : a = b := by
  obtain ⟨entries, index, hindex⟩ := a
  obtain ⟨entries', index', hindex'⟩ := b
  subst hindex hindex'
  cases h
  rfl

instance : DecidableEq Bindings := fun a b ↦
  decidable_of_iff (a.entries = b.entries) ⟨eq_of_entries_eq, congrArg entries⟩

/-- The bindings with a given history, the latest first. -/
def ofEntries (entries : List (Var × Term)) : Bindings := ⟨entries, indexOf entries, rfl⟩

/-- No bindings. -/
def empty : Bindings := ofEntries []

instance : Inhabited Bindings := ⟨empty⟩

/-- The term a variable is bound to. -/
def lookup? (bindings : Bindings) (v : Var) : Option Term := bindings.index[v]?

/-- Bind an unbound variable. -/
def bind (bindings : Bindings) (v : Var) (term : Term) : Bindings where
  entries := (v, term) :: bindings.entries
  index := bindings.index.insert v term
  index_eq := by rw [bindings.index_eq, indexOf, indexOf, List.foldr_cons]

/-- Number of bound variables. -/
def size (bindings : Bindings) : Nat := bindings.index.size

/-- The bound variables in the order they were bound. -/
def trail (bindings : Bindings) : List Var := (bindings.entries.map Prod.fst).reverse

/-- Undo every binding made since there were `mark` of them. -/
def undoTo (bindings : Bindings) (mark : Nat) : Except Fault Bindings :=
  let count := bindings.entries.length
  if mark > count then .error (.trailUnderflow mark count)
  else .ok (ofEntries (bindings.entries.drop (count - mark)))

/-- The bindings in the order of their variables. -/
def toList (bindings : Bindings) : List (Var × Term) := bindings.index.toList

/-- Follow at most `steps` bindings from a variable. -/
def resolveWithin (bindings : Bindings) : Nat → Term → Term
  | steps + 1, .var v =>
    match bindings.lookup? v with
    | some term => bindings.resolveWithin steps term
    | none => .var v
  | _, term => term

/-- Follow bindings until an unbound variable or another kind of term. Links between variables that
end do so within as many steps as there are bound variables. -/
def resolve (bindings : Bindings) (term : Term) : Term :=
  bindings.resolveWithin bindings.size term

/-- Substitute bindings in a term. `path` holds the variables being replaced; meeting one of them
again is a cycle, and at most `steps` further ones can be entered. -/
def applyWithin (bindings : Bindings) : Nat → Std.TreeSet Var → Term → Except CyclicBinding Term
  | steps, path, term => term.substM fun v ↦
    match bindings.lookup? v with
    | none => .ok (.var v)
    | some bound =>
      if v ∈ path then .error ⟨v⟩
      else match steps with
        | 0 => .error ⟨v⟩
        | steps + 1 => bindings.applyWithin steps (path.insert v) bound

/-- Substitute bindings until no bound variable is left, or name a variable bound to a term that
contains it. A path enters each bound variable once, so their number bounds its length. -/
def apply (bindings : Bindings) (term : Term) : Except CyclicBinding Term :=
  bindings.applyWithin bindings.size ∅ term

/-- Whether a variable is reached from a term by at most `steps` bindings on a path. A longer path
goes round a cycle and counts as reaching it. -/
def reachesWithin (bindings : Bindings) (target : Var) : Nat → Term → Bool
  | steps, term => term.anyVar fun v ↦
    match bindings.lookup? v with
    | none => v = target
    | some bound =>
      match steps with
      | 0 => true
      | steps + 1 => bindings.reachesWithin target steps bound

/-- Whether an unbound variable occurs in a term once bindings are followed. -/
def occursIn (bindings : Bindings) (v : Var) (term : Term) : Bool :=
  bindings.reachesWithin v bindings.size term

/-- An index of a history finds the latest binding of a variable. -/
theorem getElem?_indexOf (entries : List (Var × Term)) (v : Var) :
    (indexOf entries)[v]? = entries.lookup v := by
  induction entries with
  | nil => simp [indexOf]
  | cons entry entries ih =>
    obtain ⟨w, term⟩ := entry
    rw [indexOf, List.foldr_cons, ← indexOf, Std.TreeMap.getElem?_insert, ih, List.lookup_cons]
    by_cases h : w = v
    · subst h
      simp
    · have h' : (v == w) = false := by simpa using Ne.symm h
      simp [h, h']

/-- A lookup finds the latest binding of a variable. -/
theorem lookup?_eq (bindings : Bindings) (v : Var) :
    bindings.lookup? v = bindings.entries.lookup v := by
  rw [lookup?, bindings.index_eq, getElem?_indexOf]

end Bindings
end HornMachine
