import HornMachine.Symbol
import Std.Data.TreeSet

/-!
# Terms

First-order terms over interned symbols: atoms, variables, structures and whole numbers. The
functor of an atom or structure is its symbol with its number of arguments, which is at most 255.
Functions on terms recurse over a term and its argument list together; for each of them a lemma
says what the part on lists is in terms of the part on terms.
-/

namespace HornMachine

/-- Variables are numbered. -/
abbrev Var := Nat

/-- Symbol and number of arguments of a structure; an atom's functor has arity zero. -/
structure Functor where
  symbol : Symbol
  arity : Nat
deriving DecidableEq, Hashable, Repr

namespace Functor

/-- The widest structure a functor can describe. -/
def maxArity : Nat := 255

/-- Functors are ordered by symbol, then by arity. -/
instance : Ord Functor where
  compare a b := (compare a.symbol b.symbol).then (compare a.arity b.arity)

instance : Std.TransOrd Functor :=
  inferInstanceAs (Std.TransCmp (compareLex (compareOn symbol) (compareOn arity)))

instance : Std.LawfulEqOrd Functor where
  eq_of_compare {f g} same := by
    obtain ⟨symbol, arity⟩ := f
    obtain ⟨other, count⟩ := g
    obtain ⟨symbols, arities⟩ := Ordering.then_eq_eq.1 same
    obtain rfl : symbol = other := Std.LawfulEqCmp.eq_of_compare symbols
    obtain rfl : arity = count := Std.LawfulEqCmp.eq_of_compare arities
    rfl

/-- A functor is written as its name, a slash and its arity. -/
def text (functor : Functor) (symbols : SymbolTable) : String :=
  symbols.nameOf functor.symbol ++ "/" ++ toString functor.arity

end Functor

/-- A first-order term. -/
inductive Term where
  | atom (symbol : Symbol)
  | var (id : Var)
  | struct (symbol : Symbol) (args : List Term)
  | num (value : Int)
deriving Hashable, Repr, Inhabited

namespace Term

mutual

/-- Equality of terms is decided along their structure. -/
def decEq : (a b : Term) → Decidable (a = b)
  | .atom s, .atom t => decidable_of_iff (s = t) (by simp)
  | .var v, .var w => decidable_of_iff (v = w) (by simp)
  | .num m, .num n => decidable_of_iff (m = n) (by simp)
  | .struct s ss, .struct t ts =>
    match decEqList ss ts with
    | .isTrue same => decidable_of_iff (s = t) (by simp [same])
    | .isFalse different => .isFalse (by simp [different])
  | .atom _, .var _ | .atom _, .struct _ _ | .atom _, .num _ => .isFalse (by simp)
  | .var _, .atom _ | .var _, .struct _ _ | .var _, .num _ => .isFalse (by simp)
  | .struct _ _, .atom _ | .struct _ _, .var _ | .struct _ _, .num _ => .isFalse (by simp)
  | .num _, .atom _ | .num _, .var _ | .num _, .struct _ _ => .isFalse (by simp)

/-- Equality of argument lists is decided position by position. -/
def decEqList : (as bs : List Term) → Decidable (as = bs)
  | [], [] => .isTrue rfl
  | [], _ :: _ => .isFalse (by simp)
  | _ :: _, [] => .isFalse (by simp)
  | a :: as, b :: bs =>
    match decEq a b with
    | .isFalse different => .isFalse (by simp [different])
    | .isTrue same =>
      match decEqList as bs with
      | .isTrue rest => .isTrue (by simp [same, rest])
      | .isFalse different => .isFalse (by simp [different])

end

instance : DecidableEq Term := decEq

/-- A name applied to arguments; with no arguments it is the atom. -/
def apply (symbol : Symbol) : List Term → Term
  | [] => .atom symbol
  | arg :: args => .struct symbol (arg :: args)

/-- The functor of an atom or of a structure of at most 255 arguments. -/
def functor? : Term → Option Functor
  | .atom symbol => some ⟨symbol, 0⟩
  | .struct symbol args =>
    if args.length ≤ Functor.maxArity then some ⟨symbol, args.length⟩ else none
  | .var _ | .num _ => none

/-- The arguments of a structure; other terms have none. -/
def args : Term → List Term
  | .struct _ args => args
  | .atom _ | .var _ | .num _ => []

/-- Number of arguments. -/
def arity (term : Term) : Nat := term.args.length

/-- Whether the term is a variable. -/
def isVar : Term → Bool
  | .var _ => true
  | .atom _ | .struct _ _ | .num _ => false

mutual

/-- A term is ground when no variable occurs in it. -/
def isGround : Term → Bool
  | .var _ => false
  | .struct _ args => allGround args
  | .atom _ | .num _ => true

/-- Whether every term of the list is ground. -/
def allGround : List Term → Bool
  | [] => true
  | term :: terms => isGround term && allGround terms

end

theorem allGround_eq_all (terms : List Term) : allGround terms = terms.all isGround := by
  induction terms with
  | nil => rfl
  | cons term terms ih => simp [allGround, ih]

mutual

/-- A term fits when no structure inside it has more than 255 arguments. -/
def fits : Term → Bool
  | .struct _ args => args.length ≤ Functor.maxArity && allFit args
  | .atom _ | .var _ | .num _ => true

/-- Whether every term of the list fits. -/
def allFit : List Term → Bool
  | [] => true
  | term :: terms => fits term && allFit terms

end

theorem allFit_eq_all (terms : List Term) : allFit terms = terms.all fits := by
  induction terms with
  | nil => rfl
  | cons term terms ih => simp [allFit, ih]

mutual

/-- The variables of a term from left to right, one entry per occurrence. -/
def occurrences : Term → List Var
  | .var v => [v]
  | .struct _ args => occurrencesList args
  | .atom _ | .num _ => []

/-- The variable occurrences of a list of terms from left to right. -/
def occurrencesList : List Term → List Var
  | [] => []
  | term :: terms => occurrences term ++ occurrencesList terms

end

theorem occurrencesList_eq_flatMap (terms : List Term) :
    occurrencesList terms = terms.flatMap occurrences := by
  induction terms with
  | nil => rfl
  | cons term terms ih => simp [occurrencesList, ih]

/-- The entries of a list that are not in `seen`, each once, in the order of first occurrence. -/
def distinctFrom (seen : Std.TreeSet Var) : List Var → List Var
  | [] => []
  | v :: vs =>
    if seen.contains v then distinctFrom seen vs else v :: distinctFrom (seen.insert v) vs

/-- The distinct entries of a list of variables in the order of first occurrence. -/
def distinct (vars : List Var) : List Var := distinctFrom ∅ vars

/-- The variables of a term in the order of first occurrence. -/
def vars (term : Term) : List Var := distinct term.occurrences

mutual

/-- Terms are ordered atoms first, then variables, structures and numbers; structures by symbol and
then argument by argument, a shorter list of equal arguments coming first. -/
def order : Term → Term → Ordering
  | .atom s, .atom t => compare s t
  | .var v, .var w => compare v w
  | .struct s ss, .struct t ts => (compare s t).then (orderList ss ts)
  | .num m, .num n => compare m n
  | .atom _, .var _ | .atom _, .struct _ _ | .atom _, .num _ => .lt
  | .var _, .struct _ _ | .var _, .num _ => .lt
  | .struct _ _, .num _ => .lt
  | .var _, .atom _ => .gt
  | .struct _ _, .atom _ | .struct _ _, .var _ => .gt
  | .num _, .atom _ | .num _, .var _ | .num _, .struct _ _ => .gt

/-- Lexicographic order of argument lists. -/
def orderList : List Term → List Term → Ordering
  | [], [] => .eq
  | [], _ :: _ => .lt
  | _ :: _, [] => .gt
  | a :: as, b :: bs => (order a b).then (orderList as bs)

end

instance : Ord Term where
  compare := order

mutual

/-- A term is written with its symbols' names; variables are written `_G` and their number, and
arguments are separated by a comma and a space. -/
def text (symbols : SymbolTable) : Term → String
  | .atom symbol => symbols.nameOf symbol
  | .var v => "_G" ++ toString v
  | .num value => toString value
  | .struct symbol args =>
    symbols.nameOf symbol ++ "(" ++ ", ".intercalate (texts symbols args) ++ ")"

/-- The texts of a list of terms. -/
def texts (symbols : SymbolTable) : List Term → List String
  | [] => []
  | term :: terms => text symbols term :: texts symbols terms

end

theorem texts_eq_map (symbols : SymbolTable) (terms : List Term) :
    texts symbols terms = terms.map (text symbols) := by
  induction terms with
  | nil => simp [texts]
  | cons term terms ih => simp [texts, ih]

end Term
end HornMachine
