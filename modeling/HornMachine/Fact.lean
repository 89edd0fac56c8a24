import HornMachine.Term.Order

/-!
# Facts

A fact is an atom or structure that is ground and in which every structure has a functor. The
conditions are part of the type, so a stored fact needs no further check.
-/

namespace HornMachine

/-- A ground atom or structure whose structures all fit a functor. -/
structure Fact where
  term : Term
  ground : term.isGround = true
  /-- Each structure in it has at most 255 arguments. -/
  fits : term.fits = true
  callable : term.functor?.isSome = true
deriving DecidableEq

namespace Fact

/-- Facts are ordered as their terms. -/
instance : Ord Fact where
  compare a b := compare a.term b.term

instance : Std.TransOrd Fact := inferInstanceAs (Std.TransCmp (compareOn term))

/-- A term as a fact, if it is one. -/
def ofTerm? (term : Term) : Option Fact :=
  if conditions : term.isGround = true ∧ term.fits = true ∧ term.functor?.isSome = true then
    some ⟨term, conditions.1, conditions.2.1, conditions.2.2⟩
  else
    none

/-- Symbol and arity of the fact. -/
def functor (fact : Fact) : Functor := fact.term.functor?.get fact.callable

/-- Arguments of the fact. -/
def args (fact : Fact) : List Term := fact.term.args

/-- A fact is written as its term. -/
def text (fact : Fact) (symbols : SymbolTable) : String := fact.term.text symbols

/-- Facts are equal when their terms are. -/
@[ext]
theorem ext {a b : Fact} (same : a.term = b.term) : a = b := by
  cases a
  cases b
  cases same
  rfl

instance : Std.LawfulEqOrd Fact where
  eq_of_compare {a b} same :=
    ext (Std.LawfulEqCmp.eq_of_compare (show compare a.term b.term = .eq from same))

/-- A term becomes the fact it is the term of. -/
theorem ofTerm?_eq_some_iff {term : Term} {fact : Fact} :
    ofTerm? term = some fact ↔ fact.term = term := by
  constructor
  · intro made
    unfold ofTerm? at made
    split at made <;> simp_all
    rw [← made]
  · rintro rfl
    simp [ofTerm?, fact.ground, fact.fits, fact.callable]

end Fact
end HornMachine
