import HornMachine.Fact
import Std.Data.TreeMap
import Std.Data.TreeSet

/-!
# The fact store

Facts are kept in the order they were first asserted, one list per functor, and are never removed.
An index by functor and first argument narrows searches. A query is a place in such a list: it only
moves forward, so facts asserted while it is open are still found.
-/

namespace HornMachine

mutual

/-- Whether a ground term could match a pattern, taking each variable of the pattern for any term.
A variable that occurs twice is not required to match equal terms. -/
def Term.covers : Term → Term → Bool
  | .var _, _ => true
  | .struct f ps, .struct g ts => f = g && Term.coversAll ps ts
  | pattern, term => pattern = term

/-- Whether terms could match patterns position by position. -/
def Term.coversAll : List Term → List Term → Bool
  | [], [] => true
  | p :: ps, t :: ts => Term.covers p t && Term.coversAll ps ts
  | [], _ :: _ | _ :: _, [] => false

end

/-- A search for facts matching a pattern, with the number of candidates passed. -/
structure Query where
  pattern : Term
  position : Nat := 0
deriving DecidableEq

namespace Query

/-- The functor of the facts searched, if the pattern can match a fact. -/
def functor? (query : Query) : Option Functor := query.pattern.functor?

/-- The first argument of the pattern, if it is ground; only facts with that first argument are
looked at then. -/
def key? (query : Query) : Option Term := query.pattern.args.head?.filter Term.isGround

/-- Whether a fact could match the pattern. -/
def admits (query : Query) (fact : Fact) : Bool := query.pattern.covers fact.term

end Query

/-- Facts for a query to look at, in order. -/
structure Candidates where
  facts : Array Fact := #[]
  /-- Positions of the candidates among them; all facts are candidates if there are none. -/
  places : Option (Array Nat) := none

namespace Candidates

/-- Number of candidates. -/
def size (candidates : Candidates) : Nat :=
  match candidates.places with
  | some places => places.size
  | none => candidates.facts.size

/-- The candidate at a position. -/
def get? (candidates : Candidates) (position : Nat) : Option Fact :=
  match candidates.places with
  | some places => places[position]?.bind (candidates.facts[·]?)
  | none => candidates.facts[position]?

/-- Look at up to `count` candidates from the query's place on for one that could match. -/
def scan (candidates : Candidates) : Nat → Query → Option Fact × Query
  | 0, query => (none, query)
  | count + 1, query =>
    let passed := { query with position := query.position + 1 }
    match candidates.get? query.position with
    | none => (none, query)
    | some fact => if query.admits fact then (some fact, passed) else candidates.scan count passed

end Candidates

/-- Asserted facts with their indexes. -/
structure FactStore where
  byFunctor : Std.TreeMap Functor (Array Fact) := ∅
  /-- Positions in the list of a functor of the facts with a given first argument. -/
  byFirstArg : Std.TreeMap (Functor × Term) (Array Nat) lexOrd.compare := ∅
  known : Std.TreeSet Fact := ∅
  declared : Std.TreeSet Functor := ∅

namespace FactStore

/-- The store without facts. -/
def empty : FactStore := {}

/-- Number of facts. -/
def size (store : FactStore) : Nat := store.known.size

/-- Whether a fact is stored. -/
def contains (store : FactStore) (fact : Fact) : Bool := store.known.contains fact

/-- The facts of a functor in the order they were asserted. -/
def factsOf (store : FactStore) (functor : Functor) : Array Fact :=
  store.byFunctor.getD functor #[]

/-- Positions among the facts of a functor of those with a given first argument. -/
def positionsOf (store : FactStore) (functor : Functor) (first : Term) : Array Nat :=
  store.byFirstArg.getD (functor, first) #[]

/-- Let a functor be called though it has no facts. -/
def declare (store : FactStore) (functor : Functor) : FactStore :=
  { store with declared := store.declared.insert functor }

/-- Whether a functor has facts or is declared. -/
def knows (store : FactStore) (functor : Functor) : Bool :=
  store.byFunctor.contains functor || store.declared.contains functor

/-- Note the place of a fact under its first argument. -/
def noteFirstArg (index : Std.TreeMap (Functor × Term) (Array Nat) lexOrd.compare) (fact : Fact)
    (place : Nat) : Std.TreeMap (Functor × Term) (Array Nat) lexOrd.compare :=
  match fact.args with
  | [] => index
  | first :: _ =>
    index.alter (fact.functor, first) fun places ↦ (places.getD #[]).push place

/-- Add a fact at the end of its functor's list and to the indexes. -/
def append (store : FactStore) (fact : Fact) : FactStore :=
  let place := (store.factsOf fact.functor).size
  { store with
    byFirstArg := noteFirstArg store.byFirstArg fact place
    byFunctor := store.byFunctor.alter fact.functor fun facts ↦ (facts.getD #[]).push fact
    known := store.known.insert fact }

/-- Assert a fact; whether it was new is returned with the store. -/
def assert (store : FactStore) (fact : Fact) : Bool × FactStore :=
  if store.contains fact then (false, store) else (true, store.append fact)

/-- A store with the given facts. -/
def ofFacts (facts : List Fact) : FactStore :=
  facts.foldl (fun store fact ↦ (store.assert fact).2) empty

/-- The functors with facts or a declaration, in order. -/
def predicates (store : FactStore) : List Functor :=
  let functors := Std.TreeSet.ofList (store.byFunctor.keys ++ store.declared.toList)
  functors.toList.mergeSort fun a b ↦ (compare a b).isLE

/-- All facts, by functor in order and then as asserted. -/
def snapshot (store : FactStore) : List Fact :=
  (store.byFunctor.keys.mergeSort fun a b ↦ (compare a b).isLE).flatMap fun functor ↦
    (store.factsOf functor).toList

/-- All facts as statements, one on a line. -/
def dump (store : FactStore) (symbols : SymbolTable) : String :=
  "\n".intercalate (store.snapshot.map fun fact ↦ fact.text symbols ++ ".")

/-- The candidates of a query: the facts of its functor, or of those the ones with its first
argument if that is ground. -/
def candidates (store : FactStore) (query : Query) : Candidates :=
  match query.functor? with
  | none => {}
  | some functor =>
    let facts := store.factsOf functor
    if facts.isEmpty then {}
    else { facts, places := query.key?.map (store.positionsOf functor) }

/-- The next fact that could match, with the query moved past it; the query is past all candidates
if there is none. -/
def next (store : FactStore) (query : Query) : Option Fact × Query :=
  let candidates := store.candidates query
  candidates.scan (candidates.size - query.position) query

/-- All facts from the query's place on that could match. -/
def remaining (store : FactStore) (query : Query) : List Fact :=
  let candidates := store.candidates query
  (List.range' query.position (candidates.size - query.position)).filterMap fun i ↦
    (candidates.get? i).filter query.admits

/-- All facts that could match a pattern, in the order they were asserted. -/
def matching (store : FactStore) (pattern : Term) : List Fact := store.remaining { pattern }

end FactStore
end HornMachine
