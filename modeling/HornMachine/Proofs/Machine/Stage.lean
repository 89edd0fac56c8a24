import HornMachine.Machine.State
import HornMachine.Proofs.FactStore
import HornMachine.Proofs.Machine.Stack

/-!
# Searching with sets of instances

What a machine has before it can be seen as sets of instances: those of the branch it is in, and for
each choice point those of the call, with the candidates not tried yet. Each thing that the machine
does is then one of a few moves on these sets. What a move means can be stated without the heap, and
whatever all moves keep, every run of the machine keeps.

Over any domain of values no move adds an instance. Over an exact domain, such as that of terms, a
branch is given up only if it has no instances left.
-/

namespace HornMachine

open Code (Meaning)

/-- A domain that tells what the machine tells: structures are larger than their arguments, and some
value is that of no ground term, as a variable is. -/
def Domain.Exact (D : Type) [Domain D] : Prop :=
  Nonempty (Sized D) ∧ ∃ value : D, ∀ (term : Term) β, term.isGround = true → term.eval β ≠ value

theorem Term.exact : Domain.Exact Term := by
  refine ⟨⟨inferInstance⟩, .var 0, fun term β ground same ↦ ?_⟩
  rw [eval_eq_subst, subst_of_isGround ground] at same
  subst same
  cases ground

variable {D : Type} [Domain D]

/-! ### Calls -/

namespace Builtin

/-- Values of ground terms that are all different, where a structure without arguments counts as an
atom. -/
def Distinct (args : List D) : Prop :=
  ∃ terms : List Term, (∀ term ∈ terms, term.isGround = Bool.true) ∧
    (terms.map Term.collapse).Nodup ∧ ∀ β, args = terms.map (Term.eval β)

/-- A builtin holds of values as they are, without binding a variable. -/
def Passes : Builtin → List D → Prop
  | .true, _ => True
  | .eq, args => ∃ value, args = [value, value]
  | .neq, args => args.length = 2 ∧ Distinct args
  | .distinct, args => Distinct args

theorem allDifferent_iff {terms : List Term} : allDifferent terms = Bool.true ↔ terms.Nodup := by
  induction terms with
  | nil => simp [allDifferent]
  | cons term terms ih => simp [allDifferent, ih, List.nodup_cons]

end Builtin

/-- What a call of a predicate may be answered with. -/
inductive Candidate where
  | fact (fact : Fact)
  | clause (compiled : CompiledRule)

/-- The values of a fact's arguments. -/
def Fact.values (fact : Fact) : List D := fact.args.map (Term.eval default)

/-- The instances that begin with the given task: what is left of them. -/
def Instance.After (set : Set (Instance D)) (task : Task D) : Set (Instance D) :=
  {an | ⟨task :: an.goals, an.head, an.values⟩ ∈ set}

/-- What is left of the instances of a call when a candidate answers it. -/
def Candidate.answers (set : Set (Instance D)) : Candidate → Set (Instance D)
  | .fact stored => Instance.After set (.call stored.values (.predicate stored.functor))
  | .clause compiled =>
    {an | ∃ η ρ first rest, Meaning η compiled.body ρ [] first ∧ an.goals = first ++ rest ∧
      ⟨rest, an.head, an.values⟩ ∈ Instance.After set
        (.call ((List.range compiled.head.arity).map ρ) (.predicate compiled.head))}

namespace Context

/-- The clauses of a functor from a position on. -/
def clausesFrom (context : Context) (goal : Functor) (position : Nat) : List Candidate :=
  ((context.program.clauses goal).toList.drop position).filterMap fun id ↦
    (context.program.rule? id).map Candidate.clause

/-- All candidates of a call, in the order they are tried: the stored facts and then the clauses. -/
def candidates (context : Context) (goal : Functor) : List Candidate :=
  (context.store.factsOf goal).toList.map Candidate.fact ++ context.clausesFrom goal 0

/-- The candidates that a choice point has left. -/
def candidatesLeft (context : Context) (choice : Choice) : List Candidate :=
  match choice.alternative with
  | .facts query =>
    (context.store.remaining query).map Candidate.fact ++ context.clausesFrom choice.goal 0
  | .clauses position => context.clausesFrom choice.goal position

end Context

/-! ### Moves -/

/-- The sets of instances before a machine: those of the branch it is in, if it is in one, and those
of the calls at its choice points with the candidates left, the newest first. -/
structure Stage (D : Type) where
  current : Option (Set (Instance D))
  choices : List (Set (Instance D) × List Candidate)

/-- All instances begin with a call of the target. -/
def Instance.Calls (set : Set (Instance D)) (target : Target) : Prop :=
  ∀ an ∈ set, ∃ args rest, an.goals = .call args target :: rest

/-- What is left of the instances whose first call, that of a builtin, holds. -/
def Instance.Passing (set : Set (Instance D)) (builtin : Builtin) (arity : Nat) :
    Set (Instance D) :=
  {an | ∃ args, builtin.Passes args ∧ an ∈ Instance.After set (.call args (.builtin builtin arity))}

/-- What a machine can do. Where the domain is exact, nothing is lost by it. -/
inductive Move (exact : Prop) (context : Context) : Stage D → Stage D → Prop
  | fail {set : Set (Instance D)} {choices : List (Set (Instance D) × List Candidate)}
    (fails : exact → ∀ an ∈ set, ∃ rest, an.goals = .fail :: rest) :
    Move exact context ⟨some set, choices⟩ ⟨none, choices⟩
  | pass {set : Set (Instance D)} {choices : List (Set (Instance D) × List Candidate)}
    {builtin : Builtin} {arity : Nat} (calls : Instance.Calls set (.builtin builtin arity))
    (sure : builtin ≠ .eq → ∀ args, (Instance.After set
      (.call args (.builtin builtin arity))).Nonempty → builtin.Passes args) :
    Move exact context ⟨some set, choices⟩ ⟨some (Instance.Passing set builtin arity), choices⟩
  /-- A builtin does not hold: of no instance if it is `eq`, of some instance else. -/
  | reject {set : Set (Instance D)} {choices : List (Set (Instance D) × List Candidate)}
    {builtin : Builtin} {arity : Nat} (calls : Instance.Calls set (.builtin builtin arity))
    (never : exact → builtin = .eq → Instance.Passing set builtin arity = ∅)
    (unsure : exact → builtin ≠ .eq → set = ∅ ∨ ∃ args, (Instance.After set
      (.call args (.builtin builtin arity))).Nonempty ∧ ¬builtin.Passes args) :
    Move exact context ⟨some set, choices⟩ ⟨none, choices⟩
  | call {set : Set (Instance D)} {choices : List (Set (Instance D) × List Candidate)}
    {goal : Functor} (calls : Instance.Calls set (.predicate goal)) (kept : Candidate → Bool)
    (useless : exact → ∀ candidate ∈ context.candidates goal, kept candidate = false →
      candidate.answers set = ∅) :
    Move exact context ⟨some set, choices⟩
      ⟨none, (set, (context.candidates goal).filter kept) :: choices⟩
  | take {set : Set (Instance D)} {candidate : Candidate} {candidates : List Candidate}
    {choices : List (Set (Instance D) × List Candidate)} :
    Move exact context ⟨none, (set, candidate :: candidates) :: choices⟩
      ⟨some (candidate.answers set), (set, candidates) :: choices⟩
  | skip {set : Set (Instance D)} {candidate : Candidate} {candidates : List Candidate}
    {choices : List (Set (Instance D) × List Candidate)}
    (useless : exact → candidate.answers set = ∅) :
    Move exact context ⟨none, (set, candidate :: candidates) :: choices⟩
      ⟨none, (set, candidates) :: choices⟩
  | pop {current : Option (Set (Instance D))} {set : Set (Instance D)}
    {choices : List (Set (Instance D) × List Candidate)} :
    Move exact context ⟨current, (set, []) :: choices⟩ ⟨current, choices⟩

/-- Moves one after another. -/
abbrev Moves (exact : Prop) (context : Context) : Stage D → Stage D → Prop :=
  Relation.ReflTransGen (Move exact context)

/-! ### Solutions -/

/-- A solution with its arguments and the terms of the attempted rule's variables. -/
structure Trial.Emits (trial : Trial) (solution : Solution) (args values : List Term) :
    Prop where
  rule : solution.rule = trial.entry.rule
  head : solution.head = Term.apply trial.entry.head.symbol args
  bindings : solution.bindings.entries = (trial.compiled.rule.vars.zip values).reverse
  length : values.length = trial.compiled.rule.vars.length
  fresh : ∀ term ∈ args ++ values, ∀ v ∈ term.occurrences, v ∉ trial.compiled.rule.vars

/-- The instances of a solution. -/
def Instance.solved (D : Type) [Domain D] (args values : List Term) : Set (Instance D) :=
  {an | ∃ β, an = ⟨[], args.map (Term.eval β), values.map (Term.eval β)⟩}

end HornMachine
