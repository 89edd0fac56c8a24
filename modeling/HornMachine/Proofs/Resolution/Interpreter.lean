import HornMachine.Proofs.Machine.Stage
import HornMachine.Proofs.Resolution.Unifier

/-!
# Resolution

What the machine answers can be said without registers, heap and choice points. The interpreter here
works on terms. A branch of its search has goals left to do, from left to right, and knows what the
arguments and variables of the attempted rule have become. A call of a predicate is resolved with
each stored fact of its functor and then with each clause, whose variables are new; what follows
from one candidate is searched to the end before the next. Unifiers are most general ones.
-/

namespace HornMachine

/-! ### New variables -/

/-- The least variable above all of those given. -/
def freshVar (vars : List Var) : Var := vars.foldr (fun v least ↦ max (v + 1) least) 0

theorem lt_freshVar {vars : List Var} {v : Var} (member : v ∈ vars) : v < freshVar vars := by
  induction vars with
  | nil => cases member
  | cons first vars ih =>
    obtain rfl | later := List.mem_cons.1 member
    · exact Nat.lt_of_lt_of_le (Nat.lt_succ_self v) (Nat.le_max_left _ _)
    · exact Nat.lt_of_lt_of_le (ih later) (Nat.le_max_right _ _)

/-- A variable of a rule is moved up, past all variables below `first`. -/
def Term.apart (first : Var) (v : Var) : Term := .var (first + v)

namespace Rule.Goal

/-- The arguments of a goal. -/
def args : Goal → List Term
  | .fail => []
  | .call args _ => args

/-- An instance of a goal. -/
def subst (σ : Var → Term) : Goal → Goal
  | .fail => .fail
  | .call args target => .call (args.map (Term.subst σ)) target

end Rule.Goal

/-! ### Branches -/

/-- A branch of the search, with what the attempted rule has become in it. -/
structure Resolvent where
  goals : List Rule.Goal
  head : List Term
  values : List Term

namespace Resolvent

/-- The variables of a branch. -/
def vars (branch : Resolvent) : List Var :=
  Term.occurrencesList (branch.goals.flatMap Rule.Goal.args ++ branch.head ++ branch.values)

/-- An instance of a branch. -/
def subst (σ : Var → Term) (branch : Resolvent) : Resolvent where
  goals := branch.goals.map (Rule.Goal.subst σ)
  head := branch.head.map (Term.subst σ)
  values := branch.values.map (Term.subst σ)

end Resolvent

/-- Whether terms are ground and all different. -/
def Term.tellsApart (terms : List Term) : Bool := terms.all isGround && decide terms.Nodup

/-- What is left of a branch when a builtin is called: a unification makes an instance of it, a test
leaves it as it is. -/
def Builtin.resolve (args : List Term) (rest : Resolvent) : Builtin → Option Resolvent
  | .true => some rest
  | .eq =>
    match args with
    | [left, right] => (Term.mgu? [left] [right]).map rest.subst
    | _ => none
  | .neq => if args.length = 2 ∧ Term.tellsApart args = Bool.true then some rest else none
  | .distinct => if Term.tellsApart args then some rest else none

/-- What is left of a branch when a candidate answers a call: for a fact, an instance of the rest;
for a clause, its goals come before the rest. -/
def Candidate.resolve (args : List Term) (rest : Resolvent) : Candidate → Option Resolvent
  | .fact stored => (Term.mgu? args stored.args).map rest.subst
  | .clause compiled =>
    let own := Term.apart (freshVar (Term.occurrencesList args ++ rest.vars))
    (Term.mgu? args (compiled.rule.head.args.map (Term.subst own))).map
      { rest with goals := compiled.goals.map (Rule.Goal.subst own) ++ rest.goals }.subst

namespace Resolvent

variable (context : Context)

/-- The branches that the next goal of a branch leads to, in the order they are searched. -/
def next (branch : Resolvent) : List Resolvent :=
  match branch.goals with
  | [] | .fail :: _ => []
  | .call args (.builtin builtin _) :: goals => (builtin.resolve args { branch with goals }).toList
  | .call args (.predicate functor) :: goals =>
    (context.candidates functor).filterMap (Candidate.resolve args { branch with goals })

/-- The branches without goals that are met, searching the given branches one after another and each
to the end. Nothing is said if more than `fuel` branches are met. -/
def search : Nat → List Resolvent → Option (List Resolvent)
  | _, [] => some []
  | 0, _ :: _ => none
  | fuel + 1, branch :: rest =>
    match branch.goals with
    | [] => (search fuel rest).map (branch :: ·)
    | _ :: _ => search fuel (branch.next context ++ rest)

/-- The solution of a branch without goals. -/
def solution (rule : RuleId) (compiled : CompiledRule) (branch : Resolvent) : Solution where
  rule := rule
  head := Term.apply compiled.head.symbol branch.head
  bindings := .ofEntries (compiled.rule.vars.zip branch.values).reverse

end Resolvent

/-- The branch of a rule that is attempted. -/
def CompiledRule.resolvent (compiled : CompiledRule) : Resolvent where
  goals := compiled.goals
  head := compiled.rule.head.args
  values := compiled.rule.vars.map Term.var

/-- The branch that an attempt begins with: a goal is unified with the head. -/
def CompiledRule.attempt (compiled : CompiledRule) : Option Term → Option Resolvent
  | none => some compiled.resolvent
  | some goal =>
    let own := Term.apart (freshVar goal.occurrences)
    (Term.mgu? [compiled.rule.head.subst own] [goal]).map (compiled.resolvent.subst own).subst

/-- The solutions of a rule by resolution, unless more than `fuel` branches are met. -/
def Context.answers (context : Context) (fuel : Nat) (rule : RuleId) (goal : Option Term) :
    Option (List Solution) := do
  let compiled ← context.program.rule? rule
  let found ← Resolvent.search context fuel (compiled.attempt goal).toList
  some (found.map (Resolvent.solution rule compiled))

theorem Context.answers_eq {context : Context} {rule : RuleId} {compiled : CompiledRule}
    (listed : context.program.rule? rule = some compiled) (fuel : Nat) (goal : Option Term) :
    context.answers fuel rule goal =
      (Resolvent.search context fuel (compiled.attempt goal).toList).map
      (List.map (Resolvent.solution rule compiled)) := by
  rw [Option.map_eq_bind]
  simp only [answers, listed, Option.bind_eq_bind, Option.bind_some, Function.comp_def]

/-! ### More fuel -/

namespace Resolvent

variable {context : Context} {fuel : Nat} {branches found : List Resolvent}

private theorem search_succ (ended : search context fuel branches = some found) :
    search context (fuel + 1) branches = some found := by
  induction fuel generalizing branches found with
  | zero =>
    cases branches with
    | nil => exact ended
    | cons => cases ended
  | succ fuel ih =>
    cases branches with
    | nil => exact ended
    | cons branch rest =>
      rw [search] at ended ⊢
      cases goals : branch.goals with
      | nil =>
        simp only [goals] at ended ⊢
        obtain ⟨others, first, rfl⟩ := Option.map_eq_some_iff.1 ended
        rw [ih first]
        rfl
      | cons goal goals =>
        simp only [goals] at ended ⊢
        exact ih ended

private theorem search_of_le {more : Nat} (enough : fuel ≤ more)
    (ended : search context fuel branches = some found) :
    search context more branches = some found := by
  induction enough with
  | refl => exact ended
  | step _ ih => exact search_succ ih

end Resolvent

/-- The solutions do not depend on the fuel, if it is enough. -/
theorem Context.answers_unique {context : Context} {fuel more : Nat} {rule : RuleId}
    {goal : Option Term}
    {found other : List Solution} (ended : context.answers fuel rule goal = some found)
    (ended' : context.answers more rule goal = some other) : found = other := by
  cases listed : context.program.rule? rule with
  | none =>
    rw [answers, listed] at ended
    cases ended
  | some compiled =>
    rw [answers_eq listed] at ended ended'
    obtain ⟨branches, searched, rfl⟩ := Option.map_eq_some_iff.1 ended
    obtain ⟨branches', searched', rfl⟩ := Option.map_eq_some_iff.1 ended'
    have same := (Resolvent.search_of_le (Nat.le_max_left fuel more) searched).symm.trans
      (Resolvent.search_of_le (Nat.le_max_right fuel more) searched')
    rw [Option.some.inj same]

end HornMachine
