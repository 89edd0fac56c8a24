import HornMachine.Proofs.Consequences
import HornMachine.Proofs.Machine.Starting
import HornMachine.Proofs.Resolution.Interpreter

/-!
# Instances of branches

A branch stands for its instances, in which terms are put for its variables. Main statements: what a
fact, a clause or a builtin leaves of the instances of a branch are the instances of what resolution
leaves of the branch, and the instances an attempt begins with are those of the branch it begins
with.
-/

namespace HornMachine

section Values

variable {D : Type} [Domain D]

/-- Two assignments, one to the variables below a bound and one to those above, are one. -/
theorem exists_assigns_apart {D : Type} (first : Var) (β σ : Var → D) :
    ∃ γ : Var → D, (∀ v < first, γ v = β v) ∧ ∀ v, γ (first + v) = σ v := by
  refine ⟨fun v ↦ if v < first then β v else σ (v - first), fun v below ↦ if_pos below, fun v ↦ ?_⟩
  exact (if_neg (Nat.not_lt.2 (Nat.le_add_right first v))).trans
    (congrArg σ (Nat.add_sub_cancel_left first v))

theorem Rule.Goal.eval_subst (σ : Var → Term) (β : Var → D) (goal : Goal) :
    (goal.subst σ).eval β = goal.eval fun v ↦ (σ v).eval β := by
  cases goal with
  | fail => rfl
  | call args target =>
    refine congrArg (Task.call · target) ?_
    rw [List.map_map]
    exact List.map_congr_left fun arg _ ↦ Term.eval_subst σ β arg

/-- The values of terms whose variables were set apart. -/
theorem Term.map_eval_apart (first : Var) (γ : Var → D) (terms : List Term) :
    (terms.map (Term.subst (Term.apart first))).map (Term.eval γ) =
      terms.map (Term.eval fun v ↦ γ (first + v)) := by
  rw [List.map_map]
  refine List.map_congr_left fun term _ ↦ (Term.eval_subst _ γ term).trans ?_
  simp only [Term.apart, Term.eval_var]

private theorem Rule.Goal.map_eval_apart (first : Var) (γ : Var → D) (goals : List Goal) :
    (goals.map (subst (Term.apart first))).map (eval γ) =
      goals.map (eval fun v ↦ γ (first + v)) := by
  rw [List.map_map]
  refine List.map_congr_left fun goal _ ↦ (goal.eval_subst _ γ).trans ?_
  simp only [Term.apart, Term.eval_var]

theorem Rule.Goal.eval_congr {β γ : Var → D} {goal : Goal}
    (agree : ∀ v ∈ Term.occurrencesList goal.args, β v = γ v) : goal.eval β = goal.eval γ := by
  cases goal with
  | fail => rfl
  | call args target =>
    refine congrArg (Task.call · target) (List.map_congr_left fun arg member ↦ ?_)
    refine Term.eval_congr fun v occurs ↦ agree v ?_
    rw [Term.occurrencesList_eq_flatMap]
    exact List.mem_flatMap.2 ⟨arg, member, occurs⟩

namespace Resolvent

/-- The instance of a branch when its variables stand for the given values. -/
def eval (β : Var → D) (branch : Resolvent) : Instance D where
  goals := branch.goals.map (Rule.Goal.eval β)
  head := branch.head.map (Term.eval β)
  values := branch.values.map (Term.eval β)

theorem eval_subst (σ : Var → Term) (β : Var → D) (branch : Resolvent) :
    (branch.subst σ).eval β = branch.eval fun v ↦ (σ v).eval β := by
  simp only [eval, subst, List.map_map, Function.comp_def, Rule.Goal.eval_subst, Term.eval_subst]

theorem mem_vars {branch : Resolvent} {v : Var} :
    v ∈ branch.vars ↔ (∃ goal ∈ branch.goals, v ∈ Term.occurrencesList goal.args) ∨
      (∃ term ∈ branch.head, v ∈ term.occurrences) ∨
      ∃ term ∈ branch.values, v ∈ term.occurrences := by
  simp only [vars, Term.occurrencesList_eq_flatMap, List.flatMap_append, List.mem_append,
    List.mem_flatMap, or_assoc]
  constructor
  · rintro (⟨term, ⟨goal, member, inside⟩, occurs⟩ | rest)
    · exact .inl ⟨goal, member, term, inside, occurs⟩
    · exact .inr rest
  · rintro (⟨goal, member, term, inside, occurs⟩ | rest)
    · exact .inl ⟨term, ⟨goal, member, inside⟩, occurs⟩
    · exact .inr rest

/-- The instance depends on the variables of the branch. -/
theorem eval_congr {β γ : Var → D} {branch : Resolvent} (agree : ∀ v ∈ branch.vars, β v = γ v) :
    branch.eval β = branch.eval γ := by
  have goals : branch.goals.map (Rule.Goal.eval β) = branch.goals.map (Rule.Goal.eval γ) :=
    List.map_congr_left fun goal member ↦ Rule.Goal.eval_congr fun v occurs ↦
      agree v (mem_vars.2 (.inl ⟨goal, member, occurs⟩))
  have head : branch.head.map (Term.eval β) = branch.head.map (Term.eval γ) :=
    List.map_congr_left fun term member ↦ Term.eval_congr fun v occurs ↦
      agree v (mem_vars.2 (.inr (.inl ⟨term, member, occurs⟩)))
  have values : branch.values.map (Term.eval β) = branch.values.map (Term.eval γ) :=
    List.map_congr_left fun term member ↦ Term.eval_congr fun v occurs ↦
      agree v (mem_vars.2 (.inr (.inr ⟨term, member, occurs⟩)))
  rw [eval, eval, goals, head, values]

/-- Values for the variables of a call and its branch, and others for those of a clause, are one
assignment. -/
theorem exists_assigns_clause (args : List Term) (rest : Resolvent) (β σ : Var → D) : ∃ γ : Var → D,
    args.map (Term.eval γ) = args.map (Term.eval β) ∧ rest.eval γ = rest.eval β ∧
    ∀ v, γ (freshVar (Term.occurrencesList args ++ rest.vars) + v) = σ v := by
  obtain ⟨γ, agree, assigned⟩ :=
    exists_assigns_apart (freshVar (Term.occurrencesList args ++ rest.vars)) β σ
  refine ⟨γ, List.map_congr_left fun arg member ↦ Term.eval_congr fun v occurs ↦ ?_,
    eval_congr fun v occurs ↦ agree v (lt_freshVar (List.mem_append_right _ occurs)), assigned⟩
  have among : v ∈ Term.occurrencesList args := by
    rw [Term.occurrencesList_eq_flatMap]
    exact List.mem_flatMap.2 ⟨arg, member, occurs⟩
  exact agree v (lt_freshVar (List.mem_append_left _ among))

end Resolvent

end Values

/-! ### Sets of instances -/

namespace Resolvent

/-- The instances of a branch, with terms for its variables. -/
def instances (branch : Resolvent) : Set (Instance Term) := Set.range fun β ↦ branch.eval β

/-- The instances of a branch, if there is one. -/
def shown (branch? : Option Resolvent) : Set (Instance Term) :=
  {an | ∃ branch ∈ branch?, an ∈ branch.instances}

@[simp] theorem shown_none : shown none = ∅ := by simp [shown]

@[simp] theorem shown_some (branch : Resolvent) : shown (some branch) = branch.instances :=
  by simp [shown]

/-- A branch is an instance of itself. -/
theorem self_mem_instances (branch : Resolvent) : branch.eval Term.var ∈ branch.instances :=
  ⟨_, rfl⟩

theorem map_eval_var (terms : List Term) : terms.map (Term.eval Term.var) = terms :=
  (List.map_congr_left fun term _ ↦ (term.eval_eq_subst _).trans term.subst_self).trans
    (List.map_id' _)

/-- The instances that make two lists of terms equal are those of the branch under the most general
unifier. -/
theorem shown_mgu? (branch : Resolvent) (left right : List Term) :
    shown ((Term.mgu? left right).map branch.subst) =
      {an | ∃ β : Var → Term, left.map (Term.eval β) = right.map (Term.eval β) ∧
        an = branch.eval β} := by
  have eval_eq (β : Var → Term) : Term.eval β = Term.subst β :=
    funext fun term ↦ term.eval_eq_subst β
  cases found : Term.mgu? left right with
  | none =>
    rw [Option.map_none, shown_none, eq_comm, Set.eq_empty_iff_forall_notMem]
    rintro an ⟨β, same, -⟩
    rw [eval_eq] at same
    exact Term.ne_of_mgu?_eq_none found β same
  | some σ =>
    have mostGeneral := Term.mostGeneral_of_mgu? found
    rw [Option.map_some, shown_some]
    ext an
    constructor
    · rintro ⟨β, rfl⟩
      refine ⟨fun v ↦ (σ v).eval β, ?_, eval_subst σ β branch⟩
      have under (terms : List Term) : terms.map (Term.eval fun v ↦ (σ v).eval β) =
          (terms.map (Term.subst σ)).map (Term.eval β) := by
        rw [List.map_map]
        exact List.map_congr_left fun term _ ↦ (Term.eval_subst σ β term).symm
      rw [under, under, mostGeneral.unifies]
    · rintro ⟨β, same, rfl⟩
      rw [eval_eq] at same
      refine ⟨β, (eval_subst σ β branch).trans (eval_congr fun v _ ↦ ?_)⟩
      rw [eval_eq, mostGeneral.general β same v]

end Resolvent

/-! ### Calls -/

section Calls

variable {branch : Resolvent} {args : List Term} {target : Target} {goals : List Rule.Goal}
  (front : branch.goals = .call args target :: goals)

include front

/-- What is left of the instances of a branch after the call that it makes. -/
theorem Resolvent.mem_after_iff {values : List Term} {an : Instance Term} :
    an ∈ Instance.After branch.instances (.call values target) ↔
      ∃ β : Var → Term, values = args.map (Term.eval β) ∧
      an = Resolvent.eval β { branch with goals } := by
  obtain ⟨tasks, head, own⟩ := an
  constructor
  · rintro ⟨β, same⟩
    simp only [Resolvent.eval, front, List.map_cons, Rule.Goal.eval, Instance.mk.injEq,
      List.cons.injEq, Task.call.injEq, and_true] at same
    obtain ⟨⟨rfl, rfl⟩, rfl, rfl⟩ := same
    exact ⟨β, rfl, rfl⟩
  · rintro ⟨β, rfl, same⟩
    refine ⟨β, ?_⟩
    cases same
    simp only [Resolvent.eval, front, List.map_cons, Rule.Goal.eval]

end Calls

namespace Candidate

variable {branch : Resolvent} {args : List Term} {goals : List Rule.Goal}

/-- What a fact leaves of the instances of a call. -/
theorem answers_fact {stored : Fact}
    (front : branch.goals = .call args (.predicate stored.functor) :: goals) :
    (Candidate.fact stored).answers branch.instances =
      Resolvent.shown ((Candidate.fact stored).resolve args { branch with goals }) := by
  rw [resolve, Resolvent.shown_mgu?]
  ext an
  refine (Resolvent.mem_after_iff front).trans (exists_congr fun β ↦ and_congr_left fun _ ↦ ?_)
  rw [← stored.values_eq β, eq_comm]

/-- What a clause leaves of the instances of a call. -/
theorem answers_clause {compiled : CompiledRule} (faithful : compiled.Faithful)
    (front : branch.goals = .call args (.predicate compiled.head) :: goals) :
    (Candidate.clause compiled).answers branch.instances =
      Resolvent.shown ((Candidate.clause compiled).resolve args { branch with goals }) := by
  simp only [resolve]
  rw [Resolvent.shown_mgu?]
  ext an
  constructor
  · rintro ⟨η, ρ, tasks, rest, meaning, same, after⟩
    obtain ⟨arguments, rfl⟩ := (faithful.meaning η ρ tasks).1 meaning
    obtain ⟨β, values, left⟩ := (Resolvent.mem_after_iff front).1 after
    -- the clause has variables of its own, so both assignments are parts of one
    obtain ⟨γ, called, others, assigned⟩ :=
      Resolvent.exists_assigns_clause args { branch with goals } β (compiled.assignment η)
    refine ⟨γ, ?_, ?_⟩
    · rw [Term.map_eval_apart, called, ← values, arguments, funext assigned]
    · rw [← others] at left
      obtain ⟨goals_eq, head, own⟩ := an
      simp only [Resolvent.eval, Instance.mk.injEq] at left same ⊢
      obtain ⟨rfl, rfl, rfl⟩ := left
      refine ⟨?_, rfl, rfl⟩
      rw [same, List.map_append, Rule.Goal.map_eval_apart, funext assigned]
  · rintro ⟨γ, unified, rfl⟩
    rw [Term.map_eval_apart] at unified
    obtain ⟨η, assigned⟩ := compiled.exists_assignment fun v ↦
      γ (freshVar (Term.occurrencesList args ++ Resolvent.vars { branch with goals }) + v)
    obtain ⟨ρ, arguments⟩ := CompiledRule.exists_map_range (args.map (Term.eval γ))
    have count : (args.map (Term.eval γ)).length = compiled.head.arity := by
      rw [unified, List.length_map, (Rule.functor?_eq_some faithful.functor).1]
    rw [count] at arguments
    refine ⟨η, ρ, compiled.goals.map (Rule.Goal.eval (compiled.assignment η)),
      goals.map (Rule.Goal.eval γ),
      (faithful.meaning η ρ _).2 ⟨?_, rfl⟩, ?_,
        (Resolvent.mem_after_iff front).2 ⟨γ, arguments, rfl⟩⟩
    · rw [arguments, unified, CompiledRule.eval_head_congr assigned]
    · rw [CompiledRule.eval_goals_congr assigned, ← Rule.Goal.map_eval_apart, ← List.map_append]
      rfl

end Candidate

/-! ### Builtins -/

namespace Builtin

variable {args : List Term} {rest left : Resolvent} {builtin : Builtin}

/-- Terms are told apart if they are ground and different, an atom being a structure without
arguments. -/
theorem distinct_iff : Distinct args ↔
    (∀ arg ∈ args, arg.isGround = Bool.true) ∧ (args.map Term.collapse).Nodup := by
  have itself {terms : List Term} (ground : ∀ term ∈ terms, term.isGround = Bool.true)
    (β : Var → Term) :
      terms = terms.map (Term.eval β) := by
    refine ((List.map_congr_left fun term member ↦ ?_).trans (List.map_id' _)).symm
    rw [Term.eval_eq_subst, Term.subst_of_isGround (ground term member)]
  constructor
  · rintro ⟨terms, ground, different, same⟩
    obtain rfl : args = terms := (same default).trans (itself ground default).symm
    exact ⟨ground, different⟩
  · rintro ⟨ground, different⟩
    exact ⟨args, ground, different, itself ground⟩

private theorem tellsApart_iff (canonical : ∀ arg ∈ args, arg.Canonical) :
    Term.tellsApart args = Bool.true ↔ Distinct args := by
  have same : args.map Term.collapse = args :=
    (List.map_congr_left fun arg member ↦ (canonical arg member).collapse).trans (List.map_id' _)
  rw [distinct_iff, same, Term.tellsApart, Bool.and_eq_true, List.all_eq_true, decide_eq_true_eq]

/-- A test keeps a branch if it holds of its arguments as they are. -/
theorem resolve_test (test : builtin ≠ .eq) (canonical : ∀ arg ∈ args, arg.Canonical) :
    (builtin.Passes args → builtin.resolve args rest = some rest) ∧
      (¬builtin.Passes args → builtin.resolve args rest = none) := by
  cases builtin with
  | eq => exact absurd rfl test
  | true => exact ⟨fun _ ↦ rfl, fun fails ↦ absurd trivial fails⟩
  | neq =>
    have same := and_congr_right_iff.2 fun _ : args.length = 2 ↦ tellsApart_iff canonical
    exact ⟨fun passes ↦ if_pos (same.2 passes), fun fails ↦ if_neg (fails ∘ same.1)⟩
  | distinct =>
    have same := tellsApart_iff canonical
    exact ⟨fun passes ↦ if_pos (same.2 passes), fun fails ↦ if_neg (fails ∘ same.1)⟩

/-- A test that holds of terms holds of their instances. -/
theorem Passes.map_eval (passes : builtin.Passes args) (test : builtin ≠ .eq) (β : Var → Term) :
    builtin.Passes (args.map (Term.eval β)) := by
  have unchanged (distinct : Distinct args) : args.map (Term.eval β) = args := by
    refine (List.map_congr_left fun arg member ↦ ?_).trans (List.map_id' _)
    rw [Term.eval_eq_subst, Term.subst_of_isGround ((distinct_iff.1 distinct).1 arg member)]
  cases builtin with
  | eq => exact absurd rfl test
  | true => trivial
  | neq => rwa [unchanged passes.2]
  | distinct => rwa [unchanged passes]

section Calls

variable {branch : Resolvent} {arity : Nat} {goals : List Rule.Goal}
  (front : branch.goals = .call args (.builtin builtin arity) :: goals)

include front

/-- What a builtin leaves of the instances of a call: those of which it holds. -/
theorem mem_passing_iff {an : Instance Term} :
    an ∈ Instance.Passing branch.instances builtin arity ↔
    ∃ β : Var → Term, builtin.Passes (args.map (Term.eval β)) ∧
      an = Resolvent.eval β { branch with goals } := by
  constructor
  · rintro ⟨values, passes, after⟩
    obtain ⟨β, rfl, rfl⟩ := (Resolvent.mem_after_iff front).1 after
    exact ⟨β, passes, rfl⟩
  · rintro ⟨β, passes, rfl⟩
    exact ⟨_, passes, (Resolvent.mem_after_iff front).2 ⟨β, rfl, rfl⟩⟩

/-- A unification leaves the instances that make its arguments equal. -/
theorem passing_eq (unifies : builtin = .eq) : Instance.Passing branch.instances builtin arity =
    Resolvent.shown (builtin.resolve args { branch with goals }) := by
  ext an
  rw [mem_passing_iff front]
  subst unifies
  simp only [Passes, resolve]
  split
  · next left right =>
    rw [Resolvent.shown_mgu?]
    simp [eq_comm]
  · next other =>
    rw [Resolvent.shown_none]
    refine iff_of_false ?_ (Set.notMem_empty an)
    rintro ⟨β, ⟨value, same⟩, -⟩
    obtain ⟨left, right, rfl⟩ := List.length_eq_two.1 (by simpa using congrArg List.length same)
    exact other left right rfl

/-- A test that holds leaves them all. -/
theorem passing_test (test : builtin ≠ .eq) (passes : builtin.Passes args) :
    Instance.Passing branch.instances builtin arity =
      Resolvent.instances { branch with goals } := by
  ext an
  rw [mem_passing_iff front]
  exact exists_congr fun β ↦ (and_iff_right (passes.map_eval test β)).trans eq_comm

end Calls

end Builtin

/-! ### Attempts -/

section Attempts

variable {D : Type} [Domain D] {compiled : CompiledRule}

/-- The value of a canonical term that has a functor. -/
theorem Term.Canonical.eval_eq {term : Term} (canonical : term.Canonical) {functor : Functor}
    (called : term.functor? = some functor) (β : Var → D) :
    term.eval β = Domain.apply functor.symbol (term.args.map (Term.eval β)) := by
  conv_lhs => rw [← canonical.apply_args called, Term.eval_apply]

/-- Terms with one functor have the same value if their arguments have. -/
theorem Term.Canonical.eval_eq_iff {a b : Term} (canonical : a.Canonical) (canonical' : b.Canonical)
    {functor : Functor} (called : a.functor? = some functor) (called' : b.functor? = some functor)
    {β γ : Var → D} :
    a.eval β = b.eval γ ↔ a.args.map (Term.eval β) = b.args.map (Term.eval γ) := by
  rw [canonical.eval_eq called, canonical'.eval_eq called', Domain.apply_inj, and_iff_right rfl]

/-- Terms with the same value have the same functor. -/
theorem Term.Canonical.functor_eq {a b : Term} (canonical : a.Canonical) (canonical' : b.Canonical)
    {functor functor' : Functor} (called : a.functor? = some functor)
    (called' : b.functor? = some functor')
    {β γ : Var → D} (same : a.eval β = b.eval γ) : functor = functor' := by
  rw [canonical.eval_eq called, canonical'.eval_eq called', Domain.apply_inj] at same
  have count := congrArg List.length same.2
  rw [List.length_map, List.length_map, (Rule.functor?_eq_some called).1,
    (Rule.functor?_eq_some called').1] at count
  cases functor
  cases functor'
  rw [Functor.mk.injEq]
  exact ⟨same.1, count⟩

omit [Domain D] in
/-- The slots hold what the variables stand for. -/
theorem CompiledRule.map_assignment_vars (compiled : CompiledRule) (η : Nat → D) :
    compiled.rule.vars.map (compiled.assignment η) =
      (List.range compiled.rule.vars.length).map η := by
  refine List.ext_getElem (by simp) fun index lower _ ↦ ?_
  rw [List.length_map] at lower
  rw [List.getElem_map, List.getElem_map, List.getElem_range, assignment]
  exact congrArg η ((Term.nodup_distinct compiled.rule.occurrences).idxOf_getElem index lower)

namespace CompiledRule.Faithful

variable (faithful : compiled.Faithful)

include faithful

/-- What a rule is attempted with: an instance of the rule whose arguments are those of the goal. -/
theorem mem_attempts_iff {goal : Option Term} {an : Instance D} : an ∈ compiled.attempts D goal ↔
    (∃ σ : Var → D, an = compiled.resolvent.eval σ) ∧
      ∀ term ∈ goal, ∃ β, an.head = term.args.map (Term.eval β) := by
  have own (σ : Var → D) : (compiled.rule.vars.map Term.var).map (Term.eval σ) =
    compiled.rule.vars.map σ := by
    rw [List.map_map]
    exact List.map_congr_left fun v _ ↦ Term.eval_var σ v
  have size : compiled.frameSize = compiled.rule.vars.length := by
    rw [frameSize, faithful.slots, List.length_zipIdx]
  obtain ⟨tasks, head, values⟩ := an
  refine ⟨?_, ?_⟩
  · rintro ⟨η, ρ, meaning, rfl, rfl, instances⟩
    obtain ⟨arguments, rfl⟩ := (faithful.meaning η ρ tasks).1 meaning
    refine ⟨⟨compiled.assignment η, ?_⟩, instances⟩
    simp only [Resolvent.eval, resolvent, own, map_assignment_vars, arguments, size]
  · rintro ⟨⟨σ, same⟩, instances⟩
    obtain ⟨η, assigned⟩ := compiled.exists_assignment σ
    obtain ⟨ρ, arguments⟩ := exists_map_range (compiled.rule.head.args.map (Term.eval σ))
    rw [List.length_map, (Rule.functor?_eq_some faithful.functor).1] at arguments
    simp only [Resolvent.eval, resolvent, own, Instance.mk.injEq] at same
    obtain ⟨rfl, rfl, rfl⟩ := same
    refine ⟨η, ρ, (faithful.meaning η ρ _).2 ⟨?_, ?_⟩, arguments.symm, ?_, instances⟩
    · rw [arguments, eval_head_congr assigned]
    · rw [eval_goals_congr assigned]
    · rw [size, ← map_assignment_vars]
      exact (List.map_congr_left assigned).symm

/-- The instances that an attempt begins with are those of the branch it begins with. -/
theorem attempts_eq (canonical : compiled.rule.head.Canonical) {goal : Option Term}
    (goal_canonical : ∀ term ∈ goal, term.Canonical)
    (called : ∀ term ∈ goal, term.functor? = some compiled.head) :
    compiled.attempts Term goal = Resolvent.shown (compiled.attempt goal) := by
  ext an
  rw [faithful.mem_attempts_iff]
  cases goal with
  | none =>
    rw [attempt, Resolvent.shown_some]
    simp [Resolvent.instances, eq_comm]
  | some term =>
    simp only [attempt, Option.mem_def, Option.some.injEq, forall_eq'] at goal_canonical called ⊢
    rw [Resolvent.shown_mgu?]
    generalize first_eq : freshVar term.occurrences = first
    have own (γ : Var → Term) : (fun v ↦ (Term.apart first v).eval γ) = fun v ↦ γ (first + v) := by
      simp only [Term.apart, Term.eval_var]
    have unified (γ : Var → Term) :
        [compiled.rule.head.subst (Term.apart first)].map (Term.eval γ) = [term].map (Term.eval γ) ↔
          compiled.rule.head.args.map (Term.eval fun v ↦ γ (first + v)) =
            term.args.map (Term.eval γ) := by
      rw [← canonical.eval_eq_iff goal_canonical faithful.functor called]
      rw [List.map_singleton, List.map_singleton, List.singleton_inj, Term.eval_subst, own]
    constructor
    · rintro ⟨⟨σ, rfl⟩, β, same⟩
      obtain ⟨γ, agree, assigned⟩ := exists_assigns_apart first β σ
      refine ⟨γ, (unified γ).2 ?_, ?_⟩
      · rw [funext assigned]
        refine same.trans (List.map_congr_left fun arg member ↦ Term.eval_congr fun v occurs ↦ ?_)
        exact (agree v (first_eq ▸ lt_freshVar
          (Term.mem_occurrences_of_mem_args member occurs))).symm
      · rw [Resolvent.eval_subst, own, funext assigned]
    · rintro ⟨γ, same, rfl⟩
      rw [Resolvent.eval_subst, own]
      exact ⟨⟨_, rfl⟩, γ, (unified γ).1 same⟩

end CompiledRule.Faithful

end Attempts

end HornMachine
