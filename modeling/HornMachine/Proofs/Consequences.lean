import HornMachine.Proofs.Bindings.Solution
import HornMachine.Proofs.Machine.Justification
import Mathlib.Order.Bounds.Basic
import Mathlib.Data.Set.Lattice

/-!
# Consequences of a program

A set of ground terms is closed if it contains the stored facts and, with the goals of a ground
instance of a rule, its head. The least such set are the consequences of the program and the facts.
Main statement: whatever ground terms are put for the variables that a solution leaves unbound, the
head of the attempted rule is a consequence, and so is every goal of its body that calls a
predicate; the builtins it calls hold.
-/

namespace HornMachine

/-! ### The least set -/

/-- What a builtin says of ground terms. -/
def Builtin.Holds : Builtin → List Term → Prop
  | .true, _ => True
  | .eq, args => ∃ term, args = [term, term]
  | .neq, args => ∃ left right, args = [left, right] ∧ left ≠ right
  | .distinct, args => args.Nodup

/-- A goal is true in a set of ground terms when its variables stand for the given terms. -/
def Rule.Goal.TrueIn (set : Set Term) (σ : Var → Term) : Rule.Goal → Prop
  | .fail => False
  | .call args (.predicate functor) => Term.apply functor.symbol (args.map (Term.subst σ)) ∈ set
  | .call args (.builtin builtin _) => builtin.Holds (args.map (Term.subst σ))

namespace Program

/-- A set of ground terms that contains the stored facts and is closed under ground instances of the
rules. -/
structure Closed (program : Program) (store : FactStore) (set : Set Term) : Prop where
  ground : ∀ term ∈ set, term.isGround = true
  facts : ∀ fact, store.contains fact → fact.term ∈ set
  rules : ∀ id compiled (σ : Var → Term), program.rule? id = some compiled →
    (∀ v, (σ v).isGround = true) → (∀ goal ∈ compiled.goals, goal.TrueIn set σ) →
    compiled.rule.head.subst σ ∈ set

/-- What follows from a program and facts. -/
def consequences (program : Program) (store : FactStore) : Set Term :=
  ⋂₀ {set | program.Closed store set}

end Program

theorem Rule.Goal.TrueIn.mono {set larger : Set Term} (subset : set ⊆ larger) {σ : Var → Term}
    {goal : Rule.Goal} (true_in : goal.TrueIn set σ) : goal.TrueIn larger σ := by
  cases goal with
  | fail => exact true_in
  | call args target =>
    cases target with
    | builtin => exact true_in
    | predicate => exact subset true_in

theorem Program.isLeast_consequences (program : Program) (store : FactStore) :
    IsLeast {set | program.Closed store set} (program.consequences store) := by
  refine ⟨⟨fun term member ↦ ?_, fun fact stored ↦ ?_, fun id compiled σ found ground true_in ↦ ?_⟩,
    fun set closed ↦ Set.sInter_subset_of_mem closed⟩
  · -- all ground terms together are closed
    refine member {term | term.isGround = true} ⟨fun _ ↦ id, fun fact _ ↦ fact.ground, ?_⟩
    intro _ _ σ _ ground _
    refine Term.isGround_subst fun v _ ↦ ground v
  · exact fun set closed ↦ closed.facts fact stored
  · intro set closed
    exact closed.rules id compiled σ found ground fun goal member ↦
      (true_in goal member).mono (Set.sInter_subset_of_mem closed)

/-! ### Terms with structures without arguments -/

namespace Term

/-- The ground term that a value is read as: an atom for a structure without arguments, and such a
structure for a variable, so that every ground term is what some value is read as. -/
def sealed (term : Term) : Term := term.collapse.subst fun v ↦ .struct ⟨v⟩ []

private theorem isGround_sealed (term : Term) : term.sealed.isGround = true :=
  isGround_subst fun v _ ↦ isGround_iff.2 (by simp [mem_occurrences_struct])

/-- Sealing the values of a term's variables seals its value. -/
theorem sealed_subst (σ : Var → Term) (term : Term) :
    (term.subst σ).sealed = term.collapse.subst fun v ↦ (σ v).sealed := by
  rw [sealed, collapse_subst, subst_subst]
  rfl

private theorem Canonical.sealed_subst {term : Term} (canonical : term.Canonical) (σ : Var → Term) :
    (term.subst σ).sealed = term.subst fun v ↦ (σ v).sealed := by
  rw [Term.sealed_subst, canonical.collapse]

private theorem sealed_of_isGround {term : Term} (ground : term.isGround = true) :
    term.sealed = term.collapse :=
  subst_of_isGround (by rwa [isGround_collapse]) _

/-- Every ground term is a sealed one. -/
theorem exists_sealed {term : Term} (ground : term.isGround = true) :
    ∃ other : Term, other.sealed = term := by
  induction term with
  | atom symbol => exact ⟨.atom symbol, by simp [sealed, collapse]⟩
  | num value => exact ⟨.num value, by simp [sealed, collapse]⟩
  | var v => cases ground
  | struct symbol args ih =>
    cases args with
    | nil => exact ⟨.var symbol.id, by simp [sealed, collapse]⟩
    | cons arg args =>
      have each (inner) (member : inner ∈ arg :: args) :=
        ih inner member (isGround_of_mem ground member)
      choose! other same using each
      refine ⟨.struct symbol ((arg :: args).map other), ?_⟩
      rw [sealed, collapse_struct, subst_apply, List.map_map, List.map_map]
      refine (congrArg (apply symbol) ((List.map_congr_left same).trans (List.map_id' _))).trans ?_
      rfl

/-- A canonical atom or structure is its name applied to its arguments. -/
theorem Canonical.apply_args {term : Term} (canonical : term.Canonical) {functor : Functor}
    (found : term.functor? = some functor) : Term.apply functor.symbol term.args = term := by
  cases term with
  | atom symbol =>
    cases found
    rfl
  | struct symbol args =>
    obtain ⟨some_args, -⟩ := allFunctors_struct.1 canonical
    simp only [functor?] at found
    split at found
    · cases found
      cases args with
      | nil => exact absurd some_args (Nat.lt_irrefl 0)
      | cons arg args => rfl
    · cases found
  | var | num => cases found

end Term

/-- What a builtin passes holds of what the values are read as. -/
theorem Builtin.Passes.holds {builtin : Builtin} {args : List Term} (passes : builtin.Passes args) :
    builtin.Holds (args.map Term.sealed) := by
  have different (distinct : Builtin.Distinct args) : (args.map Term.sealed).Nodup := by
    obtain ⟨terms, ground, nodup, same⟩ := distinct
    have values : args = terms := by
      rw [same .var, List.map_congr_left fun term _ ↦
        (term.eval_eq_subst .var).trans term.subst_self, List.map_id']
    rw [values, List.map_congr_left fun term member ↦ Term.sealed_of_isGround (ground term member)]
    exact nodup
  cases builtin with
  | true => exact trivial
  | eq =>
    obtain ⟨value, rfl⟩ := passes
    exact ⟨value.sealed, rfl⟩
  | neq =>
    obtain ⟨two, distinct⟩ := passes
    obtain ⟨left, right, rfl⟩ := List.length_eq_two.1 two
    exact ⟨left.sealed, right.sealed, rfl, by simpa using different distinct⟩
  | distinct => exact different passes

/-! ### The model of a closed set -/

namespace CompiledRule

/-- A goal of a compiled rule is a goal of the rule's body with its target. -/
theorem exists_of_mem_goals {compiled : CompiledRule} {goal : Rule.Goal}
    (member : goal ∈ compiled.goals) :
    ∃ term ∈ compiled.rule.body, ∃ target, goal = goalOf term target := by
  obtain ⟨index, lower, rfl⟩ := List.getElem_of_mem member
  simp only [goals, List.length_zipWith] at lower
  exact ⟨compiled.rule.body[index], List.getElem_mem (by omega), _, List.getElem_zipWith⟩

/-- Its arguments are arguments of a goal of the body. -/
theorem exists_of_call_mem_goals {compiled : CompiledRule} {args : List Term} {target : Target}
    (member : .call args target ∈ compiled.goals) :
    ∃ term ∈ compiled.rule.body, args = term.args := by
  obtain ⟨term, among, other, same⟩ := exists_of_mem_goals member
  cases other with
  | none => cases same
  | some other =>
    cases same
    exact ⟨term, among, rfl⟩

variable {D : Type} [Domain D] {compiled : CompiledRule}

/-- What the goals of a rule become depends on the variables of the rule. -/
theorem eval_goals_congr {σ τ : Var → D} (agree : ∀ v ∈ compiled.rule.vars, σ v = τ v) :
    compiled.goals.map (Rule.Goal.eval σ) = compiled.goals.map (Rule.Goal.eval τ) := by
  refine List.map_congr_left fun goal member ↦ ?_
  cases goal with
  | fail => rfl
  | call args target =>
    obtain ⟨term, among, rfl⟩ := exists_of_call_mem_goals member
    refine congrArg (Task.call · target) (List.map_congr_left fun arg inside ↦ ?_)
    exact Term.eval_congr fun v occurs ↦ agree v <|
      Rule.mem_vars.2 (.inr ⟨term, among, Term.mem_occurrences_of_mem_args inside occurs⟩)

/-- So does what the arguments of its head become. -/
theorem eval_head_congr {σ τ : Var → D} (agree : ∀ v ∈ compiled.rule.vars, σ v = τ v) :
    compiled.rule.head.args.map (Term.eval σ) = compiled.rule.head.args.map (Term.eval τ) :=
  List.map_congr_left fun _ member ↦ Term.eval_congr fun v occurs ↦ agree v <|
    Rule.mem_vars.2 (.inl (Term.mem_occurrences_of_mem_args member occurs))

omit [Domain D] in
/-- Slots can hold any values of the variables. -/
theorem exists_assignment (compiled : CompiledRule) (σ : Var → D) :
    ∃ η, ∀ v ∈ compiled.rule.vars, compiled.assignment η v = σ v := by
  refine ⟨fun index ↦ σ (compiled.rule.vars[index]?.getD 0), fun v member ↦ ?_⟩
  have lower := List.idxOf_lt_length_of_mem member
  rw [assignment, List.getElem?_eq_getElem lower, Option.getD_some, List.getElem_idxOf lower]

/-- Registers can hold any values. -/
theorem exists_map_range (values : List D) :
    ∃ ρ : Nat → D, (List.range values.length).map ρ = values := by
  refine ⟨fun index ↦ values[index]?.getD default,
    List.ext_getElem (by simp) fun index _ lower ↦ ?_⟩
  rw [List.getElem_map, List.getElem_range, List.getElem?_eq_getElem lower, Option.getD_some]

end CompiledRule

/-- Whether a goal is true depends on the variables of the rule. -/
theorem Rule.Goal.TrueIn.congr {compiled : CompiledRule} {set : Set Term} {σ τ : Var → Term}
    {goal : Rule.Goal} (member : goal ∈ compiled.goals)
    (agree : ∀ v ∈ compiled.rule.vars, σ v = τ v)
    (true_in : goal.TrueIn set σ) : goal.TrueIn set τ := by
  cases goal with
  | fail => exact true_in
  | call args target =>
    obtain ⟨term, among, rfl⟩ := CompiledRule.exists_of_call_mem_goals member
    have same : term.args.map (Term.subst σ) = term.args.map (Term.subst τ) :=
      List.map_congr_left fun arg inside ↦ Term.subst_congr fun v occurs ↦ agree v <|
        Rule.mem_vars.2 (.inr ⟨term, among, Term.mem_occurrences_of_mem_args inside occurs⟩)
    cases target with
    | builtin =>
      rw [TrueIn, ← same]
      exact true_in
    | predicate =>
      rw [TrueIn, ← same]
      exact true_in

/-- A task is true in a set of ground terms as its values are read. -/
def Task.TrueIn (set : Set Term) : Task Term → Prop
  | .fail => False
  | .call args (.predicate functor) => Term.apply functor.symbol (args.map Term.sealed) ∈ set
  | .call args (.builtin builtin _) => builtin.Passes args

/-- A goal with canonical arguments is true if its task is. -/
theorem Task.TrueIn.goal {set : Set Term} {σ : Var → Term} {goal : Rule.Goal}
    (canonical : ∀ args target, goal = .call args target → ∀ arg ∈ args, arg.Canonical)
    (true_in : (goal.eval σ).TrueIn set) : goal.TrueIn set fun v ↦ (σ v).sealed := by
  cases goal with
  | fail => exact true_in
  | call args target =>
    have same : (args.map (Term.eval σ)).map Term.sealed =
        args.map (Term.subst fun v ↦ (σ v).sealed) := by
      rw [List.map_map]
      refine List.map_congr_left fun arg member ↦ ?_
      rw [Function.comp_apply, Term.eval_eq_subst]
      exact (canonical args target rfl arg member).sealed_subst σ
    cases target with
    | builtin builtin arity =>
      rw [Rule.Goal.TrueIn, ← same]
      exact Builtin.Passes.holds true_in
    | predicate functor =>
      rw [Rule.Goal.TrueIn, ← same]
      exact true_in

section Model

variable {program : Program} {context : Context}
  (built : program.Built (Rule.AllFunctors fun functor ↦ 0 < functor.arity))
  (named : program.registers ≤ Emit.maxRegister)

include built

/-- Rules of a program built from canonical rules are canonical. -/
theorem Program.Built.canonical {id : RuleId} {compiled : CompiledRule}
    (found : program.rule? id = some compiled) :
    compiled.rule.head.Canonical ∧ ∀ args target, .call args target ∈ compiled.goals →
      ∀ arg ∈ args, arg.Canonical := by
  obtain ⟨-, -, kinds, -⟩ := built.tryCompile found
  refine ⟨kinds.1, fun args target member arg inside ↦ ?_⟩
  obtain ⟨term, among, rfl⟩ := CompiledRule.exists_of_call_mem_goals member
  exact (kinds.2 term among).of_mem_args inside

include named

/-- The tasks that are true in a closed set make a model. -/
theorem Program.Closed.model {set : Set Term} (canonical : context.Canonical program)
    (closed : program.Closed context.store set) : context.Model (Task.TrueIn set) where
  fact functor stored listed := by
    have known := canonical.contains_of_mem listed
    have stored_canonical := canonical.facts stored known
    have values : (stored.values : List Term).map Term.sealed = stored.args := by
      rw [← stored.values_eq .var, List.map_map]
      refine (List.map_congr_left fun arg member ↦ ?_).trans (List.map_id' _)
      have arg_ground : arg.isGround = true := Term.isGround_iff.2 fun v occurs ↦
        Term.isGround_iff.1 stored.ground v (Term.mem_occurrences_of_mem_args member occurs)
      rw [Function.comp_apply, Term.eval_eq_subst, Term.subst_self,
        Term.sealed_of_isGround arg_ground,
        Term.Canonical.collapse (stored_canonical.of_mem_args member)]
    rw [Task.TrueIn, values]
    exact stored_canonical.apply_args stored.functor?_term ▸ closed.facts stored known
  builtin _ _ _ passes := passes
  rule id compiled η ρ tasks found meaning body := by
    have found := canonical.program ▸ found
    have faithful := built.faithful named found
    obtain ⟨head_canonical, goals_canonical⟩ := built.canonical found
    obtain ⟨args, rfl⟩ := (faithful.meaning η ρ tasks).1 meaning
    have concluded := closed.rules id compiled (fun v ↦ (compiled.assignment η v).sealed) found
      (fun v ↦ Term.isGround_sealed _) fun goal member ↦
        (body _ (List.mem_map_of_mem member)).goal fun args target same ↦
          goals_canonical args target (same ▸ member)
    have head := head_canonical.apply_args faithful.functor
    rw [← head, Term.subst_apply] at concluded
    rw [Task.TrueIn, args, List.map_map]
    refine cast (congrArg (Term.apply compiled.head.symbol · ∈ set) ?_) concluded
    refine List.map_congr_left fun arg member ↦ ?_
    rw [Function.comp_apply, Term.eval_eq_subst]
    exact (Term.Canonical.sealed_subst (head_canonical.of_mem_args member) _).symm

end Model

/-! ### Answers -/

/-- An attempt is at a rule of the program. -/
theorem Machine.Attempting.exists_rule {program : Program} {rule : RuleId} {goal : Option Term}
    {context : Context} {machine : Machine}
    (attempting : Attempting program rule goal context machine) :
    ∃ compiled, program.rule? rule = some compiled := by
  induction attempting with
  | @start context machine later canonical ended =>
    exact canonical.program ▸ exists_rule_of_start ended
  | search _ _ _ _ ih => exact ih

/-- Where keys are different, the order of entries does not matter. -/
theorem lookup_reverse_zip {vars : List Var} (nodup : vars.Nodup) {values : List Term}
    (length : values.length = vars.length) (v : Var) :
    (vars.zip values).reverse.lookup v = values[vars.idxOf v]? := by
  induction vars generalizing values with
  | nil => rw [List.length_eq_zero_iff.1 length, List.zip_nil_left, List.reverse_nil,
    List.lookup_nil,
      List.getElem?_nil]
  | cons w vars ih =>
    obtain ⟨new, others⟩ := List.nodup_cons.1 nodup
    cases values with
    | nil => cases length
    | cons value values =>
      have same := ih others (Nat.succ.inj length)
      rw [List.zip_cons_cons, List.reverse_cons, List.lookup_append, same]
      by_cases here : v = w
      · subst here
        rw [List.idxOf_eq_length new, List.getElem?_eq_none (Nat.succ.inj length).le]
        simp
      · rw [List.idxOf_cons_ne _ (Ne.symm here), List.getElem?_cons_succ]
        simp [List.lookup_cons, beq_false_of_ne here]

/-- A variable of a rule is found in the bindings of a solution, and no other is. -/
theorem Trial.Emits.lookup? {trial : Trial} {solution : Solution} {args values : List Term}
    (emits : trial.Emits solution args values) (v : Var) :
    solution.bindings.lookup? v = values[trial.compiled.rule.vars.idxOf v]? := by
  rw [Bindings.lookup?_eq, emits.bindings]
  exact lookup_reverse_zip (Term.nodup_distinct _) emits.length v

/-- Bindings of a solution are substituted once. -/
theorem Trial.Emits.apply {trial : Trial} {solution : Solution} {args values : List Term}
    (emits : trial.Emits solution args values) (term : Term) :
    solution.bindings.apply term =
      .ok (term.subst fun v ↦ (values[trial.compiled.rule.vars.idxOf v]?).getD (.var v)) := by
  refine (Bindings.apply_of_flat (fun v bound found w occurs ↦ ?_) term).trans ?_
  · rw [emits.lookup?] at found ⊢
    have other := emits.fresh bound (List.mem_append_right _ (List.mem_of_getElem? found)) w occurs
    rw [List.idxOf_eq_length other, List.getElem?_eq_none emits.length.le]
  · simp only [emits.lookup?]

/-- A justified instance without goals is one of the rule: the slots have values with which its
arguments are those of the rule's head and of the goal, and the goals of the rule hold. -/
theorem CompiledRule.Faithful.exists_slots {D : Type} [Domain D] {compiled : CompiledRule}
    (faithful : compiled.Faithful) {set : Set (Instance D)} {goal : Option Term}
    {holds : Task D → Prop}
    (justified : Instance.Justified (compiled.attempts D goal) holds set) {an : Instance D}
    (member : an ∈ set) (done : an.goals = []) :
    ∃ η : Nat → D, an.head = compiled.rule.head.args.map (Term.eval (compiled.assignment η)) ∧
      an.values = (List.range compiled.frameSize).map η ∧
      (∀ goal ∈ compiled.goals, holds (goal.eval (compiled.assignment η))) ∧
      ∀ term ∈ goal, ∃ β, an.head = term.args.map (Term.eval β) := by
  obtain ⟨first, ⟨η, ρ, meaning, head, assigned, instances⟩, same_head, same_values, hold⟩ :=
    justified an member (done ▸ List.forall_mem_nil _)
  obtain ⟨arguments, goals⟩ := (faithful.meaning η ρ first.goals).1 meaning
  refine ⟨η, same_head.symm.trans (head.trans arguments), same_values.symm.trans assigned,
    fun goal inside ↦ ?_, fun term given ↦ same_head ▸ instances term given⟩
  rw [goals] at hold
  exact hold _ (List.mem_map_of_mem inside)

/-- Whatever its unbound variables stand for, a solution justified by the instances of its rule
comes from one of them: the arguments and the terms of the variables are as the rule says, and its
goals hold. -/
theorem CompiledRule.Faithful.exists_assignment {D : Type} [Domain D] {compiled : CompiledRule}
    (faithful : compiled.Faithful) {args values : List Term}
    (length : values.length = compiled.rule.vars.length) {goal : Option Term}
    {holds : Task D → Prop} (justified : Instance.Justified (compiled.attempts D goal) holds
      (Instance.solved D args values))
    (β : Var → D) :
    ∃ η, args.map (Term.eval β) = compiled.rule.head.args.map (Term.eval (compiled.assignment η)) ∧
      (∀ v ∈ compiled.rule.vars, ∃ value ∈ values[compiled.rule.vars.idxOf v]?,
        compiled.assignment η v = value.eval β) ∧
      ∀ goal ∈ compiled.goals, holds (goal.eval (compiled.assignment η)) := by
  obtain ⟨η, arguments, assigned, done, -⟩ := faithful.exists_slots justified ⟨β, rfl⟩ rfl
  refine ⟨η, arguments, fun v member ↦ ?_, done⟩
  have lower : compiled.rule.vars.idxOf v < values.length :=
    length ▸ List.idxOf_lt_length_of_mem member
  refine ⟨_, List.getElem?_eq_getElem lower, ?_⟩
  have here := congrArg (·[compiled.rule.vars.idxOf v]?) assigned.symm
  have room : compiled.rule.vars.idxOf v < compiled.frameSize := by
    rw [CompiledRule.frameSize, faithful.slots, List.length_zipIdx, ← length]
    exact lower
  simpa [CompiledRule.assignment, List.getElem?_range, room, lower] using here

section Answers

variable {program : Program} {rule : RuleId} {goal : Option Term} {context other : Context}
  {machine last : Machine} {solution : Solution}

/-- Whatever ground terms stand for the variables that a solution leaves unbound, the head of the
rule under the solution's bindings is a consequence of the program and the facts, and every goal of
its body is true among the consequences. -/
theorem answers_are_consequences
    (built : program.Built (Rule.AllFunctors fun functor ↦ 0 < functor.arity))
    (named : program.registers ≤ 65535)
    (attempting : Machine.Attempting program rule goal context machine)
    (canonical : other.Canonical program)
    (more : ∀ fact, context.store.contains fact → other.store.contains fact)
    (ended : machine.nextSolution other = .ok (some solution) last)
    (acyclic : last.memory.heap.Acyclic) :
    ∃ compiled, program.rule? rule = some compiled ∧ ∃ τ : Var → Term,
      (∀ term, solution.bindings.apply term = .ok (term.subst τ)) ∧
      solution.head = compiled.rule.head.subst τ ∧
      ∀ γ : Var → Term, (∀ v, (γ v).isGround = true) →
        (compiled.rule.head.subst τ).subst γ ∈ program.consequences other.store ∧
        ∀ goal ∈ compiled.goals,
          goal.TrueIn (program.consequences other.store) fun v ↦ (τ v).subst γ := by
  obtain ⟨compiled, found⟩ := attempting.exists_rule
  have attempted : Machine.Attempted (fun _ ↦ True) program rule compiled goal :=
    ⟨built, named, found, fun _ _ ↦ trivial, fun term _ ↦ term.allFunctors_true⟩
  obtain ⟨arguments, set, emission, justified⟩ :=
    attempting.exists_justified (D := Term) attempted canonical more ended
  obtain ⟨args, values, emits, -, rfl⟩ := emission.full acyclic
  have faithful := built.faithful named found
  obtain ⟨head_canonical, goals_canonical⟩ := built.canonical found
  have length : values.length = compiled.rule.vars.length :=
    (List.length_map _).symm.trans emits.length
  let τ : Var → Term :=
    fun v ↦ ((values.map Term.collapse)[compiled.rule.vars.idxOf v]?).getD (.var v)
  have bound {v : Var} {value : Term} (here : value ∈ values[compiled.rule.vars.idxOf v]?) :
      τ v = value.collapse := by
    simp [τ, List.getElem?_map, Option.mem_def.1 here]
  refine ⟨compiled, found, τ, emits.apply, ?_, fun γ ground ↦ ?_⟩
  · have anything : other.Model fun _ : Task Term ↦ True := ⟨by simp, by simp, by simp⟩
    obtain ⟨η, same, assigned, -⟩ := faithful.exists_assignment length (justified _ anything) .var
    have vars (v) (member : v ∈ compiled.rule.vars) : (compiled.assignment η v).collapse = τ v := by
      obtain ⟨value, here, stands⟩ := assigned v member
      rw [stands, Term.eval_eq_subst, Term.subst_self, bound here]
    have read : args.map Term.collapse = compiled.rule.head.args.map (Term.subst τ) := by
      have raw : args = compiled.rule.head.args.map (Term.subst (compiled.assignment η)) := by
        rw [← funext (Term.eval_eq_subst (compiled.assignment η)), ← same,
          List.map_congr_left fun arg _ ↦ (arg.eval_eq_subst .var).trans arg.subst_self,
            List.map_id']
      rw [raw, List.map_map]
      refine List.map_congr_left fun arg member ↦ ?_
      rw [Function.comp_apply, Term.collapse_subst,
        Term.Canonical.collapse (head_canonical.of_mem_args member)]
      exact Term.subst_congr fun v occurs ↦
        vars v (Rule.mem_vars.2 (.inl (Term.mem_occurrences_of_mem_args member occurs)))
    rw [emits.head, read, ← Term.subst_apply]
    exact congrArg _ (head_canonical.apply_args faithful.functor)
  · have closed := (program.isLeast_consequences other.store).1
    choose β same using fun v ↦ Term.exists_sealed (ground v)
    obtain ⟨η, -, assigned, done⟩ := faithful.exists_assignment length
      (justified _ (closed.model built named canonical)) β
    have vars (v) (member : v ∈ compiled.rule.vars) :
        (compiled.assignment η v).sealed = (τ v).subst γ := by
      obtain ⟨value, here, stands⟩ := assigned v member
      rw [stands, Term.eval_eq_subst, Term.sealed_subst, bound here, funext same]
    have true_in (goal) (member : goal ∈ compiled.goals) :
        goal.TrueIn (program.consequences other.store) fun v ↦ (τ v).subst γ :=
      ((done goal member).goal fun args target here ↦
        goals_canonical args target (here ▸ member)).congr member vars
    refine ⟨?_, true_in⟩
    rw [Term.subst_subst]
    exact closed.rules rule compiled _ found (fun v ↦ Term.isGround_subst fun w _ ↦
      ground w) true_in

end Answers

/-! ### A rule that calls facts and clauses -/

namespace Context

private theorem canonical_candidates : ∀ fact ∈ Fact.candidates, fact.term.Canonical := by
  simp [Fact.candidates, Term.Canonical, Term.AllFunctors, Term.AllFunctorsList]

theorem canonical_selecting {facts : List Fact} (known : facts ⊆ Fact.candidates) :
    (selecting facts).Canonical .selecting where
  program := rfl
  built := .ofFacts facts
  facts fact stored := canonical_candidates fact (known (FactStore.contains_ofFacts.1 stored))

/-- The machine of an attempt when it is started, its first solution, and the machine then. -/
def firstSolution (context : Context) (rule : RuleId) (goal : Option Term) (registers : Nat) :
    Option (Machine × Solution × Machine) :=
  match Machine.start context rule goal (.new registers) with
  | .ok _ machine =>
    match machine.nextSolution context with
    | .ok (some solution) last => some (machine, solution, last)
    | _ => none
  | _ => none

theorem firstSolution_eq_some {context : Context} {rule : RuleId} {goal : Option Term}
    {registers : Nat} {machine last : Machine} {solution : Solution}
    (found : context.firstSolution rule goal registers = some (machine, solution, last)) :
    Machine.start context rule goal (.new registers) = .ok ⟨⟩ machine ∧
      machine.nextSolution context = .ok (some solution) last := by
  rw [firstSolution] at found
  split at found
  · next started =>
    split at found
    · next searched =>
      cases found
      exact ⟨started, searched⟩
    · cases found
  · cases found

end Context

/-- The first solution is `r(f(a))`, which is a consequence, and so are `p(f(a))`, which is stored,
and `q(f(a))`, which a clause says. -/
theorem answers_are_consequences_selecting :
    let f_a : Term := .struct ⟨3⟩ [.atom ⟨4⟩]
    let context : Context := .selecting Fact.candidates
    (Program.selecting.Built (Rule.AllFunctors fun functor ↦ 0 < functor.arity) ∧
      Program.selecting.registers ≤ 65535 ∧ context.Canonical .selecting) ∧
    ∃ machine solution last, Machine.Attempting .selecting ⟨2⟩ none context machine ∧
      machine.nextSolution context = .ok (some solution) last ∧ last.memory.heap.Acyclic ∧
      solution.head = .struct ⟨2⟩ [f_a] ∧
      ∀ predicate ∈ [(0 : Nat), 1, 2],
        Term.struct ⟨predicate⟩ [f_a] ∈ Program.selecting.consequences context.store := by
  intro f_a context
  have named : Program.selecting.registers ≤ 65535 := by decide +kernel
  have canonical : context.Canonical .selecting := Context.canonical_selecting (List.Subset.refl _)
  have made : (context.firstSolution ⟨2⟩ none 2).any (fun found ↦
      found.2.1.head = .struct ⟨2⟩ [f_a] ∧ found.2.2.memory.heap.ascends = true) = true := by
        decide +kernel
  obtain ⟨⟨machine, solution, last⟩, first, found⟩ := (Option.any_eq_true _ _).1 made
  obtain ⟨head, ascends⟩ : solution.head = .struct ⟨2⟩ [f_a] ∧ last.memory.heap.ascends = true :=
    of_decide_eq_true found
  obtain ⟨started, searched⟩ := Context.firstSolution_eq_some first
  have attempting : Machine.Attempting .selecting ⟨2⟩ none context machine :=
    .start canonical started
  obtain ⟨compiled, listed, τ, -, read, true_in⟩ :=
    answers_are_consequences Program.built_selecting named
    attempting canonical (fun _ ↦ id) searched (Heap.acyclic_of_ascends ascends)
  obtain ⟨concluded, goals⟩ := true_in (fun _ ↦ .num 0) fun _ ↦ rfl
  refine ⟨⟨Program.built_selecting, named, canonical⟩, machine, solution, last,
    attempting, searched, Heap.acyclic_of_ascends ascends, head, ?_⟩
  have rule : (Program.selecting.rule? ⟨2⟩).map (·.rule) = some .selecting := rfl
  have calls : (Program.selecting.rule? ⟨2⟩).map (·.goals) =
      some [.call [.var 0] (.predicate ⟨⟨0⟩, 1⟩), .call [.var 0] (.predicate ⟨⟨1⟩, 1⟩)] := rfl
  rw [listed, Option.map_some, Option.some.injEq] at rule calls
  rw [rule] at read concluded
  have bound : τ 0 = f_a := by simpa [Rule.selecting, Term.subst_struct, head] using read.symm
  rw [calls] at goals
  have stored : Term.struct ⟨0⟩ [f_a] ∈ Program.selecting.consequences context.store := by
    simpa [Rule.Goal.TrueIn, Term.apply, bound, f_a] using goals _ List.mem_cons_self
  have stated : Term.struct ⟨1⟩ [f_a] ∈ Program.selecting.consequences context.store := by
    simpa [Rule.Goal.TrueIn, Term.apply, bound, f_a] using goals _
      (List.mem_cons_of_mem _ List.mem_cons_self)
  have derived : Term.struct ⟨2⟩ [f_a] ∈ Program.selecting.consequences context.store := by
    simpa [Rule.selecting, bound, f_a] using concluded
  exact List.forall_mem_cons.2 ⟨stored,
    List.forall_mem_cons.2 ⟨stated, List.forall_mem_singleton.2 derived⟩⟩

end HornMachine
