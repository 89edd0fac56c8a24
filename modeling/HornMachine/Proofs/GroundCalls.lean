import HornMachine.Proofs.Consequences
import HornMachine.Proofs.Heap.Trees
import HornMachine.Proofs.Machine.Coverage

/-!
# Calls with ground arguments

In a program whose rules call predicates only and have no variable that is not in the body, every
call that succeeds has ground arguments, also where heaps are cyclic: the tasks that call members of
a closed set make a model in any domain. Main statements: a fact found in an attempt is a member of
every closed set (`Machine.Attempting.fact_mem`); and an attempt finds every instance of its rule
whose goals are stored, since a search ends with the solution that is covered unless it still covers
it (`Machine.covering_start`, `Machine.Covering.nextSolution`).
-/

namespace HornMachine

/-- The stored terms. -/
def FactStore.terms (store : FactStore) : Set Term :=
  {term | ∃ fact, store.contains fact ∧ fact.term = term}

/-! ### Ground calls -/

/-- A ground term that facts can hold. -/
structure Term.Storable (term : Term) : Prop where
  ground : term.isGround = true
  canonical : term.Canonical
  fits : term.fits = true

namespace Term

variable {D : Type} [Domain D]

/-- What is inside the value of a storable term is the value of one. -/
theorem Storable.exists_of_part {term : Term} (storable : term.Storable) {β : Var → D} {inner : D}
    (part : Domain.Part inner (term.eval β)) :
    ∃ other : Term, other.Storable ∧ other.eval β = inner := by
  obtain ⟨other, ground, same, kinds⟩ := Term.exists_of_part storable.ground part
  exact ⟨other, ⟨ground, kinds _ storable.canonical,
    fits_iff.2 (kinds _ (fits_iff.1 storable.fits))⟩, same⟩

theorem Storable.subst {term : Term} (canonical : term.Canonical) (fits : term.fits = true)
    {σ : Var → Term} (each : ∀ v, (σ v).Storable) : (term.subst σ).Storable where
  ground := isGround_subst fun v _ ↦ (each v).ground
  canonical := canonical.subst fun v _ ↦ (each v).canonical
  fits := fits_iff.2 ((fits_iff.1 fits).subst fun v _ ↦ fits_iff.1 (each v).fits)

theorem Storable.of_mem_args {term arg : Term} (storable : term.Storable)
    (member : arg ∈ term.args) :
    arg.Storable where
  ground := isGround_of_mem_args storable.ground member
  canonical := storable.canonical.of_mem_args member
  fits := fits_iff.2 ((fits_iff.1 storable.fits).of_mem_args member)

/-- Lists of ground terms with equal values are equal. -/
theorem eq_of_map_eval {terms others : List Term} (ground : ∀ term ∈ terms, term.isGround = true)
    (others_ground : ∀ other ∈ others, other.isGround = true) {β γ : Var → D}
    (same : terms.map (eval β) = others.map (eval γ)) : terms = others := by
  rw [← List.forall₂_eq_eq_eq]
  exact forall₂_of_map_eq same fun term inside other among ↦
    eval_injective (ground term inside) (others_ground other among)

end Term

/-- A task that calls a predicate with storable arguments, so that a term of the set is called. -/
def Task.Grounded {D : Type} [Domain D] (set : Set Term) : Task D → Prop
  | .fail => False
  | .call args (.predicate functor) => ∃ terms : List Term, (∀ term ∈ terms, term.Storable) ∧
      args = terms.map (Term.eval default) ∧ Term.apply functor.symbol terms ∈ set
  | .call _ (.builtin _ _) => True

/-- The rules call predicates only, and the variables of a head are in the body. -/
structure Program.RangeRestricted (program : Program) : Prop where
  covered : ∀ id compiled, program.rule? id = some compiled → ∀ v ∈ compiled.rule.head.occurrences,
    ∃ goal ∈ compiled.rule.body, v ∈ goal.occurrences
  calls : ∀ id compiled, program.rule? id = some compiled → ∀ args builtin arity,
    .call args (.builtin builtin arity) ∉ compiled.goals

section Model

variable {D : Type} [Domain D] {program : Program} {context : Context}
  (built : program.Built (Rule.AllFunctors fun functor ↦ 0 < functor.arity))
  (named : program.registers ≤ Emit.maxRegister)

include built

theorem Program.Built.fits {id : RuleId} {compiled : CompiledRule}
    (found : program.rule? id = some compiled) : compiled.rule.head.fits = true := by
  obtain ⟨_, -, -, tried⟩ := built.tryCompile found
  exact Rule.fits_of_tryCompile tried

include named

/-- A call has as many arguments as what it runs takes. -/
theorem Program.Built.length_args {id : RuleId} {compiled : CompiledRule}
    (found : program.rule? id = some compiled) {args : List Term} {target : Target}
    (member : .call args target ∈ compiled.goals) : args.length = target.arity := by
  obtain ⟨signatures, respects, -, tried⟩ := built.tryCompile found
  obtain ⟨goals, resolved, same⟩ := Rule.goals_tryCompile respects named tried
  obtain ⟨goal, -, -, count, -⟩ :=
    Rule.exists_of_call_mem resolved (Rule.mem_of_mem_reached (same ▸ member))
  exact count

/-- If no goal fails, the variables of the body are in the arguments of its calls. -/
theorem Program.Built.exists_call {id : RuleId} {compiled : CompiledRule}
    (found : program.rule? id = some compiled) (possible : .fail ∉ compiled.goals) {goal : Term}
    (member : goal ∈ compiled.rule.body) {v : Var} (occurs : v ∈ goal.occurrences) :
    ∃ args target, .call args target ∈ compiled.goals ∧ ∃ arg ∈ args, v ∈ arg.occurrences := by
  obtain ⟨signatures, respects, -, tried⟩ := built.tryCompile found
  obtain ⟨goals, resolved, same⟩ := Rule.goals_tryCompile respects named tried
  rw [same] at possible ⊢
  obtain ⟨args, target, called, inside⟩ := (Rule.mem_goalVars_iff resolved).2 ⟨goal, member, occurs⟩
  exact ⟨args, target, Rule.mem_reached possible called, inside⟩

/-- If the goals of a rule hold of ground terms, its variables stand for storable terms. -/
theorem Program.Built.exists_grounding (restricted : program.RangeRestricted) {id : RuleId}
    {compiled : CompiledRule} (found : program.rule? id = some compiled) {set : Set Term}
    {σ : Var → D} (hold : ∀ goal ∈ compiled.goals, (goal.eval σ).Grounded set) :
    ∃ γ : Var → Term, (∀ v, (γ v).Storable) ∧
      ∀ v ∈ compiled.rule.vars, σ v = (γ v).eval default := by
  have in_body (v) (member : v ∈ compiled.rule.vars) :
      ∃ goal ∈ compiled.rule.body, v ∈ goal.occurrences := by
    rcases Rule.mem_vars.1 member with occurs | inside
    · exact restricted.covered id compiled found v occurs
    · exact inside
  have each (v) : ∃ term : Term, term.Storable ∧
    (v ∈ compiled.rule.vars → σ v = term.eval default) := by
    by_cases member : v ∈ compiled.rule.vars
    · -- the variable is inside an argument of a call
      obtain ⟨goal, inside, occurs⟩ := in_body v member
      obtain ⟨called, target, among, arg, here, occurs⟩ :=
        built.exists_call named found (fun fails ↦ hold _ fails) inside occurs
      cases target with
      | builtin builtin arity => exact absurd among (restricted.calls id compiled found _ _ _)
      | predicate functor =>
        obtain ⟨terms, storable, values, -⟩ := hold _ among
        obtain ⟨term, listed, same⟩ := List.mem_map.1 (values ▸ List.mem_map_of_mem here)
        obtain ⟨own, own_storable, value⟩ :=
          (storable term listed).exists_of_part (same ▸ Term.part_eval occurs)
        exact ⟨own, own_storable, fun _ ↦ value.symm⟩
    · exact ⟨.num 0, ⟨rfl, trivial, rfl⟩, fun inside ↦ absurd inside member⟩
  choose γ storable stands using each
  exact ⟨γ, storable, stands⟩

omit built named in
/-- A goal that holds of ground terms is true. -/
theorem Task.Grounded.goal (restricted : program.RangeRestricted) {id : RuleId}
    {compiled : CompiledRule}
    (found : program.rule? id = some compiled) {set : Set Term} {σ : Var → D} {γ : Var → Term}
    (storable : ∀ v, (γ v).Storable) (stands : ∀ v ∈ compiled.rule.vars, σ v = (γ v).eval default)
    {goal : Rule.Goal} (member : goal ∈ compiled.goals) (holds : (goal.eval σ).Grounded set) :
    goal.TrueIn set γ := by
  cases goal with
  | fail => exact holds
  | call args target =>
    cases target with
    | builtin builtin arity => exact absurd member (restricted.calls id compiled found _ _ _)
    | predicate functor =>
      obtain ⟨terms, ground, values, called⟩ := holds
      obtain ⟨whole, among, rfl⟩ := CompiledRule.exists_of_call_mem_goals member
      have same : whole.args.map (Term.subst γ) = terms := by
        refine Term.eq_of_map_eval (D := D) (β := default) (γ := default)
          (List.forall_mem_map.2 fun arg _ ↦ Term.isGround_subst fun v _ ↦ (storable v).ground)
          (fun term listed ↦ (ground term listed).ground) ?_
        rw [← values, List.map_map]
        refine List.map_congr_left fun arg inside ↦ ?_
        rw [Function.comp_apply, Term.eval_subst]
        exact Term.eval_congr fun v occurs ↦ (stands v (Rule.mem_vars.2 (.inr
          ⟨whole, among, Term.mem_occurrences_of_mem_args inside occurs⟩))).symm
      rw [Rule.Goal.TrueIn, same]
      exact called

/-- The tasks that call members of a closed set make a model, in any domain. -/
theorem Program.Closed.groundModel {set : Set Term} (canonical : context.Canonical program)
    (restricted : program.RangeRestricted) (closed : program.Closed context.store set) :
    context.Model (Task.Grounded set : Task D → Prop) where
  fact functor stored listed := by
    have known := canonical.contains_of_mem listed
    have storable : stored.term.Storable :=
      ⟨stored.ground, canonical.facts stored known, stored.fits⟩
    refine ⟨stored.args, fun arg member ↦ storable.of_mem_args member, rfl, ?_⟩
    exact storable.canonical.apply_args stored.functor?_term ▸ closed.facts stored known
  builtin _ _ _ _ := trivial
  rule id compiled η ρ tasks found meaning body := by
    have found := canonical.program ▸ found
    have faithful := built.faithful named found
    have head_canonical := (built.canonical found).1
    have head_fits := Term.fits_iff.1 (built.fits found)
    obtain ⟨args, rfl⟩ := (faithful.meaning η ρ tasks).1 meaning
    have hold (goal) (member : goal ∈ compiled.goals) :
        (goal.eval (compiled.assignment η)).Grounded set := body _ (List.mem_map_of_mem member)
    obtain ⟨γ, storable, stands⟩ := built.exists_grounding named restricted found hold
    have concluded := closed.rules id compiled γ found (fun v ↦ (storable v).ground)
      fun goal member ↦ (hold goal member).goal restricted found storable stands member
    refine ⟨compiled.rule.head.args.map (Term.subst γ), List.forall_mem_map.2 fun arg member ↦
      .subst (head_canonical.of_mem_args member) (Term.fits_iff.2 (head_fits.of_mem_args member))
        storable, ?_, ?_⟩
    · rw [args, List.map_map]
      refine List.map_congr_left fun arg member ↦ ?_
      rw [Function.comp_apply, Term.eval_subst]
      exact Term.eval_congr fun v occurs ↦
        stands v (Rule.mem_vars.2 (.inl (Term.mem_occurrences_of_mem_args member occurs)))
    · rwa [← Term.subst_apply, head_canonical.apply_args faithful.functor]

end Model

/-! ### Solutions -/

/-- Every assignment gives an instance of a rule. -/
theorem CompiledRule.Faithful.exists_attempt {D : Type} [Domain D] {compiled : CompiledRule}
    (faithful : compiled.Faithful) (σ : Var → D) :
    ∃ values,
      ⟨compiled.goals.map (Rule.Goal.eval σ), compiled.rule.head.args.map (Term.eval σ), values⟩ ∈
        compiled.attempts D none := by
  obtain ⟨η, assigned⟩ := compiled.exists_assignment σ
  obtain ⟨ρ, arguments⟩ := exists_map_range (compiled.rule.head.args.map (Term.eval σ))
  rw [List.length_map, (Rule.functor?_eq_some faithful.functor).1] at arguments
  refine ⟨_, η, ρ, (faithful.meaning η ρ _).2 ⟨?_, ?_⟩, arguments.symm, rfl, by simp⟩
  · rw [arguments, eval_head_congr assigned]
  · rw [eval_goals_congr assigned]

section Attempts

variable {program : Program} {rule : RuleId} {compiled : CompiledRule} {context other : Context}
  {set : Set Term}
  (built : program.Built (Rule.AllFunctors fun functor ↦ 0 < functor.arity))
  (named : program.registers ≤ Emit.maxRegister) (restricted : program.RangeRestricted)

include built named restricted

/-- A fact found in an attempt is a member of every closed set. -/
theorem Machine.Attempting.fact_mem {goal : Option Term} {machine last : Machine}
    {solution : Solution} (attempting : Attempting program rule goal context machine)
    (canonical : other.Canonical program)
    (more : ∀ fact, context.store.contains fact → other.store.contains fact)
    (closed : program.Closed other.store set)
    (ended : machine.nextSolution other = .ok (some solution) last) {fact : Fact}
    (made : solution.fact? = some fact) : fact.term ∈ set ∧ fact.term.Canonical := by
  obtain ⟨compiled, found⟩ := attempting.exists_rule
  have attempted : Attempted (fun _ ↦ True) program rule compiled goal :=
    ⟨built, named, found, fun _ _ ↦ trivial, fun term _ ↦ term.allFunctors_true⟩
  obtain ⟨arguments, instances, emission, justified⟩ :=
    attempting.exists_justified (D := Tree) attempted canonical more ended
  have model : other.Model (Task.Grounded set : Task Tree → Prop) :=
    closed.groundModel built named canonical restricted
  obtain ⟨raws, head, -, each⟩ := emission.read
  obtain ⟨an, member⟩ := emission.nonempty (emission.formed.solution_trees id)
  obtain ⟨done, β, values⟩ := each an member
  obtain ⟨terms, storable, same, inside⟩ :=
    (justified _ model).holds_head model (canonical.program.symm ▸ found) member done
  have term_eq : fact.term = Term.apply compiled.head.symbol (raws.map Term.collapse) :=
    (Fact.ofTerm?_eq_some_iff.1 made).trans head
  have ground (raw) (listed : raw ∈ raws) : raw.isGround = true := by
    rw [← Term.isGround_collapse, Term.isGround_iff]
    intro v occurs
    refine Term.isGround_iff.1 (term_eq ▸ fact.ground) v ?_
    exact Term.mem_occurrences_apply.2 ⟨_, List.mem_map_of_mem listed, occurs⟩
  obtain rfl : raws = terms :=
    Term.eq_of_map_eval ground (fun term listed ↦ (storable term listed).ground)
      (values.symm.trans same)
  have unchanged : raws.map Term.collapse = raws :=
    (List.map_congr_left fun raw listed ↦ (storable raw listed).canonical.collapse).trans
      (List.map_id' _)
  rw [term_eq, unchanged]
  refine ⟨inside, ?_⟩
  cases raws with
  | nil => trivial
  | cons raw raws =>
    exact Term.allFunctors_struct.2 ⟨Nat.succ_pos _,
      fun raw listed ↦ (storable raw listed).canonical⟩

/-- A solution with an instance whose head has the given arguments, in a branch with justified
instances, has that head. -/
theorem Trial.Emission.head_eq {arguments : List Address} {machine : Machine} {solution : Solution}
    {instances : Set (Instance Term)}
    (emission : (Trial.attempting program (fun functor ↦ 0 < functor.arity) rule compiled
      arguments).Emission Term machine solution instances)
    (canonical : context.Canonical program) (closed : program.Closed context.store set)
    (found : program.rule? rule = some compiled)
    (justified : Instance.Justified (compiled.attempts Term none) (Task.Grounded set) instances)
    {head : List Term} (covered : ∃ an ∈ instances, an.head = head) :
    solution.head = Term.apply compiled.head.symbol head := by
  obtain ⟨an, member, rfl⟩ := covered
  have model : context.Model (Task.Grounded set : Task Term → Prop) :=
    closed.groundModel built named canonical restricted
  obtain ⟨args, values, emits, -, rfl⟩ :=
    emission.full (emission.acyclic ⟨inferInstance⟩ ⟨an, member⟩)
  have solved : ⟨[], args.map (Term.eval Term.var), values.map (Term.eval Term.var)⟩ ∈
      Instance.solved Term args values := ⟨_, rfl⟩
  obtain ⟨terms, storable, same, -⟩ :=
    justified.holds_head model (canonical.program.symm ▸ found) solved rfl
  obtain ⟨β, rfl⟩ := member
  have args_eq : args = terms := by
    have left : args.map (Term.eval Term.var) = args :=
      (List.map_congr_left fun arg _ ↦ (arg.eval_eq_subst _).trans arg.subst_self).trans
        (List.map_id' _)
    have right : terms.map (Term.eval default) = terms := by
      refine (List.map_congr_left fun term listed ↦ ?_).trans (List.map_id' _)
      rw [Term.eval_eq_subst, Term.subst_of_isGround (storable term listed).ground]
    exact left.symm.trans (same.trans right)
  subst args_eq
  rw [emits.head]
  refine congrArg _ (List.map_congr_left fun arg listed ↦ ?_)
  rw [(storable arg listed).canonical.collapse, Term.eval_eq_subst,
    Term.subst_of_isGround (storable arg listed).ground]

variable (program rule compiled set) in
/-- A machine of an attempt without a goal, at a stage with justified instances that covers a
head. -/
def Machine.Covering (head : List Term) (context : Context) (machine : Machine) : Prop :=
  ∃ arguments origins view,
    Moment.Fits (.attempting program (fun functor ↦ 0 < functor.arity) rule compiled arguments)
      context
      ⟨machine, none, origins⟩ view ∧
    (view.stage Term (.attempting program (fun functor ↦ 0 < functor.arity) rule compiled arguments)
      context machine.choices).Justified context (compiled.attempts Term none) (Task.Grounded set) ∧
    (view.stage Term (.attempting program (fun functor ↦ 0 < functor.arity) rule compiled arguments)
      context machine.choices).Covers context head

/-- The next solution is the one covered, unless the rest still covers it. -/
theorem Machine.Covering.nextSolution {head : List Term} {machine last : Machine}
    {result : Option Solution} (covering : machine.Covering program rule compiled set head context)
    (found : program.rule? rule = some compiled) (canonical : context.Canonical program)
    (closed : program.Closed context.store set)
    (ended : machine.nextSolution context = .ok result last) :
    ∃ solution, result = some solution ∧ (solution.head = Term.apply compiled.head.symbol head ∨
      last.Covering program rule compiled set head context) := by
  obtain ⟨arguments, origins, view, fits, justified, covers⟩ := covering
  have attempted : Attempted (fun functor ↦ 0 < functor.arity) program rule compiled none :=
    ⟨built, named, found, fun _ ↦ id, nofun⟩
  obtain ⟨solution, instances, left, after, rfl, emission, answer, later_fits, later, head_or⟩ :=
    fits.covers_nextSolution (attempted.runs canonical arguments)
      (attempted.sense canonical arguments)
      ⟨Term.exact, fun _ ↦ id⟩ ended covers
        (closed.groundModel built named canonical restricted) justified
  refine ⟨solution, rfl, head_or.imp (fun covered ↦ ?_) fun covers ↦
    ⟨arguments, left, after, later_fits, later, covers⟩⟩
  exact emission.head_eq built named restricted canonical closed found answer covered

/-- A goal that is true of the stored terms is a stored fact. -/
theorem Rule.Goal.TrueIn.stored (found : program.rule? rule = some compiled)
    (canonical : context.Canonical program)
    {goal : Rule.Goal} (member : goal ∈ compiled.goals) {σ : Var → Term}
    (true_in : goal.TrueIn context.store.terms σ) : (goal.eval σ).Stored context := by
  cases goal with
  | fail => exact true_in.elim
  | call args target =>
    cases target with
    | builtin builtin arity => exact absurd member (restricted.calls rule compiled found _ _ _)
    | predicate functor =>
      obtain ⟨fact, stored, same⟩ := true_in
      have arguments : fact.args = args.map (Term.subst σ) := by
        rw [Fact.args, same, Term.args_apply]
      have called : fact.functor = functor := by
        have length := built.length_args named found member
        have functor_eq := fact.functor?_term
        rw [same] at functor_eq
        rw [Term.eq_of_functor?_apply functor_eq, List.length_map, length]
        rfl
      refine ⟨fact, (canonical.built.consistent.known fact).1 stored, ?_⟩
      rw [Rule.Goal.eval, Fact.values, arguments, called, List.map_map]
      refine congrArg (Task.call · _) (List.map_congr_left fun arg inside ↦ ?_)
      have listed : arg.subst σ ∈ fact.args := arguments ▸ List.mem_map_of_mem inside
      have ground := Term.isGround_of_mem_args fact.ground listed
      rw [Function.comp_apply, Term.eval_eq_subst, Term.eval_eq_subst,
        Term.subst_of_isGround ground]

/-- An attempt covers the heads of the instances of its rule whose goals are stored. -/
theorem Machine.covering_start {machine last : Machine} (found : program.rule? rule = some compiled)
    (canonical : context.Canonical program) (ended : machine.start context rule none = .ok ⟨⟩ last)
    {σ : Var → Term} (true_in : ∀ goal ∈ compiled.goals, goal.TrueIn context.store.terms σ) :
    last.Covering program rule compiled set (compiled.rule.head.args.map (Term.subst σ))
      context := by
  obtain rfl := canonical.program
  have attempted : Attempted (fun functor ↦ 0 < functor.arity) context.program rule compiled none :=
    ⟨built, named, found, fun _ ↦ id, nofun⟩
  obtain ⟨arguments, view, fits, stage⟩ :=
    fits_start attempted.lawful found attempted.goal ended rfl
  refine ⟨arguments, [], view, fits, ?_, ?_⟩
  · rw [stage Term]
    refine ⟨?_, List.forall_mem_nil _, List.forall_mem_nil _⟩
    rintro _ ⟨⟩
    exact .refl
  · rw [stage Term]
    obtain ⟨values, member⟩ := (built.faithful named found).exists_attempt σ
    refine .inl ⟨_, rfl, _, member, List.map_congr_left fun arg _ ↦ arg.eval_eq_subst σ, ?_⟩
    exact List.forall_mem_map.2 fun goal among ↦
      (true_in goal among).stored built named restricted found canonical among

/-- The head of an instance whose goals are stored is a fact. -/
theorem Program.Built.exists_fact (found : program.rule? rule = some compiled)
    (canonical : context.Canonical program) (closed : program.Closed context.store set)
    {σ : Var → Term} (true_in : ∀ goal ∈ compiled.goals, goal.TrueIn context.store.terms σ) :
    ∃ fact : Fact, fact.term = compiled.rule.head.subst σ ∧
      fact.term = Term.apply compiled.head.symbol (compiled.rule.head.args.map (Term.subst σ)) := by
  have model : context.Model (Task.Grounded set : Task Term → Prop) :=
    closed.groundModel built named canonical restricted
  have hold (goal) (member : goal ∈ compiled.goals) : (goal.eval σ).Grounded set := by
    obtain ⟨fact, listed, same⟩ :=
      (true_in goal member).stored built named restricted found canonical member
    exact same ▸ model.fact _ fact listed
  obtain ⟨γ, storable, stands⟩ := built.exists_grounding named restricted found hold
  have faithful := built.faithful named found
  have head_canonical := (built.canonical found).1
  have head_eq := head_canonical.apply_args faithful.functor
  have same : compiled.rule.head.subst σ = compiled.rule.head.subst γ :=
    Term.subst_congr fun v occurs ↦ by
      rw [stands v (Rule.mem_vars.2 (.inl occurs)), Term.eval_eq_subst,
        Term.subst_of_isGround (storable v).ground]
  have head_storable := Term.Storable.subst head_canonical (built.fits found) storable
  have applied : Term.apply compiled.head.symbol (compiled.rule.head.args.map (Term.subst σ)) =
      compiled.rule.head.subst σ := by rw [← Term.subst_apply, head_eq]
  have callable : (compiled.rule.head.subst σ).functor?.isSome = true := by
    have few := Term.arity_le_of_functor? faithful.functor
    rw [← (Rule.functor?_eq_some faithful.functor).1] at few
    rw [← applied, Term.functor?_apply (by rwa [List.length_map])]
    rfl
  exact ⟨⟨compiled.rule.head.subst σ, same ▸ head_storable.ground,
    same ▸ head_storable.fits, callable⟩, rfl, applied.symm⟩

end Attempts

end HornMachine
