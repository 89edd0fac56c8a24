import HornMachine.Proofs.Machine.Cycles
import HornMachine.Proofs.Machine.Enumeration
import HornMachine.Proofs.MoreFacts
import HornMachine.Proofs.Resolution.Search
import HornMachine.Proofs.Term.Variant

/-!
# The machine resolves

At each moment of a run the branches still to be searched have the instances that the machine has
before it. A pass of the machine leads to branches that the search comes to, and where the machine
hands out a solution the first branch has no goals and its solution is the same up to the names of
variables. Main statement: if heaps in which solutions are found are acyclic, the solutions of an
attempt are those of resolution, in the same order.
-/

namespace HornMachine

/-! ### Solutions -/

/-- Solutions that differ in the names of the variables left unbound. -/
def Solution.Variant (solution other : Solution) : Prop :=
  other.rule = solution.rule ∧ ∃ ρ : Equiv.Perm Var,
    other.head = solution.head.subst (fun v ↦ .var (ρ v)) ∧
    other.bindings.entries = solution.bindings.entries.map
      (Prod.map id (Term.subst fun v ↦ .var (ρ v)))

variable {trial : Trial} {context : Context}

/-- A solution read from an acyclic heap is that of a branch with the same instances, which has no
goals. -/
theorem Trial.Emission.variant {machine : Machine} {solution : Solution} {branch : Resolvent}
    (emission : trial.Emission Term machine solution branch.instances)
    (acyclic : machine.memory.heap.Acyclic)
    (kinds : ∀ functor, trial.admits functor → 0 < functor.arity)
    (headed : trial.entry.head = trial.compiled.head) :
    branch.goals = [] ∧ solution.Variant (branch.solution trial.entry.rule trial.compiled) := by
  obtain ⟨args, values, emits, canonical, same⟩ := emission.full acyclic
  have collapsed {terms : List Term} (among : ∀ term ∈ terms, term ∈ args ++ values) :
      terms.map Term.collapse = terms :=
    (List.map_congr_left fun term member ↦
      Term.Canonical.collapse ((canonical term (among term member)).mono kinds)).trans
        (List.map_id' _)
  rw [collapsed fun _ ↦ List.mem_append_left _, collapsed fun _ ↦ List.mem_append_right _] at emits
  have eval_eq (β : Var → Term) : Term.eval β = Term.subst β :=
    funext fun term ↦ term.eval_eq_subst β
  -- the branch is an instance of what was read, and what was read is one of the branch
  obtain ⟨σ, forth⟩ : branch.eval Term.var ∈ Instance.solved Term args values :=
    same ▸ branch.self_mem_instances
  obtain ⟨τ, back⟩ : ⟨[], args.map (Term.eval Term.var),
    values.map (Term.eval Term.var)⟩ ∈ branch.instances :=
    same ▸ ⟨_, rfl⟩
  simp only [Resolvent.eval, Resolvent.map_eval_var, Instance.mk.injEq, List.map_eq_nil_iff]
    at forth back
  obtain ⟨done, head, own⟩ := forth
  obtain ⟨-, head_back, own_back⟩ := back
  obtain ⟨ρ, renamed⟩ := @exists_renaming ((args ++ values).map some)
    ((branch.head ++ branch.values).map some) σ τ
    (by simp [head, own, eval_eq, Function.comp_def])
    (by simp [← head_back, ← own_back, eval_eq, Function.comp_def])
  have images : branch.head ++ branch.values = args.map (Term.subst fun v ↦ .var (ρ v)) ++
      values.map (Term.subst fun v ↦ .var (ρ v)) := by
    rw [← List.map_append]
    refine List.map_injective_iff.2 (Option.some_injective Term) (renamed.trans ?_)
    rw [List.map_map, List.map_map]
    rfl
  obtain ⟨head_eq, values_eq⟩ :=
    List.append_inj images (by rw [head, List.length_map, List.length_map])
  refine ⟨done, emits.rule.symm, ρ, ?_, ?_⟩
  · rw [emits.head, Term.subst_apply, ← head_eq, headed]
    rfl
  · rw [emits.bindings, List.map_reverse, ← List.zip_map_right, ← values_eq]
    rfl

/-! ### Moments -/

namespace Moment

variable {moment later : Moment} {view : Machine.View} {branches : List Resolvent}

/-- Branches that have the instances of what is to be searched at a moment. When a solution was
found, the first one is that of the solution. -/
def Ahead (trial : Trial) (context : Context) (moment : Moment) (view : Machine.View)
    (branches : List Resolvent) : Prop :=
  (moment.machine.status ≠ .succeeded ∧
    Resolvent.Shows branches (view.stage Term trial context moment.machine.choices).sets) ∨
  (moment.machine.status = .succeeded ∧ ∃ solution set, moment.machine.pending = some solution ∧
    trial.Emission Term moment.machine solution set ∧
    Resolvent.Shows branches (set :: (view.stage Term trial context moment.machine.choices).sets))

section Run

variable {program : Program}
  (built : program.Built (Rule.AllFunctors fun functor ↦ 0 < functor.arity))
  (named : program.registers ≤ Emit.maxRegister) (canonical : context.Canonical program)
  (runs : trial.Runs context) (sense : trial.Sense context) (exact : trial.Exact Term)

include built named canonical runs sense exact

/-- After a pass the branches are some that the search comes to. -/
theorem Ahead.passes (fits : moment.Fits trial context view)
    (ahead : moment.Ahead trial context view branches) (passes : moment.Passes context later) :
    ∃ after next, later.Fits trial context after ∧ later.Ahead trial context after next ∧
      Relation.ReflTransGen (Resolvent.Expands context) branches next := by
  obtain ⟨-, shows⟩ | ⟨succeeded, -⟩ := ahead
  swap
  · exact absurd succeeded (fits.unfinished passes)
  obtain ⟨after, later_fits, goes⟩ := fits.passes (D := Term) runs passes
  obtain ⟨unfinished, moves⟩ | ⟨succeeded, solution, set, choices, pending, moves, closed,
    emission⟩ :=
    goes sense
  · obtain ⟨next, shown, expanded⟩ := shows.moves built named canonical exact moves
    exact ⟨after, next, later_fits, .inl ⟨unfinished, shown⟩, expanded⟩
  · obtain ⟨next, shown, expanded⟩ := shows.moves built named canonical exact moves
    refine ⟨after, next, later_fits, .inr ⟨succeeded, solution, set, pending, emission, ?_⟩,
      expanded⟩
    rw [closed]
    exact shown

/-- A run finds the solutions of the branches ahead of it. -/
theorem Yields.exists_search {found : List Solution} (yields : moment.Yields context found)
    (fits : moment.Fits trial context view) (ahead : moment.Ahead trial context view branches)
    (headed : trial.entry.head = trial.compiled.head)
    (acyclic : ∀ later, moment.Traverses context later → later.machine.status = .succeeded →
      later.machine.memory.heap.Acyclic) :
    ∃ fuel answers, Resolvent.search context fuel branches = some answers ∧
      List.Forall₂ Solution.Variant found
        (answers.map (Resolvent.solution trial.entry.rule trial.compiled)) := by
  induction yields generalizing view branches with
  | pass passes _ ih =>
    obtain ⟨after, next, later_fits, later_ahead, expanded⟩ :=
      ahead.passes built named canonical runs sense exact fits passes
    obtain ⟨fuel, answers, searched, variants⟩ := ih later_fits later_ahead fun last traverses ↦
      acyclic last (.head (.pass passes) traverses)
    obtain ⟨more, ended⟩ := Resolvent.exists_search expanded searched
    exact ⟨more, answers, ended, variants⟩
  | @solution machine origins solution found succeeded pending _ ih =>
    obtain ⟨unsolved, -⟩ | ⟨-, other, set, noted, emission, shows⟩ := ahead
    · exact absurd succeeded unsolved
    cases pending.symm.trans noted
    have heap_acyclic := acyclic _ .refl succeeded
    -- an acyclic heap has a solution, so there is a branch for this one
    obtain ⟨rfl, -⟩ | ⟨branch, rest, rfl, rfl, -, shown⟩ := shows.cases_cons
    · obtain ⟨θ, solved⟩ := (emission.formed.acyclic_iff Term).1 heap_acyclic
      exact absurd rfl (emission.nonempty solved).ne_empty
    obtain ⟨done, variant⟩ := emission.variant heap_acyclic exact.kinds headed
    obtain ⟨fuel, answers, searched, variants⟩ :=
      ih (fits.handOut succeeded) (.inl ⟨by simp, shown⟩)
      fun last traverses ↦ acyclic last (.head (.handOut succeeded) traverses)
    refine ⟨fuel + 1, branch :: answers, ?_, .cons variant variants⟩
    simp only [Resolvent.search, done, searched, Option.map_some]
  | @finish machine origins failed =>
    have still : view.current = none := fits.still fun _ ↦ by simp [failed]
    obtain ⟨-, shows⟩ | ⟨succeeded, -⟩ := ahead
    swap
    · cases failed.symm.trans succeeded
    have nothing : (view.stage Term trial context machine.choices).sets = [] := by
      rw [fits.status.2 failed, Machine.View.stage, still]
      rfl
    rw [show branches = [] from Resolvent.Shows.eq_nil (nothing ▸ shows)]
    exact ⟨0, [], rfl, .nil⟩

end Run

end Moment

/-! ### Code that adds no references -/

/-- A program whose code adds none, as an argument, to what is on the heap already. -/
def Program.addsNothing (program : Program) : Bool :=
  program.rules.all fun compiled ↦ compiled.code.all Instruction.addsNothing

namespace Moment

variable {program : Program} {moment later : Moment}

private theorem not_ties_of_addsNothing (quiet : context.program.addsNothing = true) :
    ¬moment.Ties context := by
  rintro ⟨-, -, compiled, instruction, ⟨⟨rule, -, listed⟩, here⟩, place, address, adds, -⟩
  have own : compiled.code.all Instruction.addsNothing = true :=
    Array.all_eq_true_iff_forall_mem.1 quiet compiled (Array.mem_of_getElem? listed)
  exact Instruction.not_adds (Array.all_eq_true_iff_forall_mem.1 own instruction
    (Array.mem_of_getElem? here))
    _ place adds

/-- No reference that such a program adds closes a cycle. -/
theorem Tame.traverses (tame : moment.Tame program context) (quiet : program.addsNothing = true)
    (traverses : moment.Traverses context later) : later.Tame program context := by
  obtain ⟨same, on⟩ := tame.setting
  induction traverses with
  | refl => exact tame
  | tail _ last ih =>
    cases last with
    | pass passes => exact ih.pass passes (not_ties_of_addsNothing (same ▸ quiet))
    | @handOut machine origins succeeded =>
      have handed : ({ machine with pending := none } : Machine).resumed =
          { machine with pending := none, status := .backtracking } := if_pos succeeded
      exact handed ▸ (ih.handOut succeeded).search same on

end Moment

/-! ### Attempts -/

/-- A goal that a rule can be attempted with: no variable, and no structure in it has too many
arguments. -/
def Term.attemptable (goal : Term) : Bool := !goal.isVar && goal.fits

private theorem Term.attemptable_of_fitsHead {goal : Term} {head : Functor}
    (fits : Machine.fitsHead head goal = true) :
    goal.attemptable = true ∧ goal.functor? = some head := by
  simp only [Machine.fitsHead, Bool.and_eq_true, decide_eq_true_eq] at fits
  obtain ⟨⟨-, called⟩, fits⟩ := fits
  refine ⟨?_, called⟩
  cases goal with
  | var v => cases called
  | atom | struct | num => simpa [attemptable, isVar] using fits

/-- Where an attempt fails at once, resolution finds no unifier of the head and the goal. -/
theorem CompiledRule.Faithful.attempt_eq_none {compiled : CompiledRule}
    (faithful : compiled.Faithful)
    (canonical : compiled.rule.head.Canonical) {goal : Term} (goal_canonical : goal.Canonical)
    (attemptable : goal.attemptable = true) (other : Machine.fitsHead compiled.head goal = false) :
    compiled.attempt (some goal) = none := by
  simp only [Term.attemptable, Bool.and_eq_true] at attemptable
  obtain ⟨no_var, fits⟩ := attemptable
  simp only [attempt, Option.map_eq_none_iff]
  by_contra unified
  obtain ⟨σ, found⟩ := Option.ne_none_iff_exists'.1 unified
  have same := (Term.mostGeneral_of_mgu? found).unifies
  rw [List.map_singleton, List.map_singleton, List.singleton_inj, Term.subst_subst,
    ← Term.eval_eq_subst, ← Term.eval_eq_subst] at same
  cases called : goal.functor? with
  | some functor =>
    obtain rfl := canonical.functor_eq goal_canonical faithful.functor called same
    simp [Machine.fitsHead, called, fits, (Rule.functor?_eq_some called).1] at other
  | none =>
    rw [canonical.eval_eq faithful.functor] at same
    cases goal with
    | var => cases no_var
    | atom => cases called
    | num =>
      rw [Term.eval_num] at same
      generalize compiled.rule.head.args.map _ = args at same
      cases args <;> simp [Domain.apply] at same
    | struct symbol args =>
      simp only [Term.fits, Bool.and_eq_true, decide_eq_true_eq] at fits
      simp [Term.functor?, fits.1] at called

/-- The branch that an attempt begins with is canonical. -/
theorem CompiledRule.attempt_canonical {compiled : CompiledRule}
    (canonical : compiled.rule.head.Canonical)
    (goals_canonical : ∀ args target, .call args target ∈ compiled.goals →
      ∀ arg ∈ args, arg.Canonical)
    {goal : Option Term} (goal_canonical : ∀ term ∈ goal, term.Canonical) :
    ∀ branch ∈ compiled.attempt goal, branch.Canonical := by
  have own : compiled.resolvent.Canonical := by
    intro called member
    cases called with
    | fail => exact List.forall_mem_nil _
    | call args target => exact goals_canonical args target member
  cases goal with
  | none =>
    rintro _ ⟨⟩
    exact own
  | some term =>
    have apart (v : Var) : (Term.apart (freshVar term.occurrences) v).Canonical := trivial
    refine (own.subst apart).unified (List.forall_mem_singleton.2 ?_)
      (List.forall_mem_singleton.2 (goal_canonical term rfl))
    exact Term.AllFunctors.subst canonical fun v _ ↦ apart v

/-- Resolution finds nothing where an attempt fails at once. -/
theorem Context.answers_of_unfit
    (built : context.program.Built (Rule.AllFunctors fun functor ↦ 0 < functor.arity))
    (named : context.program.registers ≤ Emit.maxRegister) {rule : RuleId} {compiled : CompiledRule}
    (listed : context.program.rule? rule = some compiled) {goal : Option Term}
    (goal_canonical : ∀ term ∈ goal, term.Canonical)
    (attemptable : goal.all Term.attemptable = true)
    (unfit : goal.all (Machine.fitsHead compiled.head) = false) :
    context.answers 0 rule goal = some [] := by
  have faithful := built.faithful named listed
  obtain ⟨head_canonical, -⟩ := built.canonical listed
  cases goal with
  | none => cases unfit
  | some term =>
    rw [answers_eq listed,
      faithful.attempt_eq_none head_canonical (goal_canonical term rfl) attemptable unfit]
    rfl

namespace Machine

variable {rule : RuleId} {goal : Option Term} {machine started last : Machine}
    {found : List Solution}

/-- An attempt that begins finds the solutions of resolution. -/
theorem exists_answers_of_fits
    (built : context.program.Built (Rule.AllFunctors fun functor ↦ 0 < functor.arity))
    (named : context.program.registers ≤ Emit.maxRegister)
    (canonical : context.Canonical context.program)
    {compiled : CompiledRule} (listed : context.program.rule? rule = some compiled)
    (goal_canonical : ∀ term ∈ goal, term.Canonical)
    (fits : goal.all (fitsHead compiled.head) = true)
    (start : start context rule goal machine = .ok ⟨⟩ started)
    (ended : solutions context started = .ok found last)
    (acyclic : ∀ later, Moment.Traverses context ⟨started, none, []⟩ later →
      later.machine.status = .succeeded → later.machine.memory.heap.Acyclic) :
    ∃ fuel answers, context.answers fuel rule goal = some answers ∧
      List.Forall₂ Solution.Variant found answers := by
  have faithful := built.faithful named listed
  obtain ⟨head_canonical, goals_canonical⟩ := built.canonical listed
  have attempted : Attempted (fun functor ↦ 0 < functor.arity) context.program rule compiled goal :=
    ⟨built, named, listed, fun _ ↦ id, goal_canonical⟩
  obtain ⟨arguments, view, start_fits, stage⟩ :=
    fits_start attempted.lawful listed goal_canonical start fits
  have runs := attempted.runs canonical arguments
  have unsolved := unsolved_start start
  have yields := yields_solutions start_fits runs ended
  rw [resumed_of_ne unsolved] at yields
  -- the branch that resolution begins with has the instances that the machine starts with
  have shows : Resolvent.Shows (compiled.attempt goal).toList
      (view.stage Term (.attempting context.program (fun functor ↦ 0 < functor.arity) rule compiled
        arguments) context started.choices).sets := by
    have one := Resolvent.Shows.option
      (CompiledRule.attempt_canonical head_canonical goals_canonical goal_canonical) .nil
    have called (term : Term) (member : term ∈ goal) : term.functor? = some compiled.head := by
      cases member
      exact (Term.attemptable_of_fitsHead fits).2
    rw [List.append_nil, ← faithful.attempts_eq head_canonical goal_canonical called] at one
    exact (stage Term).symm ▸ one
  obtain ⟨fuel, branches, searched, variants⟩ := yields.exists_search built named canonical runs
    (attempted.sense canonical arguments) ⟨Term.exact, fun _ ↦ id⟩ start_fits
      (.inl ⟨unsolved, shows⟩) rfl
    acyclic
  refine ⟨fuel, branches.map (Resolvent.solution rule compiled), ?_, variants⟩
  rw [Context.answers_eq listed, searched]
  rfl

/-- The solutions of an attempt are those of resolution, in the same order and as often, but for the
names of variables, if every heap in which a solution is found is acyclic. A goal that is a
variable, or holds a structure with too many arguments, has none. -/
theorem solutions_resolve
    (built : context.program.Built (Rule.AllFunctors fun functor ↦ 0 < functor.arity))
    (named : context.program.registers ≤ 65535) (store : context.store.Built)
    (facts : ∀ fact, context.store.contains fact → fact.term.Canonical)
    (goal_canonical : ∀ term ∈ goal, term.Canonical)
    (start : start context rule goal machine = .ok ⟨⟩ started)
    (ended : solutions context started = .ok found last)
    (acyclic : ∀ later, Moment.Traverses context ⟨started, none, []⟩ later →
      later.machine.status = .succeeded → later.machine.memory.heap.Acyclic) :
    (goal.all Term.attemptable = true → ∃ fuel answers, context.answers fuel rule goal =
      some answers ∧
      List.Forall₂ Solution.Variant found answers) ∧
    (goal.all Term.attemptable = false → found = []) := by
  cases listed : context.program.rule? rule with
  | none => simp [Machine.start, listed, throw_apply] at start
  | some compiled =>
    cases fits : goal.all (fitsHead compiled.head) with
    | false =>
      obtain ⟨-, rfl⟩ | ⟨fit, -⟩ := start_eq_ok listed start
      · cases (solutions_of_failed rfl).symm.trans ended
        exact ⟨fun attemptable ↦
          ⟨0, [], Context.answers_of_unfit built named listed goal_canonical attemptable fits,
            .nil⟩, fun _ ↦ rfl⟩
      · rw [fits] at fit
        cases fit
    | true =>
      refine ⟨fun _ ↦ exists_answers_of_fits built named ⟨rfl, store, facts⟩ listed
        goal_canonical fits start
        ended acyclic, fun other ↦ ?_⟩
      cases goal with
      | none => cases other
      | some term => cases other.symm.trans (Term.attemptable_of_fitsHead fits).1

/-- The attempt has the solutions `r(f(a))` and `r(b)`, and so has resolution. -/
theorem solutions_resolve_selecting :
    let context : Context := .selecting Fact.candidates
    (Program.selecting.Built (Rule.AllFunctors fun functor ↦ 0 < functor.arity) ∧
      Program.selecting.registers ≤ 65535 ∧ context.Canonical .selecting) ∧
    ∃ started found last, Machine.start context ⟨2⟩ none (.new 2) = .ok ⟨⟩ started ∧
      solutions context started = .ok found last ∧
      found.map (·.head) = [.struct ⟨2⟩ [.struct ⟨3⟩ [.atom ⟨4⟩]], .struct ⟨2⟩ [.atom ⟨5⟩]] ∧
      (∀ later, Moment.Traverses context ⟨started, none, []⟩ later →
        later.machine.memory.heap.Acyclic) ∧
      ∃ fuel answers, context.answers fuel ⟨2⟩ none = some answers ∧
        List.Forall₂ Solution.Variant found answers := by
  intro context
  have named : Program.selecting.registers ≤ 65535 := by decide +kernel
  have bank : (Machine.new 2).registers.size = Program.selecting.registers := by decide +kernel
  have quiet : Program.selecting.addsNothing = true := by decide +kernel
  have canonical : context.Canonical .selecting := Context.canonical_selecting (List.Subset.refl _)
  obtain ⟨found, last, both, heads⟩ := @headsFound_eq_some context ⟨2⟩ 2
    [.struct ⟨2⟩ [.struct ⟨3⟩ [.atom ⟨4⟩]], .struct ⟨2⟩ [.atom ⟨5⟩]] (by decide +kernel)
  obtain ⟨_, started, start, ended⟩ := bind_eq_ok.1 both
  have acyclic (later : Moment) (traverses : Moment.Traverses context ⟨started, none, []⟩ later) :
      later.machine.memory.heap.Acyclic :=
    ((Moment.Tame.traverses (.start bank rfl rfl start) quiet traverses).solvable
      Program.built_selecting).1.acyclic
  have resolved := solutions_resolve Program.built_selecting named canonical.built canonical.facts
    (by simp) start ended fun later traverses _ ↦ acyclic later traverses
  exact ⟨⟨Program.built_selecting, named, canonical⟩, started, found, last, start, ended,
    heads, acyclic, resolved.1 rfl⟩

/-! ### Goals that no rule is attempted with -/

/-- A goal that cannot match the head of a rule fails at once. -/
theorem start_of_unfit {compiled : CompiledRule}
    (listed : context.program.rule? rule = some compiled)
    (room : compiled.head.arity ≤ machine.registers.size) (goal : Option Term)
    (unfit : goal.all (fitsHead compiled.head) = false) :
    Machine.start context rule goal machine =
      .ok ⟨⟩ { machine.reset with rule := some rule, status := .failed } := by
  have bank : ¬machine.reset.registers.size < compiled.head.arity := by
    rw [reset, Array.size_replicate]
    exact Nat.not_lt.2 room
  simp only [start, listed, bind_apply, modify_apply, enter, get_apply, unfit]
  rw [if_neg bank]
  rfl

/-- Resolution has answers for a goal, the machine has none, though it meets no cyclic heap. -/
def Misses (context : Context) (rule : RuleId) (goal : Term) (machine : Machine) : Prop :=
  (∃ started, Machine.start context rule (some goal) machine = .ok ⟨⟩ started ∧
    solutions context started = .ok [] started ∧
    ∀ later, Moment.Traverses context ⟨started, none, []⟩ later →
      later.machine.memory.heap.Acyclic) ∧
  ¬∃ fuel answers, context.answers fuel rule (some goal) = some answers ∧
    List.Forall₂ Solution.Variant [] answers

private theorem misses_of_unfit {compiled : CompiledRule}
    (listed : context.program.rule? rule = some compiled)
    (room : compiled.head.arity ≤ machine.registers.size) {goal : Term}
    (unfit : fitsHead compiled.head goal = false) (fuel : Nat)
    (answered : (context.answers fuel rule (some goal)).map List.length = some 1) :
    Misses context rule goal machine := by
  refine ⟨⟨_, start_of_unfit listed room (some goal) unfit, solutions_of_failed rfl,
    fun later traverses ↦ ?_⟩, ?_⟩
  · obtain rfl | ⟨_, proceeds, -⟩ := traverses.cases_head
    · exact Heap.solvable_empty.acyclic
    · cases proceeds with
      | pass passes => exact absurd passes (Moment.not_passes_of_failed rfl)
      | handOut succeeded => cases succeeded
  · rintro ⟨more, answers, resolved, ⟨⟩⟩
    obtain ⟨answers, answered, one⟩ := Option.map_eq_some_iff.1 answered
    rw [Context.answers_unique answered resolved] at one
    cases one

end Machine

/-- The rule `p(X).` -/
def Rule.unary : Rule where
  head := .struct ⟨0⟩ [.var 0]
  body := []

/-- The program of that rule. -/
def Program.unary : Program :=
  match (Program.new 1).addRule .empty .unary with
  | .ok (_, program) => program
  | .error _ => .new 1

/-- The program without facts. -/
def Context.unary : Context where
  program := .unary
  store := .empty
  occursCheck := .on
  stepLimit := 100

/-- A goal `p(f(1, …, 1))` with more arguments than a functor can have. -/
def Term.wide : Term := .struct ⟨0⟩ [.struct ⟨1⟩ (List.replicate 256 (.num 1))]

private theorem Term.canonical_wide : Term.wide.Canonical := by
  refine Term.allFunctors_struct.2 ⟨Nat.one_pos, List.forall_mem_singleton.2 ?_⟩
  rw [Term.allFunctors_struct, List.length_replicate]
  refine ⟨by decide, fun arg member ↦ ?_⟩
  rw [List.eq_of_mem_replicate member]
  trivial

/-- The machine has no solutions for a goal with too many arguments, or for one that is a
variable. -/
theorem Machine.misses_unary :
    (Program.unary.Built (Rule.AllFunctors fun functor ↦ 0 < functor.arity) ∧
      Program.unary.registers ≤ 65535 ∧ Context.unary.Canonical .unary) ∧
    (Term.wide.Canonical ∧ Misses .unary ⟨0⟩ .wide (.new 1)) ∧
    (Term.var 0).Canonical ∧ Misses .unary ⟨0⟩ (.var 0) (.new 1) := by
  have built : Program.unary.Built (Rule.AllFunctors fun functor ↦ 0 < functor.arity) := by
    unfold Program.unary
    split
    · next added =>
      refine .addRule (.new 1) ?_ added
      simp [Rule.AllFunctors, Rule.unary, Term.AllFunctors, Term.AllFunctorsList]
    · exact .new 1
  have head : (Context.unary.program.rule? ⟨0⟩).map CompiledRule.head = some ⟨⟨0⟩, 1⟩ := by
    decide +kernel
  obtain ⟨compiled, listed, called⟩ := Option.map_eq_some_iff.1 head
  have room : compiled.head.arity ≤ (Machine.new 1).registers.size := by
    rw [called]
    decide +kernel
  refine ⟨⟨built, by decide +kernel, rfl, .empty, ?_⟩, ⟨Term.canonical_wide, ?_⟩, trivial, ?_⟩
  · simp [Context.unary, FactStore.contains, FactStore.empty]
  · exact misses_of_unfit listed room (by rw [called]; decide +kernel) 1 (by decide +kernel)
  · exact misses_of_unfit listed room (by rw [called]; decide +kernel) 1 (by decide +kernel)

end HornMachine
