import HornMachine.Proofs.Machine.Safety

/-!
# Instances follow from the program

A model is any reading of tasks under which the stored facts hold and the rules are true. An
instance that still has tasks is justified if, once they hold, it is an instance of the attempted
rule whose goals hold. Moves add no other instances. Main statement: in every attempt, with facts
asserted between two searches or not, the branch in which a solution is found has justified
instances only.
-/

namespace HornMachine

open Code (Meaning)

variable {D : Type} [Domain D] {context : Context}

/-! ### Models -/

/-- A reading of tasks under which stored facts hold, a builtin holds of what it passes, and the
rules of the program are true. -/
structure Context.Model (context : Context) (holds : Task D → Prop) : Prop where
  fact : ∀ functor, ∀ stored ∈ context.store.factsOf functor,
    holds (.call stored.values (.predicate stored.functor))
  builtin : ∀ builtin arity args, builtin.Passes args → holds (.call args (.builtin builtin arity))
  rule : ∀ id compiled η ρ tasks, context.program.rule? id = some compiled →
    Meaning η compiled.body ρ [] tasks → (∀ task ∈ tasks, holds task) →
    holds (.call ((List.range compiled.head.arity).map ρ) (.predicate compiled.head))

/-- A candidate that the facts or the program has. -/
def Candidate.Among (context : Context) : Candidate → Prop
  | .fact stored => ∃ functor, stored ∈ context.store.factsOf functor
  | .clause compiled => ∃ id, context.program.rule? id = some compiled

namespace Context

private theorem among_clausesFrom {goal : Functor} {position : Nat} :
    ∀ candidate ∈ context.clausesFrom goal position, candidate.Among context := by
  intro candidate member
  obtain ⟨id, -, made⟩ := List.mem_filterMap.1 member
  obtain ⟨compiled, found, rfl⟩ := Option.map_eq_some_iff.1 made
  exact ⟨id, found⟩

private theorem among_candidates {goal : Functor} :
    ∀ candidate ∈ context.candidates goal, candidate.Among context := by
  refine List.forall_mem_append.2 ⟨fun candidate member ↦ ?_, among_clausesFrom⟩
  obtain ⟨stored, listed, rfl⟩ := List.mem_map.1 member
  exact ⟨goal, Array.mem_toList_iff.1 listed⟩

private theorem among_candidatesLeft (choice : Choice) :
    ∀ candidate ∈ context.candidatesLeft choice, candidate.Among context := by
  unfold candidatesLeft
  split
  · refine List.forall_mem_append.2 ⟨fun candidate member ↦ ?_, among_clausesFrom⟩
    obtain ⟨stored, remains, rfl⟩ := List.mem_map.1 member
    obtain ⟨functor, -, listed⟩ := FactStore.mem_factsOf_of_mem_remaining remains
    exact ⟨functor, listed⟩
  · exact among_clausesFrom

end Context

/-! ### Moves -/

/-- What is left of each instance is enough for it to be one of those at the start with its goals
done. -/
def Instance.Justified (start : Set (Instance D)) (holds : Task D → Prop) (set : Set (Instance D)) :
    Prop :=
  ∀ an ∈ set, (∀ task ∈ an.goals, holds task) →
    ∃ first ∈ start, first.head = an.head ∧ first.values = an.values ∧
      ∀ task ∈ first.goals, holds task

namespace Instance.Justified

variable {start set : Set (Instance D)} {holds : Task D → Prop}

omit [Domain D] in
theorem refl : Justified set holds set :=
  fun an member done ↦ ⟨an, member, rfl, rfl, done⟩

omit [Domain D] in
/-- A task that holds may be left out. -/
theorem after (justified : Justified start holds set) {task : Task D} (true_task : holds task) :
    Justified start holds (Instance.After set task) :=
  fun an member done ↦
    justified ⟨task :: an.goals, an.head, an.values⟩ member
      (List.forall_mem_cons.2 ⟨true_task, done⟩)

/-- What a candidate answers holds. -/
theorem answers (justified : Justified start holds set) (model : context.Model holds)
    {candidate : Candidate} (among : candidate.Among context) :
    Justified start holds (candidate.answers set) := by
  cases candidate with
  | fact stored =>
    obtain ⟨functor, listed⟩ := among
    exact justified.after (model.fact functor stored listed)
  | clause compiled =>
    obtain ⟨id, found⟩ := among
    rintro an ⟨η, ρ, first, rest, meaning, goals, member⟩ done
    rw [goals] at done
    obtain ⟨body, others⟩ := List.forall_mem_append.1 done
    exact justified.after (model.rule id compiled η ρ first found meaning body)
      ⟨rest, _, _⟩ member others

/-- The rule attempted concludes the head of an instance without goals. -/
theorem holds_head {compiled : CompiledRule} {goal : Option Term} {rule : RuleId}
    (justified : Justified (compiled.attempts D goal) holds set) (model : context.Model holds)
    (found : context.program.rule? rule = some compiled) {an : Instance D} (member : an ∈ set)
    (done : an.goals = []) : holds (.call an.head (.predicate compiled.head)) := by
  obtain ⟨first, ⟨η, ρ, meaning, head, -⟩, same, -, hold⟩ :=
    justified an member (done ▸ List.forall_mem_nil _)
  rw [← same, head]
  exact model.rule rule compiled η ρ first.goals found meaning hold

end Instance.Justified

/-- A stage with justified instances only, whose candidates are those of the context. -/
structure Stage.Justified (context : Context) (start : Set (Instance D)) (holds : Task D → Prop)
    (stage : Stage D) : Prop where
  current : ∀ set ∈ stage.current, Instance.Justified start holds set
  choices : ∀ choice ∈ stage.choices, Instance.Justified start holds choice.1
  among : ∀ choice ∈ stage.choices, ∀ candidate ∈ choice.2, candidate.Among context

namespace Stage.Justified

variable {start : Set (Instance D)} {holds : Task D → Prop} {stage later : Stage D} {exact : Prop}

/-- A move adds no instance that is not justified. -/
theorem move (justified : stage.Justified context start holds) (model : context.Model holds)
    (move : Move exact context stage later) : later.Justified context start holds := by
  cases move with
  | fail | reject => exact ⟨nofun, justified.choices, justified.among⟩
  | pass calls sure =>
    refine ⟨?_, justified.choices, justified.among⟩
    rintro _ ⟨⟩ an ⟨args, passes, after⟩ done
    exact (justified.current _ rfl).after (model.builtin _ _ _ passes) an after done
  | call calls kept useless =>
    refine ⟨nofun, List.forall_mem_cons.2 ⟨justified.current _ rfl, justified.choices⟩,
      List.forall_mem_cons.2 ⟨fun candidate member ↦ ?_, justified.among⟩⟩
    exact Context.among_candidates candidate (List.mem_filter.1 member).1
  | take =>
    obtain ⟨first, others⟩ := List.forall_mem_cons.1 justified.choices
    obtain ⟨among, among_others⟩ := List.forall_mem_cons.1 justified.among
    obtain ⟨taken, left⟩ := List.forall_mem_cons.1 among
    refine ⟨?_, List.forall_mem_cons.2 ⟨first, others⟩, List.forall_mem_cons.2 ⟨left, among_others⟩⟩
    rintro _ ⟨⟩
    exact first.answers model taken
  | skip useless =>
    obtain ⟨among, among_others⟩ := List.forall_mem_cons.1 justified.among
    obtain ⟨first, others⟩ := List.forall_mem_cons.1 justified.choices
    exact ⟨nofun, List.forall_mem_cons.2 ⟨first, others⟩,
      List.forall_mem_cons.2 ⟨(List.forall_mem_cons.1 among).2, among_others⟩⟩
  | pop =>
    exact ⟨justified.current, (List.forall_mem_cons.1 justified.choices).2,
      (List.forall_mem_cons.1 justified.among).2⟩

theorem moves (justified : stage.Justified context start holds) (model : context.Model holds)
    (moves : Moves exact context stage later) : later.Justified context start holds := by
  induction moves with
  | refl => exact justified
  | tail _ last ih => exact ih.move model last

end Stage.Justified

/-! ### Searches -/

/-- What holds with more facts holds with fewer. -/
theorem Context.Model.mono {other : Context} {holds : Task D → Prop} (model : other.Model holds)
    (same : context.program = other.program)
    (more : ∀ functor, ∀ stored ∈ context.store.factsOf functor,
      ∃ larger, stored ∈ other.store.factsOf larger) : context.Model holds where
  fact functor stored listed := by
    obtain ⟨larger, there⟩ := more functor stored listed
    exact model.fact larger stored there
  builtin := model.builtin
  rule id compiled η ρ tasks found := model.rule id compiled η ρ tasks (same ▸ found)

/-- Whatever the store, a view has the same calls at its choice points. -/
theorem Machine.View.justified_inContext {trial : Trial} {view : View} {choices : List Choice}
    {other : Context} {start : Set (Instance D)} {holds : Task D → Prop}
    (justified : (view.stage D trial context choices).Justified context start holds) :
    (view.stage D trial other choices).Justified other start holds := by
  refine ⟨justified.current, fun choice member ↦ ?_, fun choice member ↦ ?_⟩
  all_goals
    obtain ⟨index, lower, rfl⟩ := List.getElem_of_mem member
    simp only [View.stage, List.length_zipWith] at lower
    simp only [View.stage, List.getElem_zipWith]
  · have here := justified.choices
      (view.pauses[index].instances trial choices[index], context.candidatesLeft choices[index])
    exact here (List.mem_iff_getElem.2 ⟨index, by simpa [View.stage] using lower,
      by simp [View.stage]⟩)
  · exact Context.among_candidatesLeft _

/-- A search keeps a stage justified, and the branch of its solution has justified instances. -/
theorem Moment.Fits.justified_nextSolution {trial : Trial} {machine last : Machine}
    {origins : List Machine} {view : Machine.View} {result : Option Solution}
    (fits : Fits trial context ⟨machine, none, origins⟩ view) (runs : trial.Runs context)
    (sense : trial.Sense context) (ended : machine.nextSolution context = .ok result last) :
    ∃ left after, Fits trial context ⟨last, none, left⟩ after ∧
      (∀ (start : Set (Instance D)) (holds : Task D → Prop), context.Model holds →
        (view.stage D trial context machine.choices).Justified context start holds →
        (after.stage D trial context last.choices).Justified context start holds) ∧
      ∀ solution ∈ result, ∃ set, trial.Emission D last solution set ∧
        ∀ (start : Set (Instance D)) (holds : Task D → Prop), context.Model holds →
          (view.stage D trial context machine.choices).Justified context start holds →
          Instance.Justified start holds set := by
  obtain ⟨left, after, later_fits, searches⟩ := fits.nextSolution (D := D) runs ended
  have searched := searches sense
  refine ⟨left, after, later_fits, ?_⟩
  cases result with
  | none =>
    obtain ⟨-, closed⟩ := searched
    refine ⟨fun start holds _ _ ↦ ?_, nofun⟩
    rw [closed]
    exact ⟨nofun, List.forall_mem_nil _, List.forall_mem_nil _⟩
  | some solution =>
    obtain ⟨set, choices, moves, closed, emission⟩ := searched
    refine ⟨fun start holds model justified ↦ ?_, ?_⟩
    · have found := justified.moves model moves
      rw [closed]
      exact ⟨nofun, found.choices, found.among⟩
    · rintro _ ⟨⟩
      exact ⟨set, emission, fun start holds model justified ↦
        (justified.moves model moves).current set rfl⟩

/-- A context with the program and a store of canonical facts. -/
structure Context.Canonical (program : Program) (context : Context) : Prop where
  program : context.program = program
  built : context.store.Built
  facts : ∀ fact, context.store.contains fact → fact.term.Canonical

/-- Facts are listed if and only if they are stored. -/
theorem Context.Canonical.contains_of_mem {program : Program}
    (canonical : context.Canonical program)
    {functor : Functor} {fact : Fact} (listed : fact ∈ context.store.factsOf functor) :
    context.store.contains fact := by
  have consistent := canonical.built.consistent
  rw [consistent.known, consistent.functor functor fact listed]
  exact listed

namespace Machine

/-- The machines of an attempt at a rule, with the context of the last search: the attempt is
started, and solutions are searched for. Facts may be asserted between two searches, and the policy
may change. -/
inductive Attempting (program : Program) (rule : RuleId) (goal : Option Term) :
    Context → Machine → Prop
  | start {context : Context} {machine later : Machine} (canonical : context.Canonical program)
    (ended : machine.start context rule goal = .ok ⟨⟩ later) :
    Attempting program rule goal context later
  | search {context other : Context} {machine later : Machine} {result : Option Solution}
    (attempting : Attempting program rule goal context machine)
    (canonical : other.Canonical program)
    (more : ∀ fact, context.store.contains fact → other.store.contains fact)
    (ended : machine.nextSolution other = .ok result later) :
    Attempting program rule goal other later

variable {admits : Functor → Prop} {program : Program} {rule : RuleId} {compiled : CompiledRule}
  {goal : Option Term} {machine last : Machine}

/-- What is asked of an attempt for its instances to be justified. -/
structure Attempted (admits : Functor → Prop) (program : Program) (rule : RuleId)
    (compiled : CompiledRule) (goal : Option Term) : Prop where
  built : program.Built (Rule.AllFunctors fun functor ↦ 0 < functor.arity)
  named : program.registers ≤ Emit.maxRegister
  found : program.rule? rule = some compiled
  wide : ∀ functor, 0 < functor.arity → admits functor
  goal : ∀ term ∈ goal, term.AllFunctors admits

namespace Attempted

variable (attempted : Attempted admits program rule compiled goal)

include attempted

theorem lawful : program.Lawful admits :=
  (attempted.built.mono fun _ kinds ↦ ⟨kinds.1.mono attempted.wide,
    fun goal member ↦ (kinds.2 goal member).mono attempted.wide⟩).lawful

theorem runs (canonical : context.Canonical program) (arguments : List Address) :
    (Trial.attempting program admits rule compiled arguments).Runs context :=
  ⟨canonical.program, attempted.lawful, attempted.found, fun _ fact listed ↦
    (canonical.facts fact (canonical.contains_of_mem listed)).mono attempted.wide⟩

theorem sense (canonical : context.Canonical program) (arguments : List Address) :
    (Trial.attempting program admits rule compiled arguments).Sense context :=
  ⟨attempted.named, canonical.built.consistent⟩

end Attempted

variable (D admits program rule compiled goal) in
/-- A machine of an attempt has failed, or it is at a stage that is justified. -/
def Viewed (context : Context) (machine : Machine) : Prop :=
  machine.status = .failed ∨ ∃ arguments origins view,
    Moment.Fits (.attempting program admits rule compiled arguments) context
      ⟨machine, none, origins⟩ view ∧
    ∀ holds : Task D → Prop, context.Model holds →
      (view.stage D (.attempting program admits rule compiled arguments) context
        machine.choices).Justified context (compiled.attempts D goal) holds

private theorem viewed_start (attempted : Attempted admits program rule compiled goal)
    (canonical : context.Canonical program)
    (ended : machine.start context rule goal = .ok ⟨⟩ last) :
    Viewed D admits program rule compiled goal context last := by
  obtain rfl := canonical.program
  cases fit : goal.all (fitsHead compiled.head) with
  | false =>
    obtain ⟨-, rfl⟩ | ⟨fits, -⟩ := start_eq_ok attempted.found ended
    · exact .inl rfl
    · rw [fit] at fits
      cases fits
  | true =>
    obtain ⟨arguments, view, fits, stage⟩ :=
      fits_start attempted.lawful attempted.found attempted.goal ended fit
    refine .inr ⟨arguments, [], view, fits, fun holds _ ↦ ?_⟩
    rw [stage D]
    refine ⟨?_, List.forall_mem_nil _, List.forall_mem_nil _⟩
    rintro _ ⟨⟩
    exact .refl

/-- A search in a store that has all the facts there were before. -/
theorem Viewed.search {other : Context} {result : Option Solution}
    (viewed : Viewed D admits program rule compiled goal context machine)
    (attempted : Attempted admits program rule compiled goal) (earlier : context.Canonical program)
    (canonical : other.Canonical program)
    (more : ∀ fact, context.store.contains fact → other.store.contains fact)
    (ended : machine.nextSolution other = .ok result last) :
    Viewed D admits program rule compiled goal other last ∧
      ∀ solution ∈ result, ∃ arguments set,
        (Trial.attempting program admits rule compiled arguments).Emission D last solution
          set ∧
        ∀ holds : Task D → Prop, other.Model holds →
          Instance.Justified (compiled.attempts D goal) holds set := by
  obtain failed | ⟨arguments, origins, view, fits, justified⟩ := viewed
  · rw [nextSolution_of_still other (.inr failed)] at ended
    cases ended
    exact ⟨.inl failed, nofun⟩
  have stage (holds : Task D → Prop) (model : other.Model holds) :
      (view.stage D (.attempting program admits rule compiled arguments) other
        machine.choices).Justified other (compiled.attempts D goal) holds :=
    View.justified_inContext (justified holds (model.mono
      (earlier.program.trans canonical.program.symm) fun functor stored listed ↦ ⟨stored.functor,
        (canonical.built.consistent.known stored).1
          (more stored (earlier.contains_of_mem listed))⟩))
  obtain ⟨left, after, later_fits, kept, found⟩ :=
    (fits.inContext other rfl).justified_nextSolution (D := D) (attempted.runs canonical arguments)
      (attempted.sense canonical arguments) ended
  refine ⟨.inr ⟨arguments, left, after, later_fits, fun holds model ↦
    kept _ holds model (stage holds model)⟩, fun solution here ↦ ?_⟩
  obtain ⟨set, emission, same⟩ := found solution here
  exact ⟨arguments, set, emission, fun holds model ↦ same _ holds model (stage holds model)⟩

theorem Attempting.canonical (attempting : Attempting program rule goal context machine) :
    context.Canonical program := by
  cases attempting with
  | start canonical | search _ canonical => exact canonical

theorem Attempting.viewed (attempting : Attempting program rule goal context machine)
    (attempted : Attempted admits program rule compiled goal) :
    Viewed D admits program rule compiled goal context machine := by
  induction attempting with
  | start canonical ended => exact viewed_start attempted canonical ended
  | search attempting canonical more ended ih =>
    exact (ih.search attempted attempting.canonical canonical more ended).1

/-- A solution found in an attempt is read from a branch with justified instances only. -/
theorem Attempting.exists_justified {other : Context} {solution : Solution}
    (attempting : Attempting program rule goal context machine)
    (attempted : Attempted admits program rule compiled goal) (canonical : other.Canonical program)
    (more : ∀ fact, context.store.contains fact → other.store.contains fact)
    (ended : machine.nextSolution other = .ok (some solution) last) :
    ∃ arguments set,
      (Trial.attempting program admits rule compiled arguments).Emission D last solution
        set ∧
      ∀ holds : Task D → Prop, other.Model holds →
        Instance.Justified (compiled.attempts D goal) holds set :=
  ((attempting.viewed attempted).search attempted attempting.canonical canonical more ended).2
    solution rfl

end Machine
end HornMachine
