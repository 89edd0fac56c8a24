import HornMachine.Proofs.Machine.Justification

/-!
# Attempts at canonical rules

The moments of an attempt at a rule of a canonical program, with a canonical goal or none, whose
facts are canonical: the run makes passes, solutions are handed out and more are searched for, and
between two searches facts are asserted. Main statement: at every such moment the machine fits a
view in which all structures have arguments, so at a call the heap is well formed and the argument
registers hold addresses of it.
-/

namespace HornMachine

namespace Moment

variable {program : Program} {context other : Context} {moment later : Moment}

/-- What happens to an attempt between two moments, with the context before and after it. -/
inductive Steps (program : Program) : Context → Moment → Context → Moment → Prop
  | pass {context : Context} {moment later : Moment} (passes : moment.Passes context later) :
    Steps program context moment context later
  | handOut {context : Context} {machine : Machine} {origins : List Machine}
    (succeeded : machine.status = .succeeded) :
    Steps program context ⟨machine, none, origins⟩ context ⟨{ machine with pending := none },
      none, origins⟩
  | facts {context other : Context} {machine : Machine} {origins : List Machine}
    (canonical : other.Canonical program) (same : other.occursCheck = context.occursCheck)
    (more : ∀ functor, (context.store.factsOf functor).toList <+:
      (other.store.factsOf functor).toList) :
    Steps program context ⟨machine, none, origins⟩ other ⟨machine, none, origins⟩
  | resume {context : Context} {machine : Machine} {origins : List Machine} :
    Steps program context ⟨machine, none, origins⟩ context ⟨machine.resumed, none, origins⟩

/-- The moments of attempts at canonical rules, with the context of the moment. -/
inductive Regular (program : Program) : Context → Moment → Prop
  | start {context : Context} {rule : RuleId} {goal : Option Term} {machine later : Machine}
    (canonical : context.Canonical program) (head : ∀ term ∈ goal, term.Canonical)
    (ended : machine.start context rule goal = .ok ⟨⟩ later) :
    Regular program context ⟨later, none, []⟩
  | step {context other : Context} {moment later : Moment}
    (regular : Regular program context moment)
    (steps : Steps program context moment other later) : Regular program other later

/-- The moment fits a view in which all structures have arguments. -/
def Fitting (program : Program) (context : Context) (moment : Moment) : Prop :=
  ∃ trial view, trial.Runs context ∧ trial.program = program ∧
    trial.admits = (fun functor ↦ 0 < functor.arity) ∧ moment.Fits trial context view

/-- An attempt runs with other canonical facts, too. -/
theorem runs_of_canonical {trial : Trial} (runs : trial.Runs context)
    (same : trial.program = program) (admits : trial.admits = fun functor ↦ 0 < functor.arity)
    (canonical : other.Canonical program) :
    trial.Runs other :=
  ⟨canonical.program.trans same.symm, runs.lawful, runs.found, fun _ fact listed ↦
    admits ▸ canonical.facts fact (canonical.contains_of_mem listed)⟩

theorem Fitting.steps (fitting : moment.Fitting program context)
    (steps : Steps program context moment other later) : later.Fitting program other := by
  obtain ⟨trial, view, runs, same, admits, fits⟩ := fitting
  cases steps with
  | pass passes =>
    obtain ⟨after, later_fits, -⟩ := fits.passes (D := Term) runs passes
    exact ⟨trial, after, runs, same, admits, later_fits⟩
  | handOut succeeded =>
    have still : view.current = none := fits.still fun _ ↦ by simp [succeeded]
    exact ⟨trial, view, runs, same, admits, fits.machine.congr still rfl rfl rfl rfl,
      by simp [still, succeeded], nofun, fits.room, fits.status, fits.traced⟩
  | facts canonical =>
    exact ⟨trial, view, runs_of_canonical runs same admits canonical, same, admits,
      fits.inContext other rfl⟩
  | resume => exact ⟨trial, view, runs, same, admits, fits.resumed.1⟩

theorem Regular.canonical (regular : moment.Regular program context) :
    context.Canonical program := by
  induction regular with
  | start canonical => exact canonical
  | step _ steps ih =>
    cases steps with
    | facts canonical => exact canonical
    | pass | handOut | resume => exact ih

theorem Regular.reaches (regular : moment.Regular program context)
    (reaches : moment.Reaches context later) :
    later.Regular program context := by
  induction reaches with
  | refl => exact regular
  | tail _ last ih => exact ih.step (.pass last)

variable (built : program.Built (Rule.AllFunctors fun functor ↦ 0 < functor.arity))

include built

/-- The attempt has failed, or the moment fits a view. -/
theorem Regular.fitting (regular : moment.Regular program context) :
    (moment.seeking = none ∧ moment.machine.status = .failed ∧ moment.machine.choices = []) ∨
      moment.Fitting program context := by
  induction regular with
  | @start context rule goal machine later canonical head ended =>
    obtain ⟨compiled, found⟩ := Machine.exists_rule_of_start ended
    obtain ⟨-, rfl⟩ | ⟨fits, -⟩ := Machine.start_eq_ok found ended
    · exact .inl ⟨rfl, rfl, rfl⟩
    · obtain rfl := canonical.program
      have lawful : context.program.Lawful fun functor ↦ 0 < functor.arity := built.lawful
      obtain ⟨arguments, view, later_fits, -⟩ := Machine.fits_start lawful found head ended fits
      have facts (functor : Functor) (fact : Fact) (listed : fact ∈ context.store.factsOf functor) :
          fact.term.AllFunctors fun functor ↦ 0 < functor.arity :=
        canonical.facts fact (canonical.contains_of_mem listed)
      exact .inr ⟨_, view, ⟨rfl, lawful, found, facts⟩, rfl, rfl, later_fits⟩
  | @step _ _ moment _ regular steps ih =>
    obtain ⟨none_sought, failed, none_left⟩ | fitting := ih
    · cases steps with
      | pass passes =>
        obtain ⟨machine, seeking, origins⟩ := moment
        cases none_sought
        exact absurd passes (not_passes_of_failed failed)
      | handOut succeeded => cases failed.symm.trans succeeded
      | facts => exact .inl ⟨rfl, failed, none_left⟩
      | resume =>
        dsimp only at failed
        rw [Machine.resumed, if_neg (by simp [failed])]
        exact .inl ⟨rfl, failed, none_left⟩
    · exact .inr (fitting.steps steps)

/-- A moment with a choice point fits a view. -/
theorem Regular.fitting_of_choices (regular : moment.Regular program context)
    (left : moment.machine.choices ≠ []) : moment.Fitting program context :=
  (regular.fitting built).resolve_left fun ⟨_, _, none_left⟩ ↦ left none_left

/-- At a call the heap is well formed, and the argument registers hold addresses of it. -/
theorem Regular.arguments {machine : Machine} {origins : List Machine} {compiled : CompiledRule}
    {goal : Functor} (regular : Regular program context ⟨machine, none, origins⟩)
    (running : machine.status = .running)
    (fetches : machine.Fetches context compiled (.call (.predicate goal))) :
    machine.memory.heap.Formed (fun functor ↦ 0 < functor.arity) 0 ∧
      Point.Holds machine.registers {index | index < goal.arity} machine.memory.heap.size := by
  obtain ⟨-, failed, -⟩ | ⟨trial, view, runs, -, admits, fits⟩ := regular.fitting built
  · cases running.symm.trans failed
  · obtain ⟨situation, current⟩ := fits.exists_current rfl running
    obtain ⟨rule, number, frame, inside⟩ :=
      fits.machine.exists_inside runs current fetches nofun nofun
    obtain ⟨-, formed, holds⟩ := inside.arguments fetches.code
    exact ⟨admits ▸ formed, holds⟩

end Moment

/-! ### Attempts that are run -/

theorem Context.regular_attempt {program : Program} {context : Context}
    (canonical : context.Canonical program)
    {rule : RuleId} {registers turns : Nat} {later : Machine}
    (ended : context.attempt rule registers turns = some later) :
    ∃ origins, Moment.Regular program context ⟨later, none, origins⟩ := by
  rw [attempt] at ended
  split at ended
  · next first started =>
    obtain ⟨left, reaches⟩ := Machine.reaches_afterTurns ended []
    exact ⟨left, (Moment.Regular.start canonical (by simp) started).reaches reaches⟩
  · cases ended

end HornMachine
