import HornMachine.Proofs.Machine.Moments

/-!
# All solutions of an attempt

Solutions are searched for one after another until there are no more. Seen pass by pass that is one
run: it goes back whenever it has handed out a solution. Main statement: the solutions of an attempt
that is not broken off are all those of this run, with no bound on their number.
-/

namespace HornMachine

variable {trial : Trial} {context : Context}

namespace Moment

/-- The solutions of a run that is not broken off. -/
inductive Yields (context : Context) : Moment → List Solution → Prop
  | pass {moment later : Moment} {found : List Solution} (passes : moment.Passes context later)
    (rest : Yields context later found) : Yields context moment found
  | solution {machine : Machine} {origins : List Machine} {solution : Solution}
    {found : List Solution}
    (succeeded : machine.status = .succeeded) (pending : machine.pending = some solution)
    (rest : Yields context ⟨{ machine with pending := none, status := .backtracking }, none,
      origins⟩ found) :
    Yields context ⟨machine, none, origins⟩ (solution :: found)
  | finish {machine : Machine} {origins : List Machine} (failed : machine.status = .failed) :
    Yields context ⟨machine, none, origins⟩ []

/-- A run that searches for all solutions goes on: it makes a pass, or it goes back from a
solution. -/
inductive Proceeds (context : Context) : Moment → Moment → Prop
  | pass {moment later : Moment} (passes : moment.Passes context later) :
    Proceeds context moment later
  | handOut {machine : Machine} {origins : List Machine} (succeeded : machine.status = .succeeded) :
    Proceeds context ⟨machine, none, origins⟩
      ⟨{ machine with pending := none, status := .backtracking }, none, origins⟩

/-- A moment that such a run passes through. -/
abbrev Traverses (context : Context) : Moment → Moment → Prop :=
  Relation.ReflTransGen (Proceeds context)

variable {moment later : Moment} {view : Machine.View}

theorem Yields.of_reaches {found : List Solution} (reaches : moment.Reaches context later)
    (yields : later.Yields context found) : moment.Yields context found := by
  induction reaches using Relation.ReflTransGen.head_induction_on with
  | refl => exact yields
  | head passes _ ih => exact .pass passes ih

/-- An attempt that goes on makes a pass. -/
theorem Yields.exists_pass {found : List Solution} (yields : moment.Yields context found)
    (active : moment.machine.status.Active) :
    ∃ later, moment.Passes context later ∧ later.Yields context found := by
  cases yields with
  | pass passes rest => exact ⟨_, passes, rest⟩
  | solution succeeded => exact absurd succeeded (active.ne (by simp [Status.Active]))
  | finish failed => exact absurd failed (active.ne (by simp [Status.Active]))

/-- A pass that finds a solution notes it. -/
theorem Fits.pending_of_passes (fits : moment.Fits trial context view) (runs : trial.Runs context)
    (passes : moment.Passes context later) (succeeded : later.machine.status = .succeeded) :
    ∃ solution, later.machine.pending = some solution := by
  cases passes with
  | run running fetches silent ended =>
    obtain ⟨situation, current⟩ := fits.exists_current rfl running
    obtain ⟨-, -, -, -, -, active, -⟩ | ⟨-, -, -, solution, pending, -⟩ :=
      Machine.advances_or_finds (D := Term) fits.machine runs current running fetches silent ended
    · exact absurd succeeded (active.ne (by simp [Status.Active]))
    · exact ⟨solution, pending⟩
  | call running _ ended =>
    obtain ⟨_, _, _, _, _, same⟩ := Exec.pushCall_eq_ok ended
    rw [same] at succeeded
    cases running.symm.trans succeeded
  | miss ended =>
    obtain ⟨active, -⟩ := fits.seeking _ rfl
    exact absurd ((Exec.status_tryAnswer ended).symm.trans succeeded)
      (active.ne (by simp [Status.Active]))
  | find | exhaust | stop => cases succeeded
  | back backtracking => cases backtracking.symm.trans succeeded

private theorem Fits.pending_of_reaches (fits : moment.Fits trial context view)
    (runs : trial.Runs context)
    (unfinished : moment.machine.status ≠ .succeeded) (reaches : moment.Reaches context later)
    (succeeded : later.machine.status = .succeeded) :
    ∃ solution, later.machine.pending = some solution := by
  obtain same | ⟨middle, so_far, last⟩ := reaches.cases_tail
  · exact absurd (same ▸ succeeded) unfinished
  · obtain ⟨between, middle_fits, -⟩ := fits.reaches (D := Term) runs unfinished so_far
    exact middle_fits.pending_of_passes runs last succeeded

/-- A machine that goes back after handing out a solution fits the same view. -/
theorem Fits.handOut {machine : Machine} {origins : List Machine}
    (fits : Fits trial context ⟨machine, none, origins⟩ view)
    (succeeded : machine.status = .succeeded) :
    Fits trial context ⟨{ machine with pending := none, status := .backtracking }, none,
      origins⟩ view := by
  have still : view.current = none := fits.still fun _ ↦ by simp [succeeded]
  exact ⟨fits.machine.congr still rfl rfl rfl rfl, by simp [still], nofun, fits.room, by simp,
    fits.traced⟩

end Moment

namespace Machine

open Moment

/-- An attempt that has failed has no more solutions. -/
theorem solutions_of_failed {machine : Machine} (failed : machine.status = .failed) :
    solutions context machine = .ok [] machine := by
  simp only [solutions, bind_apply, get_apply, solutionBound, solutionsWithin,
    nextSolution_of_still context (.inr failed), pure_apply, List.reverse_nil]

private theorem yields_solutionsWithin {machine last : Machine} {origins : List Machine}
    {view : View} {count : Nat}
    {before found : List Solution} (fits : Moment.Fits trial context ⟨machine, none, origins⟩ view)
    (runs : trial.Runs context) (enough : context.stepLimit - machine.steps < count)
    (ended : solutionsWithin context count before machine = .ok found last) :
    ∃ more, found = before.reverse ++ more ∧
    Yields context ⟨machine.resumed, none, origins⟩ more := by
  induction count generalizing machine origins view before with
  | zero => exact absurd enough (Nat.not_lt_zero _)
  | succ count ih =>
    obtain ⟨result, next, first, rest⟩ := bind_eq_ok.1 ended
    have run := reaches_nextSolution context machine origins
    rw [first] at run
    obtain ⟨final, left, reaches, ends⟩ := run
    obtain ⟨resumed, unfinished, -⟩ := fits.resumed
    obtain ⟨after, final_fits, -⟩ := resumed.reaches (D := Term) runs unfinished reaches
    cases ends with
    | failed failed =>
      cases rest
      refine ⟨[], by simp, .of_reaches reaches (.finish ?_)⟩
      exact failed.resolve_right final_fits.status.1
    | succeeded succeeded =>
      obtain ⟨solution, pending⟩ := resumed.pending_of_reaches runs unfinished reaches succeeded
      rw [pending] at first rest
      obtain ⟨one, few⟩ := steps_nextSolution first
      have handed : ({ final with pending := none } : Machine).resumed =
          { final with pending := none, status := .backtracking } := if_pos succeeded
      have still : after.current = none := final_fits.still fun _ ↦ by simp [succeeded]
      have between : Moment.Fits trial context ⟨{ final with pending := none }, none, left⟩ after :=
        ⟨final_fits.machine.congr still rfl rfl rfl rfl, by simp [still, succeeded], nofun,
          final_fits.room, final_fits.status, final_fits.traced⟩
      obtain ⟨more, rfl, yields⟩ := ih between (by omega) rest
      rw [handed] at yields
      exact ⟨solution :: more, by simp, .of_reaches reaches (.solution succeeded pending yields)⟩

/-- The solutions of an attempt are those of the run that searches for all of them. -/
theorem yields_solutions {machine last : Machine} {origins : List Machine} {view : View}
    {found : List Solution} (fits : Moment.Fits trial context ⟨machine, none, origins⟩ view)
    (runs : trial.Runs context) (ended : solutions context machine = .ok found last) :
    Yields context ⟨machine.resumed, none, origins⟩ found := by
  obtain ⟨more, same, yields⟩ := yields_solutionsWithin fits runs (Nat.lt_succ_self _) ended
  rwa [same, List.reverse_nil, List.nil_append]

end Machine
end HornMachine
