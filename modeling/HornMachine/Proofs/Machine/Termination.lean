import HornMachine.Proofs.Heap.Termination
import HornMachine.Proofs.Machine.Safety

/-!
# Searches end

The number of turns of a search, of answers tried and of cells followed is bounded in the
definitions, so that they are functions. Here it is shown that no bound is ever reached. A search is
described turn by turn, with no bound on the turns, and every search comes to something: a step
takes one of the instructions left, and going back drops a choice point or leads to a step. What a
turn does within itself ends because the heap is well formed and because a query moves past the
facts of one functor only. Main statements: `comesTo_nextSolution` and `Moment.Reached.settles`.
-/

namespace HornMachine

variable {context : Context}

namespace Machine

variable {machine next : Machine}

/-! ### Turns -/

/-- What a search comes to, turn by turn and for as long as there is a turn to take. -/
inductive ComesTo (context : Context) :
    Machine → EStateM.Result AttemptError Machine (Option Solution) → Prop
  | step {machine next : Machine} {result : EStateM.Result AttemptError Machine (Option Solution)}
    (running : machine.status = .running) (ended : step context machine = .ok ⟨⟩ next)
    (rest : ComesTo context next result) : ComesTo context machine result
  | breakOff {machine next : Machine} {error : AttemptError} (running : machine.status = .running)
    (ended : step context machine = .error error next) :
    ComesTo context machine (.error error { next with status := .failed })
  | resume {machine next : Machine} {choice : Choice} {older : List Choice}
    {result : EStateM.Result AttemptError Machine (Option Solution)}
    (backtracking : machine.status = .backtracking) (stack : machine.choices = choice :: older)
    (ended : Exec.resume context machine.returning = .ok true next)
    (rest : ComesTo context { next with status := .running } result) :
    ComesTo context machine result
  | drop {machine next : Machine} {choice : Choice} {older : List Choice}
    {result : EStateM.Result AttemptError Machine (Option Solution)}
    (backtracking : machine.status = .backtracking) (stack : machine.choices = choice :: older)
    (ended : Exec.resume context machine.returning = .ok false next)
    (rest : ComesTo context next result) : ComesTo context machine result
  | fault {machine next : Machine} {choice : Choice} {older : List Choice} {fault : Fault}
    (backtracking : machine.status = .backtracking) (stack : machine.choices = choice :: older)
    (ended : Exec.resume context machine.returning = .error fault next) :
    ComesTo context machine (.error (next.faultHere fault) { next with status := .failed })
  | exhaust {machine : Machine} (backtracking : machine.status = .backtracking)
    (stack : machine.choices = []) :
    ComesTo context machine (.ok none { machine with status := .failed })
  | solution {machine : Machine} (succeeded : machine.status = .succeeded) :
    ComesTo context machine (.ok machine.pending { machine with pending := none })
  | still {machine : Machine} (still : machine.status = .failed ∨ machine.status = .idle) :
    ComesTo context machine (.ok none machine)

/-- A search that is broken off leaves a machine that has failed. -/
def concluded : EStateM.Result AttemptError Machine (Option Solution) →
    EStateM.Result AttemptError Machine (Option Solution)
  | .ok found machine => .ok found machine
  | .error error machine => .error error { machine with status := .failed }

/-- A machine that has failed comes to no solution. -/
theorem ComesTo.eq_of_failed {result : EStateM.Result AttemptError Machine (Option Solution)}
    (comes : ComesTo context machine result) (failed : machine.status = .failed) :
    result = .ok none machine := by
  cases comes with
  | still => rfl
  | step other | breakOff other | resume other | drop other | fault other | exhaust other
  | solution other => cases failed.symm.trans other

/-- A choice point without an answer left is dropped. -/
theorem dropped_of_resume {choice : Choice} {older : List Choice}
    (stack : machine.choices = choice :: older)
    (ended : Exec.resume context machine = .ok false next) :
    next.status = machine.status ∧ next.choices = older := by
  have sought := reaches_seek context (context.store.factsOf choice.goal).size machine []
  rw [← Exec.resume_eq_seek stack, ended] at sought
  obtain ⟨status, choices, -⟩ := sought
  exact ⟨status, choices.trans (congrArg List.tail stack)⟩

/-- Going back is a number of turns, one for each choice point. -/
theorem comesTo_backtrackOver (context : Context) (backtracking : machine.status = .backtracking)
    {choices : List Choice} (stack : machine.choices = choices) :
    (∀ later result, backtrackOver context choices machine = .ok ⟨⟩ later →
      ComesTo context later result → ComesTo context machine result) ∧
    ∀ error later, backtrackOver context choices machine = .error error later →
      ComesTo context machine (.error error { later with status := .failed }) := by
  induction choices generalizing machine with
  | nil =>
    have failed : backtrackOver context [] machine = .ok ⟨⟩ { machine with status := .failed } :=
      rfl
    rw [failed]
    refine ⟨fun later result ended rest ↦ ?_, fun error later broken ↦ by cases broken⟩
    cases ended
    rw [rest.eq_of_failed rfl]
    exact .exhaust backtracking stack
  | cons choice older ih =>
    rw [backtrackOver_cons]
    cases ended : Exec.resume context machine.returning with
    | error fault next =>
      refine ⟨fun later result done ↦ ?_, fun error later failed ↦ ?_⟩
      · cases done
      · cases failed
        exact .fault backtracking stack ended
    | ok success next =>
      cases success with
      | true =>
        refine ⟨fun later result done rest ↦ ?_, fun error later broken ↦ by cases broken⟩
        cases done
        exact .resume backtracking stack ended rest
      | false =>
        obtain ⟨status, choices⟩ :=
          dropped_of_resume (show machine.returning.choices = _ from stack) ended
        obtain ⟨goes, breaks⟩ := ih (status.trans backtracking) choices
        exact ⟨fun later result done rest ↦ .drop backtracking stack ended
          (goes later result done rest),
          fun error later failed ↦ .drop backtracking stack ended (breaks error later failed)⟩

/-- A number of turns that is enough: a step takes one of the instructions left, and after going
back there is a step or nothing. -/
def turnsLeft (context : Context) (machine : Machine) : Nat :=
  match machine.status with
  | .running => 2 * (context.stepLimit - machine.steps) + 1
  | .backtracking => 2 * (context.stepLimit - machine.steps) + 2
  | .succeeded | .failed | .idle => 1

private theorem turnsLeft_le (context : Context) (machine : Machine) :
    turnsLeft context machine ≤ 2 * (context.stepLimit - machine.steps) + 2 := by
  unfold turnsLeft
  split <;> omega

/-- A run does all the turns of a search. -/
theorem comesTo_runWithin {turns : Nat} (enough : turnsLeft context machine ≤ turns) :
    ComesTo context machine (concluded (runWithin context turns machine)) := by
  induction turns generalizing machine with
  | zero =>
    unfold turnsLeft at enough
    split at enough <;> omega
  | succ turns ih =>
    rw [runWithin, bind_apply, get_apply]
    unfold turnsLeft at enough
    cases status : machine.status with
    | failed =>
      simp only [status]
      exact .still (.inl status)
    | idle =>
      simp only [status]
      exact .still (.inr status)
    | succeeded =>
      simp only [status]
      exact .solution status
    | running =>
      simp only [status] at enough ⊢
      rw [bind_apply]
      cases ended : step context machine with
      | error error next => exact .breakOff status ended
      | ok done next =>
        obtain ⟨one, few⟩ := steps_step ended
        have left := turnsLeft_le context next
        exact .step status ended (ih (by omega))
    | backtracking =>
      simp only [status] at enough ⊢
      rw [bind_apply]
      obtain ⟨goes, breaks⟩ := comesTo_backtrackOver context status rfl
      cases ended : backtrack context machine with
      | error error next => exact breaks error next ended
      | ok done next =>
        obtain ⟨same, turned⟩ := steps_backtrackOver ended
        refine goes next _ ended (ih ?_)
        unfold turnsLeft
        rcases turned with going | failed
        · rw [going]
          simp only
          omega
        · rw [failed]
          simp only
          omega

/-- Every search for a solution comes to what it is said to give. -/
theorem comesTo_nextSolution (context : Context) (machine : Machine) :
    ComesTo context machine.resumed (nextSolution context machine) := by
  have unfolded : nextSolution context machine =
      concluded (runWithin context (machine.resumed.turnBound context) machine.resumed) := rfl
  rw [unfolded]
  refine comesTo_runWithin (Nat.le_trans (turnsLeft_le context _) ?_)
  rw [turnBound]
  omega

end Machine

/-! ### Within a turn -/

/-- Whatever is done at a moment of a run ends for a reason of its own. -/
structure Moment.Settles (context : Context) (moment : Moment) : Prop where
  /-- Where terms are read from the memory, the loops over its cells end. -/
  reads : ∀ {compiled : CompiledRule} {instruction : Instruction}, moment.seeking = none →
    moment.machine.status = .running → moment.machine.Fetches context compiled instruction →
    (instruction = .proceed ∨ ∃ target, instruction = .call target) → moment.machine.memory.Settles
  /-- Other instructions come to an answer, so references end for all that they look at. -/
  runs : ∀ {compiled : CompiledRule} {instruction : Instruction}, moment.seeking = none →
    moment.machine.status = .running → moment.machine.Fetches context compiled instruction →
    instruction ≠ .proceed → (∀ target, instruction ≠ .call target) →
    ∃ success later, Exec.execute context compiled instruction moment.machine.begun =
      .ok success later
  answers : ∀ count, moment.seeking = some count →
    ∃ finding later, Exec.tryAnswer context count moment.machine = .ok finding later
  /-- No more facts than are bargained for can be tried for the newest call. -/
  facts : ∀ choice older, moment.machine.choices = choice :: older → ∀ query,
    choice.alternative = .facts query →
    (context.store.remaining query).length ≤ (context.store.factsOf choice.goal).size

namespace Machine

variable {trial : Trial} {machine : Machine} {view : View} {situation : Situation}
  {compiled : CompiledRule} {instruction : Instruction}

/-- Where a rule is left or something is called, no structure is half built. -/
theorem Fits.formed_of_reads (fits : machine.Fits trial view) (runs : trial.Runs context)
    (current : view.current = some situation)
    (fetches : machine.Fetches context compiled instruction)
    (reads : instruction = .proceed ∨ ∃ target, instruction = .call target) :
    machine.memory.heap.Formed trial.admits 0 := by
  cases fits.current situation current with
  | entering _ _ _ formed => exact formed
  | leaving _ _ _ formed => exact formed
  | inside inside =>
    obtain ⟨rfl, -⟩ := inside.fetches runs fetches
    rcases reads with rfl | ⟨target, rfl⟩
    · obtain ⟨registers, building, valid⟩ := inside.valid
      have disciplined := valid.disciplined_of_front (inside.front fetches.code)
      exact disciplined.elim
    · exact (inside.arguments fetches.code).2.1

/-- Without the occurs check an instruction that neither leaves a rule nor calls anything comes to
an answer. -/
theorem Fits.exists_execute (fits : machine.Fits trial view) (runs : trial.Runs context)
    (current : view.current = some situation) (off : context.occursCheck = .off)
    (within : ∀ {rule compiled}, trial.program.rule? rule = some compiled →
      Code.Within machine.registers.size compiled.frameSize compiled.code.toList)
    (fetches : machine.Fetches context compiled instruction) (stays : instruction ≠ .proceed)
    (silent : ∀ target, instruction ≠ .call target) :
    ∃ success later, Exec.execute context compiled instruction machine.begun =
      .ok success later := by
  cases fits.current situation current with
  | entering running_rule found counter =>
    obtain ⟨rfl, rfl⟩ := fetches.eq_of_entering runs running_rule found counter
    exact ⟨true, _, rfl⟩
  | leaving running_rule found facing =>
    exact absurd (fetches.eq_of_leaving runs running_rule found facing).2 stays
  | @inside _ _ _ frame _ _ inside =>
    obtain ⟨rfl, here⟩ := inside.fetches runs fetches
    obtain ⟨registers, building, valid⟩ := inside.valid
    have front := inside.front here
    have disciplined := valid.disciplined_of_front front
    by_cases straight : Exec.Straight instruction
    · have bounded := inside.within here (within inside.found)
      exact Exec.exists_execute straight valid inside.shows.begun front bounded off
    · cases instruction with
      | deallocate =>
        have got : Exec.frame machine.begun = .ok (_, frame) machine.begun :=
          Exec.frame_eq_ok.2 ⟨inside.shows.environment, inside.shows.here, rfl⟩
        exact ⟨true, _, bind_eq_ok.2 ⟨_, _, got, rfl⟩⟩
      | fail => exact ⟨false, _, rfl⟩
      | call target => exact absurd rfl (silent target)
      | allocate | proceed => exact disciplined.elim
      | _ => exact absurd trivial straight

end Machine

/-- At every moment of an attempt without the occurs check, whatever is done ends. -/
theorem Moment.Reached.settles {allowed : Rule → Prop} {program : Program}
    (built : program.Built allowed) {moment : Moment} (reached : moment.Reached program)
    (bank : moment.machine.registers.size = program.registers) (same : context.program = program)
    (off : context.occursCheck = .off) (consistent : context.store.Consistent) :
    moment.Settles context := by
  obtain ⟨none_sought, failed, no_choices⟩ | ⟨trial, earlier, view, runs, rfl, any, fits⟩ :=
    reached.known built
  · have idle {goal : Prop} (running : moment.machine.status = .running) : goal := by
      cases running.symm.trans failed
    exact ⟨fun _ running ↦ idle running, fun _ running ↦ idle running,
      fun _ seeking ↦ absurd (none_sought.symm.trans seeking) nofun,
      fun _ _ stack ↦ absurd (no_choices.symm.trans stack) nofun⟩
  have runs : trial.Runs context := runs_of_true runs any same
  refine ⟨fun none_sought running fetches reads ↦ ?_,
    fun none_sought running fetches stays silent ↦ ?_,
    fun count seeking ↦ ?_, fun choice older stack ↦ fits.machine.enough stack consistent⟩
  · obtain ⟨situation, current⟩ := fits.exists_current none_sought running
    exact (fits.machine.formed_of_reads runs current fetches reads).settles
  · obtain ⟨situation, current⟩ := fits.exists_current none_sought running
    refine fits.machine.exists_execute runs current off (fun found ↦ ?_) fetches stays silent
    rw [bank]
    exact (built.within found).2
  · obtain ⟨machine, _, origins⟩ := moment
    cases seeking
    have fails : FailsOnly (Fault.Cyclic (False ∨ context.occursCheck = .off))
        (Exec.tryAnswer context count) machine :=
          fits.cyclic_of_tryAnswer runs False.elim False.elim
    cases ended : Exec.tryAnswer context count machine with
    | ok finding later => exact ⟨finding, later, rfl⟩
    | error fault later => exact absurd (.inr off) (fails fault later ended).2

end HornMachine
