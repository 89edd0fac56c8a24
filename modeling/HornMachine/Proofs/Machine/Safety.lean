import HornMachine.Proofs.Machine.Faults
import HornMachine.Proofs.Machine.Restoration

/-!
# Compiled code does not fault

A session is any use of a machine for attempts at rules of a program. Main statement: in every
session an attempt at a rule of the program can be started, and the search for a solution is broken
off only by the step limit, by cancellation, or because a cyclic term was met.
-/

namespace HornMachine

/-- The errors that an attempt at a compiled rule can be broken off with. -/
inductive AttemptError.Expected : AttemptError → Prop
  | cancelled : Expected .cancelled
  | stepLimit (limit : Nat) : Expected (.stepLimit limit)
  | cyclic (rule : Option RuleId) (offset : Nat) : Expected (.fault ⟨rule, offset, .cyclicTerm⟩)

/-- The errors of an attempt whose heap may be kept `tidy`: then it meets no cyclic term. -/
def AttemptError.ExpectedIf (tidy : Prop) (error : AttemptError) : Prop :=
  error.Expected ∧ (tidy → ∀ fault, error ≠ .fault fault)

/-- A cyclic term is an expected fault wherever it is met. -/
theorem Machine.expected_faultHere (machine : Machine) {tidy : Prop} {fault : Fault}
    (cyclic : fault.Cyclic tidy) : (machine.faultHere fault).ExpectedIf tidy := by
  obtain ⟨rfl, untidy⟩ := cyclic
  exact ⟨.cyclic _ _, fun keeps ↦ absurd keeps untidy⟩

variable {tidy : Prop} {trial : Trial} {context : Context}

/-- Taking a clause meets no fault. -/
theorem Exec.failsOnly_takeClause (context : Context) (choice : Choice) (position : Nat)
    (machine : Machine) :
    FailsOnly (Fault.Cyclic tidy) (takeClause context choice position) machine := by
  simp only [takeClause]
  split
  · exact failsOnly_of_ok rfl
  · split
    · exact failsOnly_of_ok rfl
    · exact failsOnly_of_ok rfl

/-! ### Moments -/

namespace Machine

variable {machine : Machine} {view : View} {situation : Situation} {compiled : CompiledRule}

/-- A running machine has a next instruction. -/
theorem Fits.exists_fetches (fits : machine.Fits trial view) (runs : trial.Runs context)
    (current : view.current = some situation) :
    ∃ compiled instruction, machine.Fetches context compiled instruction := by
  have fetches {rule : RuleId} {compiled : CompiledRule} {instruction : Instruction} {code : Code}
      (at_rule : machine.rule = some rule) (found : trial.program.rule? rule = some compiled)
      (facing : compiled.code.toList.drop machine.counter = instruction :: code) :
      ∃ compiled instruction, machine.Fetches context compiled instruction := by
    refine ⟨compiled, instruction, ⟨rule, at_rule, runs.program ▸ found⟩, ?_⟩
    have here := congrArg List.head? facing
    rwa [List.head?_drop, Array.getElem?_toList] at here
  cases fits.current situation current with
  | @entering _ compiled _ at_rule found counter =>
    have facing := runs.lawful.opens found
    rw [← List.drop_zero (l := compiled.code.toList), ← counter] at facing
    exact fetches at_rule found facing
  | leaving at_rule found facing => exact fetches at_rule found facing
  | @inside rule compiled number frame point layers inside =>
    obtain ⟨registers, building, valid⟩ := inside.valid
    have disciplined := valid.disciplined
    cases front : point.code with
    | nil =>
      rw [front] at disciplined
      exact disciplined.elim
    | cons instruction code =>
      exact fetches inside.running inside.found (inside.facing.symm.trans front)

/-- An instruction inside a rule stays within a bank and a frame that the rule's code stays
within. -/
theorem Inside.within {frames : Array Frame} {rule : RuleId} {number : Nat} {frame : Frame}
    {point : Point} {layers : List Layer} {instruction : Instruction}
    (inside : machine.Inside trial frames rule compiled number frame point layers)
    (here : compiled.code[machine.counter]? = some instruction)
    (within : Code.Within machine.registers.size compiled.frameSize compiled.code.toList) :
    instruction.Within point.registers.size point.slots.size := by
  rw [← inside.shows.registers, inside.sized]
  rw [← Array.getElem?_toList] at here
  exact within instruction (List.mem_of_getElem? here)

variable (fits : machine.Fits trial view) (runs : trial.Runs context)
  (current : view.current = some situation)

include fits runs current

/-- An instruction other than a call of a predicate meets no fault but a cyclic term. -/
theorem Fits.failsOnly_execute (solvable : tidy → machine.memory.heap.Solvable)
    (on : tidy → context.occursCheck = .on)
    (within : ∀ {rule compiled}, trial.program.rule? rule = some compiled →
      Code.Within machine.registers.size compiled.frameSize compiled.code.toList)
    {instruction : Instruction} (fetches : machine.Fetches context compiled instruction)
    (other : ∀ goal, instruction ≠ .call (.predicate goal)) :
    FailsOnly (Fault.Cyclic tidy) (Exec.execute context compiled instruction) machine.begun := by
  cases fits.current situation current with
  | entering running_rule found counter =>
    obtain ⟨rfl, rfl⟩ := fetches.eq_of_entering runs running_rule found counter
    exact failsOnly_of_ok rfl
  | @inside _ _ _ frame point _ inside =>
    obtain ⟨rfl, here⟩ := inside.fetches runs fetches
    obtain ⟨registers, building, valid⟩ := inside.valid
    have front := inside.front here
    have disciplined := valid.disciplined_of_front front
    by_cases straight : Exec.Straight instruction
    · have bounded := inside.within here (within inside.found)
      exact Exec.failsOnly_execute straight valid inside.shows.begun front bounded solvable on
    · cases instruction with
      | deallocate =>
        have got : Exec.frame machine.begun = .ok (_, frame) machine.begun :=
          Exec.frame_eq_ok.2 ⟨inside.shows.environment, inside.shows.here, rfl⟩
        exact failsOnly_bind_of_ok got (failsOnly_of_ok rfl)
      | fail => exact failsOnly_of_ok rfl
      | call target =>
        cases target with
        | predicate goal => exact absurd rfl (other goal)
        | builtin builtin arity =>
          obtain ⟨-, formed, holds⟩ := inside.arguments here
          have orderly : machine.begun.memory.heap.Orderly tidy trial.admits := ⟨formed, solvable⟩
          exact Exec.failsOnly_builtin orderly on builtin holds
      | allocate | proceed => exact disciplined.elim
      | _ => exact absurd trivial straight
  | leaving running_rule found facing formed sized bounded full stack answer =>
    obtain ⟨rfl, rfl⟩ := fetches.eq_of_leaving runs running_rule found facing
    refine failsOnly_bind ?_ fun _ _ _ ↦ failsOnly_of_ok rfl
    refine failsOnly_bind_of_ok rfl ?_
    cases continuation : machine.continuation with
    | goTo caller offset =>
      rw [show machine.begun.continuation = _ from continuation]
      exact failsOnly_of_ok rfl
    | halt =>
      rw [show machine.begun.continuation = _ from continuation]
      have orderly : machine.begun.memory.heap.Orderly tidy trial.admits := ⟨formed, solvable⟩
      refine failsOnly_bind (Exec.failsOnly_capture orderly fits.entry fits.inside ?_) fun _ _ _ ↦
        failsOnly_of_ok rfl
      rw [show machine.begun.answer = _ from (answer continuation).1]
      exact bounded

end Machine

namespace Moment

variable {moment : Moment} {view : Machine.View} {error : AttemptError}

/-- Trying an answer meets no fault but a cyclic term, and none at all without the occurs check. -/
theorem Fits.cyclic_of_tryAnswer {machine : Machine} {origins : List Machine} {count : Nat}
    {earlier : Context} (fits : Fits trial earlier ⟨machine, some count, origins⟩ view)
    (runs : trial.Runs context) (solvable : tidy → machine.memory.heap.Solvable)
    (on : tidy → context.occursCheck = .on) :
    FailsOnly (Fault.Cyclic (tidy ∨ context.occursCheck = .off)) (Exec.tryAnswer context count)
      machine := by
  obtain ⟨-, choice, older, stack, -⟩ := fits.seeking _ rfl
  obtain ⟨pause, pauses, -, back⟩ := fits.machine.goesBack stack
  have room := fits.room choice (stack ▸ List.mem_cons_self)
  refine failsOnly_bind_of_ok (Exec.restore_of_le stack back.trail) ?_
  refine failsOnly_bind_of_ok rfl ?_
  simp only [show (machine.restored choice).choices = choice :: older from stack]
  split
  · next fact query ahead =>
    obtain ⟨asked, fewer, -, rfl, next⟩ := Context.upcoming_eq_some ahead
    obtain ⟨functor, -, stored⟩ := FactStore.mem_factsOf_of_next next
    have noted : Exec.setAlternative (.facts query) (machine.restored choice) =
        .ok ⟨⟩ (machine.noting choice older query) := by
      rw [Exec.setAlternative, modify_apply, show (machine.restored choice).choices = _ from stack]
      rfl
    have same : (machine.noting choice older query).memory = pause.memory := back.memory
    refine failsOnly_bind_of_ok noted ?_
    have orderly : (machine.noting choice older query).memory.heap.Orderly tidy trial.admits :=
      ⟨same ▸ back.marks.formed, fun keeps ↦
        Memory.solvable_truncate (Memory.solvable_unbindLast (solvable keeps) _) _⟩
    refine failsOnly_bind (Exec.cyclic_of_unifyFact orderly on
      (runs.facts functor fact stored) (same ▸ back.marks.holds_restored room)) fun unified _ _ ↦ ?_
    cases unified with
    | true => exact failsOnly_bind_of_ok (Exec.continueAfter_apply _ _) (failsOnly_of_ok rfl)
    | false => exact failsOnly_of_ok rfl
  · exact failsOnly_bind (Exec.failsOnly_takeClause _ _ _ _) fun taken _ _ ↦ by
      cases taken <;> exact failsOnly_of_ok rfl

/-- No number of passes changes the size of the bank. -/
theorem Reaches.size_registers {later : Moment} (reaches : moment.Reaches context later) :
    later.machine.registers.size = moment.machine.registers.size := by
  induction reaches with
  | refl => rfl
  | tail _ last ih => exact last.size_registers.trans ih

variable {program : Program} {allowed : Rule → Prop} (built : program.Built allowed)
  (same : context.program = program)

include built same

/-- At a moment of an attempt with a bank of the program's size, a run is broken off with an
expected error only. -/
theorem Known.expected_of_faults (known : moment.Known program)
    (bank : moment.machine.registers.size = program.registers)
    (solvable : tidy → moment.machine.memory.heap.Solvable) (on : tidy → context.occursCheck = .on)
    (faults : moment.Faults context error) : error.ExpectedIf tidy := by
  obtain ⟨none_sought, failed, -⟩ | ⟨trial, earlier, view, runs, rfl, any, fits⟩ := known
  · cases faults with
    | cancelled => exact ⟨.cancelled, nofun⟩
    | stepLimit => exact ⟨.stepLimit _, nofun⟩
    | lost running | run running | call running => cases running.symm.trans failed
    | answer => cases none_sought
  have runs : trial.Runs context := runs_of_true runs any same
  cases faults with
  | cancelled => exact ⟨.cancelled, nofun⟩
  | stepLimit => exact ⟨.stepLimit _, nofun⟩
  | lost running nowhere =>
    obtain ⟨situation, current⟩ := fits.exists_current rfl running
    obtain ⟨compiled, instruction, fetches⟩ := fits.machine.exists_fetches runs current
    exact absurd fetches (nowhere compiled instruction)
  | run running fetches other ended =>
    obtain ⟨situation, current⟩ := fits.exists_current rfl running
    refine Machine.expected_faultHere _
      (fits.machine.failsOnly_execute runs current solvable on (fun found ↦
        ?_) fetches other _ _ ended)
    rw [bank]
    exact (built.within found).2
  | @call machine _ _ _ _ _ running fetches ended =>
    obtain ⟨situation, current⟩ := fits.exists_current rfl running
    obtain ⟨rule, number, frame, inside⟩ :=
      fits.machine.exists_inside runs current fetches nofun nofun
    obtain ⟨-, formed, holds⟩ := inside.arguments fetches.code
    have orderly : machine.begun.memory.heap.Orderly tidy trial.admits := ⟨formed, solvable⟩
    have only := Exec.failsOnly_pushCall orderly inside.running holds
    exact Machine.expected_faultHere _ (only _ _ ended)
  | answer ended =>
    obtain ⟨cyclic, untidy⟩ := fits.cyclic_of_tryAnswer runs solvable on _ _ ended
    exact Machine.expected_faultHere _ ⟨cyclic, fun keeps ↦ untidy (.inl keeps)⟩

/-- So it is in a search from such a moment. -/
theorem Reached.expected_of_breaks {machine : Machine} {origins : List Machine}
    (reached : Reached program ⟨machine, none, origins⟩)
    (bank : machine.registers.size = program.registers)
    {left : Machine} (breaks : Breaks context ⟨machine.resumed, none, origins⟩ error left) :
    error.Expected := by
  obtain ⟨later, reaches, halts⟩ := breaks
  have known := (Reached.search same reached reaches).known built
  refine (known.expected_of_faults built same (reaches.size_registers.trans ?_)
    False.elim False.elim
    halts.faults).1
  rw [← bank, Machine.resumed]
  split <;> rfl

end Moment

/-! ### Starting -/

namespace Machine

/-- Terms whose structures fit can be loaded. -/
theorem exists_loadAll {terms : List Term} (fits : ∀ term ∈ terms, term.fits = true)
    (memory : Memory) (vars : Std.HashMap Var Address) :
    ∃ addresses later, loadAll memory terms vars = (.ok addresses, later) ∧
      addresses.length = terms.length := by
  induction terms generalizing memory vars with
  | nil => exact ⟨[], memory, rfl, rfl⟩
  | cons term terms ih =>
    obtain ⟨first, others⟩ := List.forall_mem_cons.1 fits
    obtain ⟨address, state, loaded⟩ := Heap.Load.exists_load first { heap := memory.heap, vars }
    obtain ⟨addresses, later, rest, length⟩ :=
      ih others { memory with heap := state.heap } state.vars
    refine ⟨address :: addresses, later, ?_, by rw [List.length_cons, length, List.length_cons]⟩
    simp only [loadAll, Heap.load, EStateM.run, loaded, rest]
    rfl

/-- Variables can be added. -/
theorem exists_pushVars (indices : List Nat) (machine : Machine) :
    ∃ addresses later, (indices.mapM fun _ ↦ Exec.pushVar) machine = .ok addresses later ∧
      addresses.length = indices.length := by
  induction indices generalizing machine with
  | nil => exact ⟨[], machine, rfl, rfl⟩
  | cons index indices ih =>
    obtain ⟨address, middle, pushed⟩ : ∃ address middle, Exec.pushVar machine =
      .ok address middle :=
      ⟨_, _, rfl⟩
    obtain ⟨addresses, later, rest, length⟩ := ih middle
    refine ⟨address :: addresses, later, ?_, by rw [List.length_cons, length, List.length_cons]⟩
    rw [List.mapM_cons, bind_apply, pushed]
    simp only [bind_apply, rest]
    rfl

private theorem exists_enterArguments {head : Functor} {goal : Option Term}
    (fits : goal.all (fitsHead head) = true) (machine : Machine) :
    ∃ addresses later, enterArguments head.arity goal machine = .ok addresses later ∧
      addresses.length = head.arity := by
  cases goal with
  | none =>
    obtain ⟨addresses, later, entered, length⟩ := exists_pushVars (List.range head.arity) machine
    exact ⟨addresses, later, entered, length.trans List.length_range⟩
  | some goal =>
    simp only [Option.all_some, fitsHead, Bool.and_eq_true, decide_eq_true_eq] at fits
    obtain ⟨⟨count, -⟩, fits⟩ := fits
    have each : ∀ term ∈ goal.args, term.fits = true := by
      cases goal with
      | struct symbol args =>
        rw [Term.fits, Term.allFit_eq_all, Bool.and_eq_true, List.all_eq_true] at fits
        exact fits.2
      | atom | var | num => simp [Term.args]
    obtain ⟨addresses, later, loaded, length⟩ := exists_loadAll each machine.memory ∅
    refine ⟨addresses, { machine with memory := later }, ?_, length.trans count⟩
    rw [enterArguments]
    exact Exec.onMemory_eq_ok.2 ⟨later, loaded, rfl⟩

private theorem exists_setArguments {index : Nat} {addresses : List Address} {machine : Machine}
    (room : index + addresses.length ≤ machine.registers.size) :
    ∃ later, setArguments index addresses machine = .ok ⟨⟩ later := by
  induction addresses generalizing index machine with
  | nil => exact ⟨machine, rfl⟩
  | cons address addresses ih =>
    rw [List.length_cons] at room
    obtain ⟨middle, first, size⟩ : ∃ middle,
        Exec.setRegister index address machine = .ok ⟨⟩ middle ∧
        middle.registers.size = machine.registers.size :=
      ⟨_, Exec.setRegister_eq_ok.2 ⟨by omega, rfl⟩, Array.size_setIfInBounds⟩
    have more : index + 1 + addresses.length ≤ middle.registers.size := by omega
    obtain ⟨later, rest⟩ := ih more
    exact ⟨later, bind_eq_ok.2 ⟨_, middle, first, rest⟩⟩

/-- An attempt at a rule can be started if the bank has room for the arguments. -/
theorem exists_start {machine : Machine} {rule : RuleId} {compiled : CompiledRule}
    (found : context.program.rule? rule = some compiled)
    (room : compiled.head.arity ≤ machine.registers.size) (goal : Option Term) :
    ∃ later, machine.start context rule goal = .ok ⟨⟩ later := by
  have bank : machine.reset.registers.size = machine.registers.size := Array.size_replicate
  simp only [start, found, enter, bind_apply, modify_apply, get_apply]
  rw [if_neg (by rw [bank]; exact Nat.not_lt.2 room)]
  split
  · next fits =>
    obtain ⟨addresses, middle, entered, length⟩ :=
      exists_enterArguments fits { machine.reset with rule := some rule }
    obtain ⟨memory, rfl⟩ := enterArguments_eq_ok entered
    have enough : 0 + addresses.length ≤ machine.reset.registers.size := by
      rw [bank, Nat.zero_add, length]
      exact room
    obtain ⟨last, set⟩ : ∃ last, setArguments 0 addresses
        { machine.reset with rule := some rule, memory } = .ok ⟨⟩ last := exists_setArguments enough
    simp only [bind_apply, Run.ofExec_eq_ok.2 entered, Run.ofExec_eq_ok.2 set]
    exact ⟨_, rfl⟩
  · exact ⟨_, rfl⟩

end Machine

/-! ### Sessions -/

namespace Machine

/-- The machines that come up when a new machine is used for attempts at rules of a program. Facts
may be asserted at any time between two turns of a search, and the policy and limits may change. -/
inductive Session (program : Program) : Machine → Prop
  | new : Session program (.new program.registers)
  | start {context : Context} {machine later : Machine} {rule : RuleId} {goal : Option Term}
    (session : Session program machine) (same : context.program = program)
    (ended : machine.start context rule goal = .ok ⟨⟩ later) : Session program later
  | refuse {context : Context} {machine later : Machine} {rule : RuleId} {goal : Option Term}
    {error : AttemptError} (session : Session program machine) (same : context.program = program)
    (ended : machine.start context rule goal = .error error later) : Session program later
  | step {context : Context} {machine later : Machine} (session : Session program machine)
    (same : context.program = program) (running : machine.status = .running)
    (ended : machine.step context = .ok ⟨⟩ later) : Session program later
  | backtrack {context : Context} {machine later : Machine} (session : Session program machine)
    (same : context.program = program) (backtracking : machine.status = .backtracking)
    (ended : machine.backtrack context = .ok ⟨⟩ later) : Session program later
  | search {context : Context} {machine later : Machine} {result : Option Solution}
    (session : Session program machine) (same : context.program = program)
    (ended : machine.nextSolution context = .ok result later) : Session program later
  | breakOff {context : Context} {machine later : Machine} {error : AttemptError}
    (session : Session program machine) (same : context.program = program)
    (ended : machine.nextSolution context = .error error later) : Session program later

variable {program : Program} {machine later : Machine}

/-- The bank of a machine keeps its size. -/
theorem Session.fixed (session : Session program machine) : machine.Fixed program.registers 0 := by
  induction session with
  | new => exact ⟨Array.size_replicate, rfl⟩
  | @start context machine later rule goal _ _ ended ih =>
    have kept := preserves_start context rule goal machine ih
    rwa [ended] at kept
  | @refuse context machine later rule goal error _ _ ended ih =>
    have kept := preserves_start context rule goal machine ih
    rwa [ended] at kept
  | @step context machine later _ _ _ ended ih =>
    have kept := preserves_step context machine ih
    rwa [ended] at kept
  | @backtrack context machine later _ _ _ ended ih =>
    have kept :=
      preserves_fixed (fun _ _ _ _ ↦ preserves_backtrackOver context machine.choices) machine ih
    rwa [show backtrackOver context machine.choices machine = _ from ended] at kept
  | @search context machine later result _ _ ended ih =>
    have kept := preserves_nextSolution context machine ih
    rwa [ended] at kept
  | @breakOff context machine later error _ _ ended ih =>
    have kept := preserves_nextSolution context machine ih
    rwa [ended] at kept

/-- How a machine of a session stands: at a moment of an attempt, new, or as a search was broken
off. -/
inductive Standing (program : Program) : Machine → Prop
  | reached {machine : Machine} {origins : List Machine}
    (reached : Moment.Reached program ⟨machine, none, origins⟩) : Standing program machine
  | new : Standing program (.new program.registers)
  | left {context : Context} {machine later : Machine} {origins : List Machine}
    {error : AttemptError}
    (same : context.program = program) (bank : machine.registers.size = program.registers)
    (reached : Moment.Reached program ⟨machine, none, origins⟩)
    (breaks : Moment.Breaks context ⟨machine.resumed, none, origins⟩ error later)
    (failed : later.status = .failed) : Standing program later

private theorem Standing.reached_or_still (standing : Standing program machine) :
    (∃ origins, Moment.Reached program ⟨machine, none, origins⟩) ∨
      machine.status = .idle ∨ machine.status = .failed := by
  cases standing with
  | reached reached => exact .inl ⟨_, reached⟩
  | new => exact .inr (.inl rfl)
  | left _ _ _ _ failed => exact .inr (.inr failed)

variable {allowed : Rule → Prop} (built : program.Built allowed)

include built

theorem Session.standing (session : Session program machine) : Standing program machine := by
  induction session with
  | new => exact .new
  | start _ same ended => exact .reached (.start same ended)
  | @refuse context machine later rule goal error session same ended ih =>
    subst same
    cases found : context.program.rule? rule with
    | none =>
      rw [Machine.start, found] at ended
      cases ended
      exact ih
    | some compiled =>
      obtain ⟨started, entered⟩ := exists_start found
        (session.fixed.1 ▸ (built.within found).1) goal
      cases entered.symm.trans ended
  | @step context machine later _ same running ended ih =>
    obtain ⟨origins, reached⟩ | idle | failed := ih.reached_or_still
    · have turn := reaches_step context running origins
      rw [ended] at turn
      obtain ⟨left, reaches⟩ := turn
      rw [← resumed_of_ne (by simp [running] : machine.status ≠ .succeeded)] at reaches
      exact .reached (.search same reached reaches)
    · cases running.symm.trans idle
    · cases running.symm.trans failed
  | @backtrack context machine later _ same backtracking ended ih =>
    obtain ⟨origins, reached⟩ | idle | failed := ih.reached_or_still
    · have turn := reaches_backtrackOver context backtracking rfl origins
      rw [show backtrackOver context machine.choices machine = _ from ended] at turn
      obtain ⟨left, reaches⟩ := turn
      rw [← resumed_of_ne (by simp [backtracking] : machine.status ≠ .succeeded)] at reaches
      exact .reached (.search same reached reaches)
    · cases backtracking.symm.trans idle
    · cases backtracking.symm.trans failed
  | @search context machine later result _ same ended ih =>
    obtain ⟨origins, reached⟩ | still := ih.reached_or_still
    · obtain ⟨left, reached⟩ := reached.nextSolution same ended
      exact .reached reached
    · rw [nextSolution_of_still context still] at ended
      cases ended
      exact ih
  | @breakOff context machine later error session same ended ih =>
    obtain ⟨origins, reached⟩ | still := ih.reached_or_still
    · have run := reaches_nextSolution context machine origins
      rw [ended] at run
      have failed : later.status = .failed := by
        rw [nextSolution] at ended
        split at ended
        · cases ended
        · cases ended
          rfl
      exact .left same session.fixed.1 reached run failed
    · rw [nextSolution_of_still context still] at ended
      cases ended

/-- A machine of a session is at a moment of an attempt, or it has none to go on with. -/
theorem Session.reached_or_still (session : Session program machine) :
    (∃ origins, Moment.Reached program ⟨machine, none, origins⟩) ∨
      machine.status = .idle ∨ machine.status = .failed :=
  (session.standing built).reached_or_still

/-- In every session an attempt at a rule of the program can be started, and a search for a solution
is broken off only by cancellation, by the step limit or by a cyclic term. So is each single turn of
a search, with any facts that the store has then. -/
theorem Session.faults_only_cyclic (session : Session program machine) {context : Context}
    (same : context.program = program) :
    (∀ rule compiled goal, program.rule? rule = some compiled →
      ∃ later, machine.start context rule goal = .ok ⟨⟩ later) ∧
    (∀ error later, machine.nextSolution context = .error error later → error.Expected) ∧
    (∀ error later, machine.status = .running → machine.step context = .error error later →
      error.Expected) ∧
    ∀ error later, machine.status = .backtracking → machine.backtrack context = .error error later →
      error.Expected := by
  have bank := session.fixed.1
  refine ⟨fun rule compiled goal found ↦ ?_, fun error later ended ↦ ?_,
    fun error later running ended ↦ ?_, fun error later backtracking ended ↦ ?_⟩
  · exact exists_start (same ▸ found) (bank ▸ (built.within found).1) goal
  · obtain ⟨origins, reached⟩ | still := session.reached_or_still built
    · have run := reaches_nextSolution context machine origins
      rw [ended] at run
      exact reached.expected_of_breaks built same bank run
    · rw [nextSolution_of_still context still] at ended
      cases ended
  · obtain ⟨origins, reached⟩ | idle | failed := session.reached_or_still built
    · have turn := reaches_step context running origins
      rw [ended, ← resumed_of_ne (by simp [running] : machine.status ≠ .succeeded)] at turn
      exact reached.expected_of_breaks built same bank turn
    · cases running.symm.trans idle
    · cases running.symm.trans failed
  · obtain ⟨origins, reached⟩ | idle | failed := session.reached_or_still built
    · have turn := reaches_backtrackOver context backtracking rfl origins
      rw [show backtrackOver context machine.choices machine = _ from ended,
        ← resumed_of_ne (by simp [backtracking] : machine.status ≠ .succeeded)] at turn
      exact reached.expected_of_breaks built same bank turn
    · cases backtracking.symm.trans idle
    · cases backtracking.symm.trans failed

end Machine

/-- The program without facts, and at most four instructions. -/
def Context.limited : Context := { Context.selecting [] with stepLimit := 4 }

/-- Whether a solution is found with the facts and the search for another one, without them, is
broken off by the step limit. -/
def Machine.breaksOff (machine : Machine) : Bool :=
  match machine.nextSolution (.selecting Fact.candidates) with
  | .ok (some _) found =>
    match found.nextSolution .limited with
    | .error (.stepLimit 4) _ => decide (found.status = .succeeded)
    | _ => false
  | _ => false

open Machine (Session) in
/-- After a solution the facts are taken away and the search is broken off. Then it is started
again. -/
theorem Machine.faults_only_cyclic_selecting : ∃ machine later,
    Session .selecting machine ∧ machine.status = .succeeded ∧
    machine.nextSolution .limited = .error (.stepLimit 4) later ∧
    AttemptError.Expected (.stepLimit 4) ∧ Session .selecting later ∧
    ∃ again, later.start (.selecting Fact.candidates) ⟨2⟩ none = .ok ⟨⟩ again := by
  have made : ((Context.selecting Fact.candidates).attempt ⟨2⟩ 2 0).any breaksOff = true := by
    decide +kernel
  obtain ⟨machine, attempted, breaks⟩ := (Option.any_eq_true _ _).1 made
  have started : Machine.start (.selecting Fact.candidates) ⟨2⟩ none (.new 2) =
      .ok ⟨⟩ machine := by
    unfold Context.attempt at attempted
    split at attempted
    · next started =>
      cases attempted
      exact started
    · cases attempted
  have session : Session .selecting machine := .start .new rfl started
  unfold breaksOff at breaks
  split at breaks
  · next searched =>
    split at breaks
    · next later ended =>
      have after := session.search rfl searched
      have limited : Context.limited.program = .selecting := rfl
      have fed : (Context.selecting Fact.candidates).program = .selecting := rfl
      obtain ⟨-, expected, -⟩ := after.faults_only_cyclic Program.built_selecting limited
      have broken := after.breakOff limited ended
      obtain ⟨starts, -⟩ := broken.faults_only_cyclic Program.built_selecting fed
      exact ⟨_, later, after, of_decide_eq_true breaks, ended, expected _ _ ended, broken,
        starts ⟨2⟩ _ none rfl⟩
    · cases breaks
  · cases breaks

end HornMachine
