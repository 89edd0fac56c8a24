import HornMachine.Proofs.Machine.Starting

/-!
# Going back to a choice point

Whatever a run has done since a choice point was pushed, going back to it gives the state of the
call: heap and trail, the argument registers, the frames and, in the rules that wait, every slot
that the code before their call fills. Slots that were filled since may hold anything; no code that
is run reads them before it fills them. Main statement: this is so at every moment of every run, for
every choice point.
-/

namespace HornMachine

variable {context : Context}

namespace Program

theorem Built.mono {allowed more : Rule → Prop} {program : Program} (built : program.Built allowed)
    (weaker : ∀ rule, allowed rule → more rule) : program.Built more := by
  induction built with
  | new registers => exact .new registers
  | declare _ functor ih => exact ih.declare functor
  | addRule _ kind added ih => exact ih.addRule (weaker _ kind) added

/-- The code of any rules is lawful if their functors are not asked about. -/
theorem Built.lawful_true {allowed : Rule → Prop} {program : Program}
    (built : program.Built allowed) :
    program.Lawful fun _ ↦ True :=
  (built.mono fun _ _ ↦ ⟨Term.allFunctors_true _, fun goal _ ↦ goal.allFunctors_true⟩).lawful

end Program

/-! ### Moments -/

/-- The machine after a number of turns, if it is running before each of them. -/
def Machine.afterTurns (context : Context) : Nat → Machine → Option Machine
  | 0, machine => some machine
  | turns + 1, machine =>
    if machine.status = .running then
      match step context machine with
      | .ok _ next => afterTurns context turns next
      | .error _ _ => none
    else none

/-- A new machine that was started on a rule without a goal, after a number of turns. -/
def Context.attempt (context : Context) (rule : RuleId) (registers turns : Nat) : Option Machine :=
  match Machine.start context rule none (.new registers) with
  | .ok _ first => first.afterTurns context turns
  | .error _ _ => none

theorem Machine.reaches_afterTurns {turns : Nat} {machine later : Machine}
    (ended : machine.afterTurns context turns = some later) (origins : List Machine) :
    ∃ left, Moment.Reaches context ⟨machine, none, origins⟩ ⟨later, none, left⟩ := by
  induction turns generalizing machine origins with
  | zero =>
    cases ended
    exact ⟨origins, .refl⟩
  | succ turns ih =>
    rw [afterTurns] at ended
    split at ended
    · next running =>
      split at ended
      · next next stepped =>
        have run := reaches_step context running origins
        rw [stepped] at run
        obtain ⟨left, first⟩ := run
        obtain ⟨last, others⟩ := ih ended left
        exact ⟨last, first.trans others⟩
      · cases ended
    · cases ended

namespace Moment

/-- The moments of attempts at rules of a program. A search goes on until a solution is handed out
or there is none; the facts may change between searches. -/
inductive Reached (program : Program) : Moment → Prop
  | start {context : Context} {rule : RuleId} {goal : Option Term} {machine later : Machine}
    (same : context.program = program) (ended : machine.start context rule goal = .ok ⟨⟩ later) :
    Reached program ⟨later, none, []⟩
  | search {context : Context} {machine : Machine} {origins : List Machine} {moment : Moment}
    (same : context.program = program) (reached : Reached program ⟨machine, none, origins⟩)
    (reaches : Reaches context ⟨machine.resumed, none, origins⟩ moment) : Reached program moment
  | handOut {machine : Machine} {origins : List Machine}
    (reached : Reached program ⟨machine, none, origins⟩) (succeeded : machine.status = .succeeded) :
    Reached program ⟨{ machine with pending := none }, none, origins⟩

variable {program : Program} {moment : Moment}

/-- Searching for solutions stays among these moments. -/
theorem Reached.nextSolution {machine later : Machine} {origins : List Machine}
    {result : Option Solution} (reached : Reached program ⟨machine, none, origins⟩)
    (same : context.program = program)
    (ended : machine.nextSolution context = .ok result later) :
    ∃ left, Reached program ⟨later, none, left⟩ := by
  have run := Machine.reaches_nextSolution context machine origins
  rw [ended] at run
  obtain ⟨last, left, reaches, ends⟩ := run
  have last_reached := reached.search same reaches
  cases ends with
  | failed => exact ⟨left, last_reached⟩
  | succeeded succeeded => exact ⟨left, last_reached.handOut succeeded⟩

theorem reached_attempt {rule : RuleId} {registers turns : Nat} {later : Machine}
    (ended : context.attempt rule registers turns = some later) :
    ∃ origins, Reached context.program ⟨later, none, origins⟩ := by
  rw [Context.attempt] at ended
  split at ended
  · next first started =>
    obtain ⟨left, reaches⟩ := Machine.reaches_afterTurns ended []
    rw [← Machine.resumed_of_ne (Machine.unsolved_start started)] at reaches
    exact ⟨left, (Reached.start rfl started).search rfl reaches⟩
  · cases ended

/-- A moment of an attempt that fits some view, or of one that could not begin. -/
def Known (program : Program) (moment : Moment) : Prop :=
  (moment.seeking = none ∧ moment.machine.status = .failed ∧ moment.machine.choices = []) ∨
    ∃ trial context view, trial.Runs context ∧ trial.program = program ∧
      trial.admits = (fun _ ↦ True) ∧ moment.Fits trial context view

/-- An attempt runs in any context with its program, if functors are not asked about. -/
theorem runs_of_true {trial : Trial} {other : Context} (runs : trial.Runs context)
    (any : trial.admits = fun _ ↦ True) (same : other.program = trial.program) : trial.Runs other :=
  ⟨same, runs.lawful, runs.found, fun _ fact _ ↦ any ▸ fact.term.allFunctors_true⟩

/-- Nothing is done once the attempt has failed. -/
theorem not_passes_of_failed {machine : Machine} {origins : List Machine} {later : Moment}
    (failed : machine.status = .failed) : ¬Passes context ⟨machine, none, origins⟩ later := by
  intro passes
  cases passes with
  | run running | call running => cases failed.symm.trans running
  | back backtracking | stop backtracking => cases failed.symm.trans backtracking

theorem Reached.known {allowed : Rule → Prop} (built : program.Built allowed)
    (reached : moment.Reached program) : moment.Known program := by
  induction reached with
  | @start context rule goal machine later same ended =>
    obtain ⟨compiled, found⟩ := Machine.exists_rule_of_start ended
    obtain ⟨-, rfl⟩ | ⟨fits, -⟩ := Machine.start_eq_ok found ended
    · exact .inl ⟨rfl, rfl, rfl⟩
    · have lawful : context.program.Lawful fun _ ↦ True := same ▸ built.lawful_true
      obtain ⟨arguments, view, later_fits, -⟩ := Machine.fits_start lawful found
        (fun term _ ↦ term.allFunctors_true) ended fits
      exact .inr ⟨_, context, view, ⟨rfl, lawful, found, fun _ fact _ ↦ fact.term.allFunctors_true⟩,
        same, rfl, later_fits⟩
  | @search context machine origins moment same _ reaches ih =>
    obtain ⟨-, failed, none_left⟩ | ⟨trial, earlier, view, runs, program_eq, any, fits⟩ := ih
    · -- a machine that has failed does nothing
      have finished : machine.status = .failed := failed
      rw [Machine.resumed, if_neg (by simp [finished])] at reaches
      obtain rfl | ⟨next, passes, -⟩ := reaches.cases_head
      · exact .inl ⟨rfl, failed, none_left⟩
      · exact absurd passes (not_passes_of_failed failed)
    · obtain ⟨resumed, unfinished, -⟩ := (fits.inContext context rfl).resumed
      have runs := runs_of_true runs any (same.trans program_eq.symm)
      obtain ⟨after, later_fits, -⟩ := resumed.reaches (D := Term) runs unfinished reaches
      exact .inr ⟨trial, context, after, runs, program_eq, any, later_fits⟩
  | @handOut machine origins _ succeeded ih =>
    obtain ⟨-, failed, none_left⟩ | ⟨trial, context, view, runs, same, any, fits⟩ := ih
    · cases failed.symm.trans succeeded
    · have still : view.current = none := fits.still fun _ ↦ by simp [succeeded]
      exact .inr ⟨trial, context, view, runs, same, any, ⟨fits.machine.congr still rfl rfl rfl rfl,
        by simp [still, succeeded], by simp, fits.room, fits.status, fits.traced⟩⟩

end Moment

/-! ### Exactness -/

/-- The rules that wait for a call, the newest first: the frame of each and where it goes on. -/
inductive Frame.Awaits (frames : Array Frame) :
    Continuation → Option Nat → RuleId → Nat → Nat → Prop
  | caller {rule : RuleId} {offset number : Nat} :
    Awaits frames (.goTo rule offset) (some number) rule offset number
  | above {rule waiting : RuleId} {offset number resumed outer : Nat} {frame : Frame}
    (here : frames[number]? = some frame)
    (awaits : Awaits frames frame.continuation frame.previous waiting resumed outer) :
    Awaits frames (.goTo rule offset) (some number) waiting resumed outer

/-- A machine is in the state in which a machine made a call. -/
structure Machine.BackAt (program : Program) (origin : Machine) (choice : Choice)
    (machine : Machine) :
    Prop where
  memory : machine.memory = origin.memory
  arguments : ∀ index < choice.goal.arity, machine.registers[index]? = origin.registers[index]?
  environment : machine.environment = origin.environment
  continuation : ∃ rule compiled, origin.rule = some rule ∧ program.rule? rule = some compiled ∧
    compiled.code[origin.offset]? = some (.call (.predicate choice.goal)) ∧
    machine.continuation = .goTo rule (origin.offset + 1)
  size : machine.frames.size = origin.frames.size
  frames : ∀ (number : Nat) (frame : Frame), origin.frames[number]? = some frame →
    ∃ slots, slots.size = frame.slots.size ∧ machine.frames[number]? = some { frame with slots }
  /-- In a rule that waits, a slot that is filled before the call holds what it held. -/
  slots : ∀ {rule : RuleId} {offset number : Nat} {compiled : CompiledRule},
    Frame.Awaits origin.frames machine.continuation machine.environment rule offset number →
    program.rule? rule = some compiled →
    ∀ index < offset, ∀ instruction ∈ compiled.code[index]?, ∀ slot ∈ instruction.slot?,
      ∃ address before now, origin.frames[number]? = some before ∧
        machine.frames[number]? = some now ∧
        before.slots[slot]? = some (some address) ∧ now.slots[slot]? = some (some address)

/-- Slots that count are the same in frames that hold at least as much. -/
theorem Trial.Stack.exists_slot {trial : Trial} {frames origin : Array Frame} {size bound : Nat}
    {rule : RuleId} {continuation : Continuation} {environment : Option Nat} {layers : List Layer}
    (stack : trial.Stack frames size bound rule continuation environment layers)
    (grown : Frame.Grown origin frames) {waiting : RuleId} {offset number : Nat}
    (awaits : Frame.Awaits origin continuation environment waiting offset number)
    {compiled : CompiledRule} (found : trial.program.rule? waiting = some compiled) :
    ∃ frame, frames[number]? = some frame ∧ compiled.Passed offset frame.slots := by
  induction stack with
  | halt => cases awaits
  | @goTo bound at_number at_offset called caller at_compiled frame layers lower at_rule here sized
      disciplined resumes passed bounded below ih =>
    cases awaits with
    | caller =>
      cases at_rule.symm.trans found
      exact ⟨frame, here, passed⟩
    | above there awaits =>
      obtain ⟨slots, -, same⟩ := grown.kept at_number frame here
      cases same.symm.trans there
      exact ih awaits

/-- A machine that goes back to a choice point from which it came is in the state of the call. -/
theorem Machine.GoesBack.backAt {trial : Trial} {machine origin : Machine} {choice : Choice}
    {older : List Choice} {pause : Pause} {pauses : List Pause}
    (back : machine.GoesBack trial choice older pause pauses)
    (room : choice.arguments.size ≤ machine.registers.size)
    (source : choice.From trial.program origin pause) :
    Machine.BackAt trial.program origin choice (machine.restored choice) where
  memory := back.memory.trans source.memory
  arguments index lower := by
    have inside : index < choice.arguments.size := back.marks.arity ▸ lower
    rw [Machine.registers_restored room inside, source.arguments]
    rw [source.arguments, Array.size_extract] at inside
    rw [Array.getElem?_extract, if_pos inside, Nat.zero_add]
  environment := source.environment
  continuation := source.continuation
  size := back.sizes.trans source.sizes.symm
  frames number frame here := by
    have inside : number < pause.frames.size :=
      source.sizes ▸ (Array.getElem?_eq_some_iff.1 here).1
    obtain ⟨slots, wider, there⟩ := source.frames.kept number pause.frames[number]
      (Array.getElem?_eq_getElem inside)
    cases there.symm.trans here
    obtain ⟨now, now_wider, held⟩ := back.grown.kept number pause.frames[number]
      (Array.getElem?_eq_getElem inside)
    exact ⟨now, now_wider.size.trans wider.size.symm, held⟩
  slots {rule offset number compiled} awaits found index lower instruction member slot filled := by
    obtain ⟨frame, here, passed⟩ := (back.marks.stack rule).exists_slot source.frames awaits found
    obtain ⟨address, held⟩ := passed index lower instruction member slot filled
    obtain ⟨before, wider, at_origin⟩ := source.frames.kept number frame here
    obtain ⟨now, now_wider, at_machine⟩ := back.grown.kept number frame here
    exact ⟨address, _, _, at_origin, at_machine, wider.kept slot address held,
      now_wider.kept slot address held⟩

/-- Choice points newer than one may be dropped. -/
theorem Pause.Backed.drop {trial : Trial} {newer choices : List Choice} {memory : Memory}
    {frames : Array Frame} {pauses : List Pause}
    (backed : Pause.Backed trial (newer ++ choices) memory frames pauses) :
    Pause.Backed trial choices memory frames (pauses.drop newer.length) := by
  induction newer generalizing memory frames pauses with
  | nil => exact backed
  | cons choice newer ih =>
    cases backed with
    | cons marks rewinds grown older => exact (ih older).later rewinds grown

theorem Choice.Traced.exists_from {program : Program} {newer older : List Choice} {choice : Choice}
    {pauses : List Pause} {origins : List Machine}
    (traced : Traced program (newer ++ choice :: older) pauses origins) :
    ∃ pause rest origin, pauses.drop newer.length = pause :: rest ∧
      origins[newer.length]? = some origin ∧ choice.From program origin pause := by
  induction newer generalizing pauses origins with
  | nil =>
    cases traced with
    | cons first rest => exact ⟨_, _, _, rfl, rfl, first⟩
  | cons newest newer ih =>
    cases traced with
    | cons _ rest => exact ih rest

/-- At every moment of every run, going back to any choice point of the stack gives exactly the
state in which it was pushed: the machine that made the call is kept with the choice point. -/
theorem Moment.Reached.restore_exact {allowed : Rule → Prop} {program : Program}
    (built : program.Built allowed) {moment : Moment} (reached : moment.Reached program)
    {newer older : List Choice} {choice : Choice}
    (stack : moment.machine.choices = newer ++ choice :: older) :
    ∃ origin restored, moment.origins[newer.length]? = some origin ∧
      Exec.restore { moment.machine with choices := choice :: older } = .ok ⟨⟩ restored ∧
      Machine.BackAt program origin choice restored := by
  obtain ⟨-, -, none_left⟩ | ⟨trial, context, view, -, rfl, -, fits⟩ := reached.known built
  · rw [none_left] at stack
    simp at stack
  have traced := fits.traced
  have backed := fits.machine.backed
  rw [stack] at traced backed
  obtain ⟨pause, pauses, origin, paused, at_origin, source⟩ := traced.exists_from
  have dropped : Machine.Fits trial { moment.machine with choices := choice :: older }
      ⟨view.frames, none, pause :: pauses⟩ :=
    ⟨fits.machine.entry, fits.machine.sizes, fits.machine.frames, nofun, paused ▸ backed.drop,
      fits.machine.inside⟩
  obtain ⟨found, others, same, back⟩ := dropped.goesBack rfl
  cases same
  have room := fits.room choice (by simp [stack])
  exact ⟨origin, _, at_origin, Exec.restore_of_le rfl back.trail, back.backAt room source⟩

/-! ### A run -/

/-- A rule that calls stored facts and then clauses: `r(X) :- p(X), q(X).` -/
def Rule.selecting : Rule where
  head := .struct ⟨2⟩ [.var 0]
  body := [.struct ⟨0⟩ [.var 0], .struct ⟨1⟩ [.var 0]]

/-- The clauses `q(f(a))` and `q(b)`, and that rule. -/
def Program.selecting : Program :=
  ((Program.new 2).declare ⟨⟨0⟩, 1⟩).addRules .empty
    [{ head := .struct ⟨1⟩ [.struct ⟨3⟩ [.atom ⟨4⟩]], body := [] },
      { head := .struct ⟨1⟩ [.atom ⟨5⟩], body := [] }, .selecting]

theorem Program.built_selecting :
    Program.selecting.Built (Rule.AllFunctors fun functor ↦ 0 < functor.arity) :=
  .addRules (.declare (.new 2) _) (by
    simp [Rule.AllFunctors, Rule.selecting, Term.AllFunctors, Term.AllFunctorsList])

/-- The facts `p(f(a))`, `p(a)` and `p(b)`. -/
def Fact.candidates : List Fact :=
  [⟨.struct ⟨0⟩ [.struct ⟨3⟩ [.atom ⟨4⟩]], rfl, rfl, rfl⟩, ⟨.struct ⟨0⟩ [.atom ⟨4⟩], rfl, rfl, rfl⟩,
    ⟨.struct ⟨0⟩ [.atom ⟨5⟩], rfl, rfl, rfl⟩]

/-- The program with some facts. -/
def Context.selecting (facts : List Fact) : Context where
  program := .selecting
  store := .ofFacts facts
  occursCheck := .on
  stepLimit := 100

/-- Whether the machine is in the first clause of the second call, with `X` bound to `f(a)`, and
going back to the first call leaves `X` unbound. -/
def Machine.selects (machine : Machine) : Bool :=
  match Exec.restore { machine with choices := machine.choices.tail } with
  | .ok _ restored => decide (machine.choices.map (·.goal) = [⟨⟨1⟩, 1⟩, ⟨⟨0⟩, 1⟩] ∧
      (machine.frames.map Frame.slots = #[#[some 0], #[]] ∧ machine.memory.trail = #[0] ∧
        machine.memory.heap.extract 0 = .ok (.struct ⟨3⟩ [.atom ⟨4⟩])) ∧
      restored.frames.map Frame.slots = #[#[some 0]] ∧ restored.registers = #[some 0, none] ∧
      restored.memory.trail = #[] ∧ restored.memory.heap.cells = #[.ref 0])
  | .error _ _ => false

/-- The attempt comes to such a machine. -/
theorem Moment.exists_selecting : ∃ machine origins second first restored,
    Reached .selecting ⟨machine, none, origins⟩ ∧ machine.choices = [second, first] ∧
    Exec.restore { machine with choices := [first] } = .ok ⟨⟩ restored ∧
    (machine.frames.map Frame.slots = #[#[some 0], #[]] ∧ machine.memory.trail = #[0] ∧
      machine.memory.heap.extract 0 = .ok (.struct ⟨3⟩ [.atom ⟨4⟩])) ∧
    restored.frames.map Frame.slots = #[#[some 0]] ∧ restored.registers = #[some 0, none] ∧
    restored.memory.trail = #[] ∧ restored.memory.heap.cells = #[.ref 0] := by
  have made : ((Context.selecting Fact.candidates).attempt ⟨2⟩ 2 8).any Machine.selects = true := by
    decide +kernel
  obtain ⟨machine, attempted, selects⟩ := (Option.any_eq_true _ _).1 made
  obtain ⟨origins, reached⟩ := reached_attempt attempted
  unfold Machine.selects at selects
  split at selects
  · next _ restored back =>
    obtain ⟨goals, at_call, after⟩ := of_decide_eq_true selects
    obtain ⟨second, first, stack⟩ :=
      List.length_eq_two.1 (by simpa using congrArg List.length goals)
    rw [stack] at back
    exact ⟨machine, origins, second, first, restored, reached, stack, back, at_call, after⟩
  · cases selects

/-- In the second call, with `X` bound in a frame below, going back to the first one unbinds it. -/
theorem restore_exact_selecting : ∃ machine origins second first,
    Moment.Reached .selecting ⟨machine, none, origins⟩ ∧ machine.choices = [second, first] ∧
    (machine.frames.map Frame.slots = #[#[some 0], #[]] ∧ machine.memory.trail = #[0] ∧
      machine.memory.heap.extract 0 = .ok (.struct ⟨3⟩ [.atom ⟨4⟩])) ∧
    ∃ origin restored, origins[1]? = some origin ∧
      Exec.restore { machine with choices := [first] } = .ok ⟨⟩ restored ∧
      restored.frames.map Frame.slots = #[#[some 0]] ∧ restored.registers = #[some 0, none] ∧
      restored.memory.trail = #[] ∧ restored.memory.heap.cells = #[.ref 0] ∧
      Machine.BackAt .selecting origin first restored := by
  obtain ⟨machine, origins, second, first, restored, reached, stack, back, at_call, frames,
    registers, trail, cells⟩ := Moment.exists_selecting
  have above : machine.choices = [second] ++ first :: [] := stack
  obtain ⟨origin, other, at_origin, restores, exact⟩ :=
    reached.restore_exact Program.built_selecting above
  cases back.symm.trans restores
  exact ⟨machine, origins, second, first, reached, stack, at_call, origin, restored, at_origin,
    back, frames, registers, trail, cells, exact⟩

end HornMachine
