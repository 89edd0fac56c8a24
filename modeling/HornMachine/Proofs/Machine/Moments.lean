import HornMachine.Proofs.Machine.Counters
import HornMachine.Proofs.Machine.Solutions

/-!
# What every moment of a run keeps

Main statement: a pass leads from a moment that fits a view to one that fits a view, and it does so
by moves on the sets of instances, or it hands out a solution of the branch it was in. What holds of
a run is derived from this by induction over its passes.
-/

namespace HornMachine

open Code (Meaning Disciplined Shape Total)

variable {D : Type} [Domain D] {trial : Trial} {context : Context}

/-! ### One instruction -/

namespace Machine

variable {machine later : Machine} {view : View}

/-- The machine has found a solution of the branch it was in. -/
def Finds (D : Type) [Domain D] (trial : Trial) (situation : Situation) (machine : Machine)
    (view : View) (later : Machine) : Prop :=
  later.status = .succeeded ∧ later.choices = machine.choices ∧
    later.Fits trial { view with current := none } ∧
    ∃ solution, later.pending = some solution ∧
      trial.Emission D later solution (situation.instances trial)

/-- An instruction other than a call of a predicate leads on, gives the branch up or finds a
solution. -/
theorem advances_or_finds (fits : machine.Fits trial view) (runs : trial.Runs context)
    {situation : Situation} (current : view.current = some situation)
    (running : machine.status = .running) {compiled : CompiledRule} {instruction : Instruction}
    (fetches : machine.Fetches context compiled instruction)
    (other : ∀ goal, instruction ≠ .call (.predicate goal)) {success : Bool}
    (ended : Exec.execute context compiled instruction machine.begun = .ok success later) :
    machine.Advances D trial context view (later.after success) ∨
      machine.Finds D trial situation view (later.after success) := by
  cases fits.current situation current with
  | entering running_rule found counter formed holds stack =>
    obtain rfl := fetches.eq_compiled running_rule (runs.program ▸ found)
    exact .inl (advances_allocate fits runs current running running_rule found counter formed holds
      stack fetches.code ended)
  | inside inside =>
    obtain ⟨rfl, here⟩ := inside.fetches runs fetches
    obtain ⟨registers, building, valid⟩ := inside.valid
    have disciplined := valid.disciplined_of_front (inside.front here)
    by_cases straight : Exec.Straight instruction
    · exact .inl (advances_straight fits current rfl inside running here straight ended)
    · cases instruction with
      | deallocate => exact .inl (advances_deallocate fits current inside running here ended)
      | fail => exact .inl (advances_fail fits current inside here ended)
      | call target =>
        cases target with
        | builtin => exact .inl (advances_builtin fits current inside running here ended)
        | predicate goal => exact absurd rfl (other goal)
      | allocate | proceed => exact disciplined.elim
      | _ => exact absurd trivial straight
  | leaving running_rule found facing formed sized bounded full stack answer =>
    obtain ⟨rfl, rfl⟩ := fetches.eq_of_leaving runs running_rule found facing
    cases continuation : machine.continuation with
    | goTo caller offset =>
      exact .inl (advances_proceed fits current running formed continuation stack ended)
    | halt =>
      obtain ⟨rfl, status, choices, later_fits, solution, pending, emission⟩ :=
        emits_proceed (D := D)
        fits runs found formed sized bounded full continuation stack answer rfl ended
      exact .inr ⟨status, choices, later_fits, solution, pending, emission⟩

end Machine

namespace Machine

/-- A machine that neither opens nor leaves a rule is inside one. -/
theorem Fits.exists_inside {machine : Machine} {view : View} (fits : machine.Fits trial view)
    (runs : trial.Runs context) {situation : Situation} (current : view.current = some situation)
    {compiled : CompiledRule} {instruction : Instruction}
    (fetches : machine.Fetches context compiled instruction)
    (opens : ∀ size, instruction ≠ .allocate size) (leaves : instruction ≠ .proceed) :
    ∃ rule number frame, machine.Inside trial view.frames rule compiled number frame situation.point
      situation.layers := by
  cases fits.current situation current with
  | entering running_rule found counter =>
    exact absurd (fetches.eq_of_entering runs running_rule found counter).2 (opens _)
  | inside inside =>
    obtain ⟨rfl, -⟩ := inside.fetches runs fetches
    exact ⟨_, _, _, inside⟩
  | leaving running_rule found facing =>
    exact absurd (fetches.eq_of_leaving runs running_rule found facing).2 leaves

end Machine

namespace Machine

variable {machine later : Machine} {view : View}

/-- As many facts as there are of the functor called are enough to try. -/
theorem Fits.enough (fits : machine.Fits trial view) {choice : Choice} {older : List Choice}
    (stack : machine.choices = choice :: older) (consistent : context.store.Consistent) :
    context.Enough choice (context.store.factsOf choice.goal).size := by
  obtain ⟨pause, pauses, -, back⟩ := fits.goesBack stack
  exact fun query alternative ↦ consistent.length_remaining_le fun found same ↦
    back.marks.functor_eq alternative same

/-- Where a machine stands does not depend on its status. -/
theorem Fits.running (fits : machine.Fits trial view) :
    Fits trial { machine with status := .running } view := by
  refine ⟨fits.entry, fits.sizes, fits.frames, fun situation current ↦ ?_, fits.backed, fits.inside⟩
  cases fits.current situation current with
  | entering at_rule found counter formed holds stack =>
    exact .entering at_rule found counter formed holds stack
  | inside inside =>
    refine .inside { inside with shows := ?_ }
    obtain ⟨environment, here, slots, wider, same⟩ := inside.shows
    refine ⟨environment, here, slots, wider, ?_⟩
    conv_lhs => rw [same]
    rfl
  | leaving at_rule found facing formed sized bounded full stack answer =>
    exact .leaving at_rule found facing formed sized bounded full stack answer

/-- Of a machine that runs no instruction, only the parts that a choice point goes back to
matter. -/
theorem Fits.congr (fits : machine.Fits trial view) (still : view.current = none)
    (entry : later.entry = machine.entry) (frames : later.frames = machine.frames)
    (choices : later.choices = machine.choices) (memory : later.memory = machine.memory) :
    later.Fits trial view where
  entry := entry.trans fits.entry
  sizes := frames ▸ fits.sizes
  frames := frames ▸ fits.frames
  current := by simp [still]
  backed := by
    rw [choices, memory]
    exact fits.backed
  inside := memory ▸ fits.inside

end Machine

/-- An attempt that goes on has begun and has not failed. -/
theorem Status.Active.begun {status : Status} (active : status.Active) {left : Prop} :
    status ≠ .idle ∧ (status = .failed → left) :=
  ⟨active.ne (by simp [Active]), fun failed ↦ absurd failed (active.ne (by simp [Active]))⟩

/-! ### Where choice points come from -/

/-- A choice point with its state comes from a call made by a machine. -/
structure Choice.From (program : Program) (origin : Machine) (choice : Choice) (pause : Pause) :
    Prop where
  memory : pause.memory = origin.memory
  sizes : origin.frames.size = pause.frames.size
  frames : Frame.Grown origin.frames pause.frames
  arguments : choice.arguments = origin.registers.extract 0 choice.goal.arity
  environment : choice.environment = origin.environment
  continuation : ∃ rule compiled, origin.rule = some rule ∧ program.rule? rule = some compiled ∧
    compiled.code[origin.offset]? = some (.call (.predicate choice.goal)) ∧
    choice.continuation = .goTo rule (origin.offset + 1)

/-- Choice points with their states and the machines that they come from. -/
inductive Choice.Traced (program : Program) : List Choice → List Pause → List Machine → Prop
  | nil : Traced program [] [] []
  | cons {choice : Choice} {pause : Pause} {origin : Machine} {choices : List Choice}
    {pauses : List Pause} {origins : List Machine} (first : choice.From program origin pause)
    (rest : Traced program choices pauses origins) :
    Traced program (choice :: choices) (pause :: pauses) (origin :: origins)

namespace Moment

/-- A moment of an attempt, as it is viewed. -/
structure Fits (trial : Trial) (context : Context) (moment : Moment) (view : Machine.View) :
    Prop where
  machine : moment.machine.Fits trial view
  current : view.current.isSome = true ↔ moment.seeking = none ∧ moment.machine.status = .running
  seeking : ∀ count, moment.seeking = some count → moment.machine.status.Active ∧
    ∃ choice older, moment.machine.choices = choice :: older ∧
      (context.store.Consistent → context.Enough choice count)
  room : ∀ choice ∈ moment.machine.choices,
    choice.arguments.size ≤ moment.machine.registers.size
  /-- The attempt has begun, and it has failed only if there are no choice points. -/
  status : moment.machine.status ≠ .idle ∧
    (moment.machine.status = .failed → moment.machine.choices = [])
  traced : Choice.Traced trial.program moment.machine.choices view.pauses moment.origins

/-- What a pass, or a run, does to the sets of instances: moves, after which a branch may be closed
with a solution. -/
def Goes (D : Type) [Domain D] (trial : Trial) (context : Context) (moment : Moment)
    (view : Machine.View) (later : Moment) (after : Machine.View) : Prop :=
  (later.machine.status ≠ .succeeded ∧
    Moves (trial.Exact D) context (view.stage D trial context moment.machine.choices)
      (after.stage D trial context later.machine.choices)) ∨
  (later.machine.status = .succeeded ∧ ∃ solution set choices,
    later.machine.pending = some solution ∧
    Moves (trial.Exact D) context (view.stage D trial context moment.machine.choices)
      ⟨some set, choices⟩ ∧
    after.stage D trial context later.machine.choices = ⟨none, choices⟩ ∧
    trial.Emission D later.machine solution set)

end Moment

namespace Exec

/-- Once a machine is back at its newest choice point, what unifying with a fact keeps is kept by
trying the next answer. -/
theorem ends_tryAnswer {property : Machine → Prop} (movable : Machine.Movable property)
    {context : Context}
    (unifies : ∀ goal fact, Preserves property (unifyFact context.occursCheck goal fact))
    (count : Nat) {machine restored : Machine} (back : restore machine = .ok ⟨⟩ restored)
    (holds : property restored) :
    Ends property (tryAnswer context count) machine := by
  refine ends_bind back (Preserves.ends (preserves_get_bind fun machine _ ↦ ?_) holds)
  split
  · exact preserves_pure _
  · split
    · refine preserves_bind (preserves_setAlternative movable _) fun _ ↦
        preserves_bind (unifies _ _) fun unified ↦ ?_
      split
      · exact preserves_bind (preserves_continueAfter movable _) fun _ ↦ preserves_pure _
      · exact preserves_pure _
    · refine preserves_bind (preserves_takeClause movable _ _ _) fun taken ↦ ?_
      split
      · exact preserves_pure _
      · exact preserves_pure _

theorem preserves_tryAnswer {start : Machine} (context : Context) (count : Nat) :
    Preserves start.Quiet (tryAnswer context count) := by
  refine preserves_of_ends fun machine quiet ↦ ?_
  have kept := preserves_restore.ends quiet
  cases back : restore machine with
  | ok done restored =>
    exact ends_tryAnswer (Machine.movable_quiet start) (fun _ _ ↦
      preserves_unifyFact _ _ _) count back
      (kept.ok _ _ back)
  | error fault restored =>
    have same : tryAnswer context count machine = .error fault restored := by
      rw [tryAnswer, bind_apply, back]
    constructor
    · intro finding later ended
      cases same.symm.trans ended
    · intro fault later ended
      cases same.symm.trans ended
      exact kept.error _ _ back

end Exec

/-- No pass changes the size of the bank. -/
theorem Moment.Passes.size_registers {moment later : Moment}
    (passes : moment.Passes context later) :
    later.machine.registers.size = moment.machine.registers.size := by
  cases passes with
  | @run machine next origins compiled instruction success running fetches other ended =>
    have kept :=
      Exec.preserves_execute context compiled instruction machine.begun (Machine.Quiet.refl _).1
    rw [ended] at kept
    cases success with
    | true => exact kept.1
    | false => exact kept.1
  | call running fetches ended =>
    obtain ⟨rule, args, -, -, -, rfl⟩ := Exec.pushCall_eq_ok ended
    rfl
  | @miss machine next origins count ended =>
    have kept := Exec.preserves_tryAnswer context (count + 1) machine (.refl _)
    rw [ended] at kept
    exact kept.1.1
  | @find machine next origins count ended =>
    have kept := Exec.preserves_tryAnswer context count machine (.refl _)
    rw [ended] at kept
    exact kept.1.1
  | @exhaust machine next origins count ended =>
    have kept := Exec.preserves_tryAnswer context count machine (.refl _)
    rw [ended] at kept
    exact kept.1.1
  | back => rfl
  | stop => rfl

theorem Choice.Traced.drop {program : Program} {choices older : List Choice} {pauses : List Pause}
    {origins : List Machine} (traced : Traced program choices pauses origins) {choice : Choice}
    (stack : choices = choice :: older) :
    Traced program older pauses.tail (origins.drop 1) := by
  subst stack
  cases traced with
  | cons first rest => exact rest

/-- Where a choice point comes from does not depend on the answers it has left. -/
theorem Choice.Traced.noting {program : Program} {choice : Choice} {older : List Choice}
    {pauses : List Pause} {origins : List Machine}
    (traced : Traced program (choice :: older) pauses origins) (alternative : Alternative) :
    Traced program ({ choice with alternative } :: older) pauses origins := by
  cases traced with
  | cons first rest => exact .cons { first with } rest

namespace Moment

variable {moment later : Moment} {view : Machine.View}

/-- The choice points of a machine that turns. -/
theorem traced_of_turns {machine next : Machine} {choice : Choice} {older : List Choice}
    {origins : List Machine} {after : Machine.View} {program : Program}
    (stack : machine.choices = choice :: older)
    (traced : Choice.Traced program machine.choices view.pauses origins)
    (turned : (next.choices = older ∧ after.pauses = view.pauses.tail) ∨
      ∃ alternative, next.choices = { choice with alternative } :: older ∧
        after.pauses = view.pauses) :
    Choice.Traced program next.choices after.pauses
      (origins.drop (machine.choices.length - next.choices.length)) := by
  obtain ⟨choices, pauses⟩ | ⟨alternative, choices, pauses⟩ := turned
  · rw [choices, pauses, stack, List.length_cons, Nat.add_sub_cancel_left]
    exact traced.drop stack
  · rw [stack] at traced ⊢
    rw [choices, pauses, List.length_cons, List.length_cons, Nat.sub_self]
    exact traced.noting alternative

/-- While instructions are run, there is a situation. -/
theorem Fits.exists_current (fits : moment.Fits trial context view)
    (none_sought : moment.seeking = none)
    (running : moment.machine.status = .running) : ∃ situation, view.current = some situation :=
  Option.isSome_iff_exists.1 (fits.current.2 ⟨none_sought, running⟩)

theorem Fits.still (fits : moment.Fits trial context view)
    (busy : moment.seeking = none → moment.machine.status ≠ .running) : view.current = none := by
  rw [← Option.not_isSome_iff_eq_none, fits.current]
  exact fun ⟨none_sought, running⟩ ↦ busy none_sought running

/-- Trying an answer keeps what holds of a moment. -/
theorem Fits.tries {machine next : Machine} {origins : List Machine} {count : Nat}
    {finding : Finding}
    (fits : Fits trial context ⟨machine, some count, origins⟩ view) (runs : trial.Runs context)
    (ended : Exec.tryAnswer context count machine = .ok finding next) :
    ∃ after : Machine.View,
      next.Fits trial after ∧ (after.current.isSome = true ↔ finding = .found) ∧
      Choice.Traced trial.program next.choices after.pauses
        (origins.drop (machine.choices.length - next.choices.length)) ∧
      (∀ choice ∈ next.choices, choice.arguments.size ≤ machine.registers.size) ∧
      (trial.Sense context →
        Moves (trial.Exact D) context (view.stage D trial context machine.choices)
        (after.stage D trial context next.choices)) := by
  obtain ⟨active, choice, older, stack, enough⟩ := fits.seeking _ rfl
  obtain ⟨-, tries⟩ := Exec.tryAnswer_eq_ok stack ended
  obtain ⟨first, others⟩ := List.forall_mem_cons.1 (stack ▸ fits.room)
  obtain ⟨after, later_fits, found, turned, moves⟩ :=
    Machine.turns_of_tries (D := D) fits.machine runs stack first tries
  refine ⟨after, later_fits, found, traced_of_turns stack fits.traced turned, ?_, fun sense ↦ ?_⟩
  · obtain ⟨choices, -⟩ | ⟨alternative, choices, -⟩ := turned
    · rwa [choices]
    · rw [choices]
      exact List.forall_mem_cons.2 ⟨first, others⟩
  · have still : view.current = none := fits.still nofun
    have same : view.stage D trial context machine.choices =
        ⟨none, (view.stage D trial context machine.choices).choices⟩ := by
      rw [Machine.View.stage, still]
      rfl
    rw [same]
    exact moves sense (enough sense.consistent)

/-- A pass keeps what holds of a moment. -/
theorem Fits.passes (fits : moment.Fits trial context view) (runs : trial.Runs context)
    (passes : moment.Passes context later) :
    ∃ after, later.Fits trial context after ∧
      (trial.Sense context → moment.Goes D trial context view later after) := by
  have bank := passes.size_registers
  cases passes with
  | @run machine next origins compiled instruction success running fetches other ended =>
    obtain ⟨situation, current⟩ := fits.exists_current rfl running
    obtain ⟨after, later_fits, choices, pauses, going, active, moves⟩ |
        ⟨status, choices, later_fits, solution, pending, emission⟩ :=
      Machine.advances_or_finds (D := D) fits.machine runs current running fetches other ended
    · refine ⟨after, ⟨later_fits, ?_, by simp, ?_, active.begun, ?_⟩, fun sense ↦ .inl
        ⟨active.ne (by simp [Status.Active]), moves sense⟩⟩
      · simpa using going
      · rw [choices, bank]
        exact fits.room
      · rw [choices, pauses]
        exact fits.traced
    · refine ⟨_, ⟨later_fits, by simp [status], by simp, ?_, by simp [status], ?_⟩,
        fun sense ↦ .inr ⟨status, solution, situation.instances trial,
          (view.stage D trial context machine.choices).choices, pending, ?_, ?_, emission⟩⟩
      · rw [choices, bank]
        exact fits.room
      · rw [choices]
        exact fits.traced
      · rw [Machine.stage_of_current current]
      · rw [choices]
        rfl
  | @call machine next origins compiled goal running fetches ended =>
    obtain ⟨situation, current⟩ := fits.exists_current rfl running
    obtain ⟨rule, number, frame, inside⟩ :=
      fits.machine.exists_inside runs current fetches (by simp) (by simp)
    obtain ⟨waiting, later_fits, moves⟩ := Machine.advances_call (D := D) fits.machine runs current
      inside fetches.code ended
    obtain ⟨caller, args, at_rule, enough, -, rfl⟩ := Exec.pushCall_eq_ok ended
    cases inside.running.symm.trans at_rule
    have active : machine.begun.status.Active := .inl running
    refine ⟨_, ⟨later_fits, by simp, ?_, ?_, active.begun, .cons ⟨rfl, fits.machine.sizes,
      fits.machine.frames, rfl, rfl, rule, compiled, inside.running, inside.found,
        fetches.code, rfl⟩
      fits.traced⟩, fun sense ↦ .inl ⟨active.ne (by simp [Status.Active]), moves sense⟩⟩
    · rintro count ⟨⟩
      exact ⟨active, _, _, rfl, later_fits.enough rfl⟩
    · refine List.forall_mem_cons.2 ⟨?_, fits.room⟩
      simp only [Machine.calling, Array.size_extract]
      exact Nat.le_trans (Nat.sub_le _ _) (Nat.min_le_right _ _)
  | @miss machine next origins count ended =>
    obtain ⟨active, choice, older, stack, enough⟩ := fits.seeking _ rfl
    obtain ⟨after, later_fits, found, traced, room, moves⟩ := fits.tries (D := D) runs ended
    obtain ⟨-, tries⟩ := Exec.tryAnswer_eq_ok stack ended
    obtain ⟨missed, choices, still_enough⟩ := tries.enough
    have active : next.status.Active := Exec.status_tryAnswer ended ▸ active
    refine ⟨after, ⟨later_fits, by simp [found], ?_, bank ▸ room, active.begun, ?_⟩,
      fun sense ↦ .inl
      ⟨active.ne (by simp [Status.Active]), moves sense⟩⟩
    · rintro left ⟨⟩
      exact ⟨active, missed, older, choices, fun consistent ↦
        still_enough consistent (enough consistent)⟩
    · rw [stack, choices, List.length_cons, List.length_cons, Nat.sub_self, ← choices] at traced
      exact traced
  | @find machine next origins count ended =>
    obtain ⟨after, later_fits, found, traced, room, moves⟩ := fits.tries (D := D) runs ended
    exact ⟨after, ⟨later_fits.running, by simp [found], by simp, bank ▸ room, by simp, traced⟩,
      fun sense ↦ .inl
      ⟨by simp, moves sense⟩⟩
  | @exhaust machine next origins count ended =>
    obtain ⟨after, later_fits, found, traced, room, moves⟩ := fits.tries (D := D) runs ended
    have still : after.current = none := by
      rw [← Option.not_isSome_iff_eq_none, found]
      simp
    exact ⟨after, ⟨later_fits.congr still rfl rfl rfl rfl, by simp [still], by simp, bank ▸ room,
      by simp, traced⟩,
      fun sense ↦ .inl ⟨by simp, moves sense⟩⟩
  | @back machine origins choice older backtracking stack =>
    have still : view.current = none := fits.still fun _ ↦ by simp [backtracking]
    have active : machine.returning.status.Active := .inr backtracking
    refine ⟨view, ⟨fits.machine.congr still rfl rfl rfl rfl, by simp [still], ?_, fits.room,
      active.begun, fits.traced⟩, fun _ ↦ .inl ⟨active.ne (by simp [Status.Active]), .refl⟩⟩
    rintro count ⟨⟩
    exact ⟨active, choice, older, stack, fits.machine.enough stack⟩
  | @stop machine origins backtracking stack =>
    have still : view.current = none := fits.still fun _ ↦ by simp [backtracking]
    exact ⟨view, ⟨fits.machine.congr still rfl rfl rfl rfl, by simp [still], by simp, fits.room,
      ⟨by simp, fun _ ↦ stack⟩, fits.traced⟩, fun _ ↦ .inl ⟨by simp, .refl⟩⟩

/-! ### Runs -/

/-- Nothing is done once a solution was found. -/
theorem Fits.unfinished (fits : moment.Fits trial context view)
    (passes : moment.Passes context later) :
    moment.machine.status ≠ .succeeded := by
  refine Status.Active.ne ?_ (by simp [Status.Active])
  cases passes with
  | run running | call running => exact .inl running
  | miss | find | exhaust => exact (fits.seeking _ rfl).1
  | back backtracking | stop backtracking => exact .inr backtracking

/-- A run keeps what holds of a moment. -/
theorem Fits.reaches (fits : moment.Fits trial context view) (runs : trial.Runs context)
    (unfinished : moment.machine.status ≠ .succeeded) (reaches : moment.Reaches context later) :
    ∃ after, later.Fits trial context after ∧
      (trial.Sense context → moment.Goes D trial context view later after) := by
  induction reaches with
  | refl => exact ⟨view, fits, fun _ ↦ .inl ⟨unfinished, .refl⟩⟩
  | tail _ last ih =>
    obtain ⟨middle, middle_fits, so_far⟩ := ih
    obtain ⟨after, later_fits, goes⟩ := middle_fits.passes (D := D) runs last
    refine ⟨after, later_fits, fun sense ↦ ?_⟩
    obtain ⟨-, moves⟩ | ⟨succeeded, -⟩ := so_far sense
    swap
    · exact absurd succeeded (middle_fits.unfinished last)
    obtain ⟨going, more⟩ | ⟨succeeded, solution, set, choices, pending, more, closed, emission⟩ :=
      goes sense
    · exact .inl ⟨going, moves.trans more⟩
    · exact .inr ⟨succeeded, solution, set, choices, pending, moves.trans more, closed, emission⟩

/-- A machine that goes back after a solution fits the same view. -/
theorem Fits.resumed {machine : Machine} {origins : List Machine}
    (fits : Fits trial context ⟨machine, none, origins⟩ view) :
    Fits trial context ⟨machine.resumed, none, origins⟩ view ∧
      machine.resumed.status ≠ .succeeded ∧ machine.resumed.choices = machine.choices := by
  unfold Machine.resumed
  split
  · next succeeded =>
    have still : view.current = none := fits.still fun _ ↦ by simp [succeeded]
    exact ⟨⟨fits.machine.congr still rfl rfl rfl rfl, by simp [still], nofun, fits.room, by simp,
      fits.traced⟩, by simp, rfl⟩
  · next unsolved => exact ⟨fits, unsolved, rfl⟩

/-- What a search for a solution does to the sets of instances. -/
def Searches (D : Type) [Domain D] (trial : Trial) (context : Context) (stage : Stage D)
    (later : Machine) (after : Machine.View) : Option Solution → Prop
  | none => Moves (trial.Exact D) context stage ⟨none, []⟩ ∧
      after.stage D trial context later.choices = ⟨none, []⟩
  | some solution => ∃ set choices, Moves (trial.Exact D) context stage ⟨some set, choices⟩ ∧
      after.stage D trial context later.choices = ⟨none, choices⟩ ∧
      trial.Emission D later solution set

/-- Between searches the store may change. -/
theorem Fits.inContext (fits : moment.Fits trial context view) (other : Context)
    (none_sought : moment.seeking = none) : moment.Fits trial other view :=
  { fits with seeking := by simp [none_sought] }

/-- The search for a solution keeps what holds of a machine. -/
theorem Fits.nextSolution {machine last : Machine} {origins : List Machine}
    {result : Option Solution}
    (fits : Fits trial context ⟨machine, none, origins⟩ view) (runs : trial.Runs context)
    (ended : machine.nextSolution context = .ok result last) :
    ∃ left after, Fits trial context ⟨last, none, left⟩ after ∧
      (trial.Sense context →
        Searches D trial context (view.stage D trial context machine.choices) last after
          result) := by
  have run := Machine.reaches_nextSolution context machine origins
  rw [ended] at run
  obtain ⟨final, left, reaches, ends⟩ := run
  obtain ⟨resumed, unfinished, choices⟩ := fits.resumed
  obtain ⟨after, final_fits, goes⟩ := resumed.reaches (D := D) runs unfinished reaches
  rw [← choices]
  cases ends with
  | failed failed =>
    have finished : last.status = .failed := failed.resolve_right final_fits.status.1
    have still : after.current = none := final_fits.still fun _ ↦ by simp [finished]
    refine ⟨left, after, final_fits, fun sense ↦ ?_⟩
    obtain ⟨-, moves⟩ | ⟨succeeded, -⟩ := goes sense
    · have closed : after.stage D trial context last.choices = ⟨none, []⟩ := by
        rw [show last.choices = [] from final_fits.status.2 finished, Machine.View.stage, still]
        rfl
      exact ⟨closed ▸ moves, closed⟩
    · cases finished.symm.trans succeeded
  | succeeded succeeded =>
    have still : after.current = none := final_fits.still fun _ ↦ by simp [succeeded]
    refine ⟨left, after, ⟨final_fits.machine.congr still rfl rfl rfl rfl,
      by simp [still, succeeded],
      by simp, final_fits.room, final_fits.status, final_fits.traced⟩, fun sense ↦ ?_⟩
    obtain ⟨unsolved, -⟩ | ⟨-, solution, set, choices, pending, moves, closed, emission⟩ :=
      goes sense
    · exact absurd succeeded unsolved
    · rw [pending]
      exact ⟨set, choices, moves, closed, emission.congr rfl rfl rfl⟩

end Moment

end HornMachine
