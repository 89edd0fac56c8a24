import HornMachine.Proofs.Machine.Instructions
import HornMachine.Proofs.Machine.Invariant
import HornMachine.Proofs.Machine.Passes

/-!
# Instructions keep what holds of a machine

Main statement: an instruction that calls nothing and hands out nothing leads from a machine that
fits a view to one that fits a view with the same instances, or it gives up the branch.
-/

namespace HornMachine

open Code (Meaning Disciplined Shape Total)

variable {D : Type} [Domain D] {trial : Trial} {context : Context}

/-- The slots filled by an instruction are filled once it has run. -/
theorem CompiledRule.Passed.succ {compiled : CompiledRule} {offset : Nat} {slots more : Bank}
    (passed : compiled.Passed offset slots) {instruction : Instruction}
    (here : compiled.code[offset]? = some instruction) (wider : more.Extends slots)
    (fills : ∀ first ∈ some instruction, ∀ slot ∈ first.slot?, slot ∈ more.filled) :
    compiled.Passed (offset + 1) more := by
  intro index lower found member slot filled
  rcases Nat.lt_succ_iff_lt_or_eq.1 lower with before | rfl
  · obtain ⟨address, held⟩ := passed index before found member slot filled
    exact ⟨address, wider.kept slot address held⟩
  · rw [here] at member
    exact fills found member slot filled

/-- The attempt is neither over nor at a solution. -/
def Status.Active (status : Status) : Prop := status = .running ∨ status = .backtracking

theorem Status.Active.ne {status other : Status} (active : status.Active)
    (finished : ¬other.Active) :
    status ≠ other := by
  rintro rfl
  exact finished active

namespace Machine

variable {machine later : Machine} {view : View}

/-- A machine that went on in its branch, or gave it up, with the same choice points. -/
theorem Fits.goOn (fits : machine.Fits trial view) {frames : Array Frame}
    {current : Option Situation} (entry : later.entry = machine.entry)
    (choices : later.choices = machine.choices) (rewinds : later.memory.Rewinds machine.memory)
    (sizes : later.frames.size = frames.size) (grown : Frame.Grown later.frames frames)
    (kept : Frame.Grown frames view.frames)
    (stands : ∀ situation, current = some situation → later.Stands trial frames situation) :
    later.Fits trial ⟨frames, current, view.pauses⟩ where
  entry := entry.trans fits.entry
  sizes := sizes
  frames := grown
  current := stands
  backed := by
    rw [choices]
    exact fits.backed.later rewinds kept
  inside address member := Nat.lt_of_lt_of_le (fits.inside address member) rewinds.heap

/-- A branch is given up. -/
theorem Fits.giveUp (fits : machine.Fits trial view) (entry : later.entry = machine.entry)
    (choices : later.choices = machine.choices) (rewinds : later.memory.Rewinds machine.memory)
    (sizes : later.frames.size = machine.frames.size)
    (grown : Frame.Grown later.frames view.frames) :
    later.Fits trial { view with current := none } :=
  fits.goOn entry choices rewinds (sizes.trans fits.sizes) grown (.refl _) nofun

theorem drop_eq_cons {compiled : CompiledRule} {counter : Nat} {instruction : Instruction}
    (here : compiled.code[counter]? = some instruction) :
    compiled.code.toList.drop counter = instruction :: compiled.code.toList.drop (counter + 1) := by
  rw [← Array.getElem?_toList] at here
  obtain ⟨inside, rfl⟩ := List.getElem?_eq_some_iff.1 here
  exact List.drop_eq_getElem_cons inside

/-- A machine that shows a point is its own base. -/
theorem Shows.self {number : Nat} {frame : Frame} {point : Point}
    (shows : machine.Shows number frame later point) :
    ∃ slots, slots.Extends point.slots ∧ later = machine.showing number frame point slots ∧
      later.Shows number { frame with slots } later point := by
  obtain ⟨environment, here, slots, wider, rfl⟩ := shows
  have room : number < machine.frames.size := (Array.getElem?_eq_some_iff.1 here).1
  refine ⟨slots, wider, rfl, environment, ?_, slots, wider, ?_⟩
  · simp [showing, room]
  · simp [showing]

theorem Shows.memory {number : Nat} {frame : Frame} {point : Point}
    (shows : machine.Shows number frame later point) : later.memory = point.memory := by
  obtain ⟨-, -, slots, -, rfl⟩ := shows
  rfl

theorem Shows.registers {number : Nat} {frame : Frame} {point : Point}
    (shows : machine.Shows number frame later point) : later.registers = point.registers := by
  obtain ⟨-, -, slots, -, rfl⟩ := shows
  rfl

theorem Shows.mode {number : Nat} {frame : Frame} {point : Point}
    (shows : machine.Shows number frame later point) : later.mode = point.mode := by
  obtain ⟨-, -, slots, -, rfl⟩ := shows
  rfl

/-- The current frame holds at least the point's slots. -/
theorem Shows.wider {number : Nat} {frame : Frame} {point : Point}
    (shows : machine.Shows number frame machine point) : Bank.Extends frame.slots point.slots := by
  obtain ⟨-, here, slots, wider, same⟩ := shows
  have room : number < machine.frames.size := (Array.getElem?_eq_some_iff.1 here).1
  rw [same] at here
  simp only [showing, Array.getElem?_setIfInBounds_self, room, if_true, Option.some.injEq] at here
  rwa [← here]

/-- The machine shows the same point once its next instruction is fetched. -/
theorem Shows.begun {number : Nat} {frame : Frame} {point : Point}
    (shows : machine.Shows number frame machine point) :
    machine.begun.Shows number frame machine.begun point := by
  obtain ⟨environment, here, slots, wider, same⟩ := shows
  refine ⟨environment, here, slots, wider, ?_⟩
  unfold Machine.begun
  conv_lhs => rw [same]
  rfl

section Inside

variable {rule : RuleId} {compiled : CompiledRule} {number : Nat} {frame : Frame} {point : Point}
  {layers : List Layer} {instruction : Instruction}

/-- The instruction fetched is the first of the code in front. -/
theorem Inside.front {frames : Array Frame}
    (inside : machine.Inside trial frames rule compiled number frame point layers)
    (here : compiled.code[machine.counter]? = some instruction) :
    point.code = instruction :: compiled.code.toList.drop (machine.counter + 1) :=
  inside.facing.trans (drop_eq_cons here)

theorem Inside.fetches {frames : Array Frame}
    (inside : machine.Inside trial frames rule compiled number frame point layers)
    (runs : trial.Runs context) {other : CompiledRule}
    (fetches : machine.Fetches context other instruction) :
    other = compiled ∧ compiled.code[machine.counter]? = some instruction := by
  obtain rfl := fetches.eq_compiled inside.running (runs.program ▸ inside.found)
  exact ⟨rfl, fetches.code⟩

/-- A machine about to run a rule fetches the instruction that opens its frame. -/
theorem Fetches.eq_of_entering {other : CompiledRule}
    (fetches : machine.Fetches context other instruction)
    (runs : trial.Runs context) (running : machine.rule = some rule)
    (found : trial.program.rule? rule = some compiled) (start : machine.counter = 0) :
    other = compiled ∧ instruction = .allocate compiled.frameSize := by
  obtain rfl := fetches.eq_compiled running (runs.program ▸ found)
  exact ⟨rfl, runs.lawful.eq_allocate found start fetches.code⟩

/-- A machine that left its rule's frame fetches the instruction that leaves the rule. -/
theorem Fetches.eq_of_leaving {other : CompiledRule}
    (fetches : machine.Fetches context other instruction)
    (runs : trial.Runs context) (running : machine.rule = some rule)
    (found : trial.program.rule? rule = some compiled)
    (facing : compiled.code.toList.drop machine.counter = [.proceed]) :
    other = compiled ∧ instruction = .proceed := by
  obtain rfl := fetches.eq_compiled running (runs.program ▸ found)
  rw [drop_eq_cons fetches.code] at facing
  exact ⟨rfl, (List.cons.inj facing).1⟩

/-- An instruction leads on inside the rule. -/
theorem Inside.lead
    (inside : machine.Inside trial view.frames rule compiled number frame point layers)
    (fits : machine.Fits trial view)
    (here : compiled.code[machine.counter]? = some instruction) {next : Point}
    (shows : machine.begun.Shows number frame later next) (leads : point.Leads D trial.shape next)
    (rest : next.code = point.code.tail) (fills : point.Fills next) :
    ∃ frames, later.Fits trial ⟨frames, some ⟨next, layers⟩, view.pauses⟩ := by
  have front := inside.front here
  obtain ⟨slots, wider, rfl, shown⟩ := shows.self
  have room : number < view.frames.size := (Array.getElem?_eq_some_iff.1 inside.here).1
  have room_machine : number < machine.frames.size := fits.sizes ▸ room
  have memory : machine.memory = point.memory := inside.shows.memory
  have rewinds : next.memory.Rewinds machine.memory := memory ▸ leads.rewinds
  refine ⟨view.frames.setIfInBounds number { frame with slots := next.slots },
    fits.goOn rfl rfl rewinds (by simp [showing, begun, fits.sizes]) ?_ ?_ ?_⟩
  · exact fits.frames.set_set inside.here wider
  · exact Frame.Grown.set (.refl _) inside.here leads.slots
  · rintro situation ⟨⟩
    suffices stands : Inside trial _ _ rule compiled number { frame with slots } next layers from
      .inside stands
    refine ⟨inside.running, inside.found, shown, ?_, ?_, ?_, ?_, leads.valid, ?_⟩
    · simp [room]
    · exact leads.slots.size.trans inside.sized
    · rw [rest, front]
      rfl
    · exact inside.passed.succ here leads.slots (by rwa [Point.Fills, front] at fills)
    · refine inside.stack.congr rewinds.heap fun other lower ↦ ?_
      rw [Array.getElem?_setIfInBounds_ne (Nat.ne_of_gt lower)]

/-- Going on inside a rule changes no instance. -/
theorem Inside.instances_lead
    (inside : machine.Inside trial view.frames rule compiled number frame point layers)
    (fits : machine.Fits trial view) {next : Point} (leads : point.Leads D trial.shape next) :
    Situation.instances (D := D) trial ⟨next, layers⟩ = Situation.instances trial
      ⟨point, layers⟩ := by
  have memory : machine.memory = point.memory := inside.shows.memory
  refine Trial.instances_congr (memory ▸ inside.stack.bounded)
    (memory ▸ fits.inside) leads.same.back
    leads.same.forth

end Inside

/-- The machine goes on to one that fits a later view, and what it does on the way are moves. -/
def Advances (D : Type) [Domain D] (trial : Trial) (context : Context) (machine : Machine)
    (view : View) (later : Machine) : Prop :=
  ∃ after : View, later.Fits trial after ∧ later.choices = machine.choices ∧
    after.pauses = view.pauses ∧ (after.current.isSome = true ↔ later.status = .running) ∧
    later.status.Active ∧
    (trial.Sense context →
      Moves (trial.Exact D) context (view.stage D trial context machine.choices)
      (after.stage D trial context later.choices))

private theorem stage_congr (D : Type) [Domain D] {after : View} (view : View)
    (pauses : after.pauses = view.pauses) (choices : List Choice) :
    after.stage D trial context choices =
      ⟨after.current.map (Situation.instances trial),
        (view.stage D trial context choices).choices⟩ := by
  rw [View.stage, View.stage, pauses]

section Advance

variable {situation : Situation} (fits : machine.Fits trial view)
  (current : view.current = some situation)

include current

theorem stage_of_current (D : Type) [Domain D] (choices : List Choice) :
    view.stage D trial context choices =
      ⟨some (situation.instances trial), (view.stage D trial context choices).choices⟩ := by
  rw [View.stage, current]
  rfl

/-- The branch goes on with the same instances. -/
theorem advances_of_same (frames : Array Frame) {next : Situation}
    (fits : later.Fits trial ⟨frames, some next, view.pauses⟩)
    (choices : later.choices = machine.choices) (running : later.status = .running)
    (same : next.instances (D := D) trial = situation.instances trial) :
    machine.Advances D trial context view later := by
  refine ⟨_, fits, choices, rfl, by simp [running], .inl running, fun _ ↦ ?_⟩
  rw [choices, stage_of_current current, stage_congr D view rfl, ← same]
  exact .refl

include fits

/-- The branch is given up. -/
theorem advances_giveUp (entry : later.entry = machine.entry)
    (choices : later.choices = machine.choices) (rewinds : later.memory.Rewinds machine.memory)
    (sizes : later.frames.size = machine.frames.size)
    (grown : Frame.Grown later.frames view.frames)
    (move : trial.Sense context → Move (trial.Exact D) context
      ⟨some (situation.instances (D := D) trial),
        (view.stage D trial context machine.choices).choices⟩
      ⟨none, (view.stage D trial context machine.choices).choices⟩) :
    machine.Advances D trial context view (later.after false) := by
  have given_up : Fits trial (later.after false) { view with current := none } :=
    fits.giveUp entry choices rewinds sizes grown
  refine ⟨_, given_up, choices, rfl, by simp [after], .inr rfl, fun sense ↦ ?_⟩
  rw [show (later.after false).choices = machine.choices from choices, stage_of_current current,
    stage_congr D view rfl]
  exact .single (move sense)

/-- An instruction that stays in its rule and calls nothing. -/
theorem advances_straight {rule : RuleId} {compiled : CompiledRule} {number : Nat} {frame : Frame}
    {point : Point} {layers : List Layer} {instruction : Instruction} {success : Bool}
    (situated : situation = ⟨point, layers⟩)
    (inside : machine.Inside trial view.frames rule compiled number frame point layers)
    (running : machine.status = .running)
    (here : compiled.code[machine.counter]? = some instruction)
    (straight : Exec.Straight instruction)
    (ended : Exec.execute context compiled instruction machine.begun = .ok success later) :
    machine.Advances D trial context view (later.after success) := by
  subst situated
  obtain ⟨registers, building, valid⟩ := inside.valid
  obtain ⟨next, shows, outcome⟩ := Exec.outcome_execute (D := D) straight valid inside.shows.begun
    (inside.front here) ended
  have memory : machine.memory = point.memory := inside.shows.memory
  cases success with
  | true =>
    obtain ⟨leads, rest, fills⟩ := outcome
    obtain ⟨frames, later_fits⟩ := inside.lead fits here shows leads rest fills
    obtain ⟨slots, -, rfl, -⟩ := shows.self
    exact advances_of_same current _ later_fits rfl running (inside.instances_lead fits leads)
  | false =>
    obtain ⟨rewinds, wider, never⟩ := outcome
    obtain ⟨slots, more, rfl, -⟩ := shows.self
    refine advances_giveUp fits current rfl rfl (memory ▸ rewinds) (by simp [showing, begun]) ?_
      fun _ ↦ .fail fun exact ↦ ?_
    · exact fits.frames.set inside.here (more.trans wider)
    · rintro an ⟨θ, η, first, others, values, said, -⟩
      exact absurd said (never (fun _ ↦ exact.domain.1) θ η first)

end Advance

/-! ### Opening and leaving frames -/

/-- A frame is opened. -/
theorem advances_allocate (fits : machine.Fits trial view) (runs : trial.Runs context)
    {rule : RuleId} {compiled : CompiledRule} {layers : List Layer}
    (current : view.current = some ⟨⟨machine.memory, compiled.body, machine.registers,
      Array.replicate compiled.frameSize none, machine.mode, 0⟩, layers⟩)
    (running : machine.status = .running) (at_rule : machine.rule = some rule)
    (found : trial.program.rule? rule = some compiled) (counter : machine.counter = 0)
    (formed : machine.memory.heap.Formed trial.admits 0)
    (holds : Point.Holds machine.registers {index | index < compiled.head.arity}
      machine.memory.heap.size)
    (stack : trial.Stack view.frames machine.memory.heap.size view.frames.size rule
      machine.continuation machine.environment layers) {instruction : Instruction} {success : Bool}
    (here : compiled.code[machine.counter]? = some instruction)
    (ended : Exec.execute context compiled instruction machine.begun = .ok success later) :
    machine.Advances D trial context view (later.after success) := by
  have opens := runs.lawful.opens found
  obtain rfl := runs.lawful.eq_allocate found counter here
  simp only [Exec.execute, bind_apply, modify_apply, pure_apply, EStateM.Result.ok.injEq] at ended
  obtain ⟨rfl, rfl⟩ := ended
  refine advances_of_same current (view.frames.push
    ⟨Array.replicate compiled.frameSize none, machine.continuation, machine.environment⟩)
    (fits.goOn rfl rfl (.refl _) (by simp [after, begun, fits.sizes])
      (fits.frames.push_push fits.sizes _) (.push _ _) ?_) rfl running rfl
  rintro situation ⟨⟩
  suffices stands : Inside trial _ _ rule compiled view.frames.size
      ⟨Array.replicate compiled.frameSize none, machine.continuation, machine.environment⟩
        _ layers from
    .inside stands
  refine ⟨at_rule, found, ⟨?_, ?_, Array.replicate compiled.frameSize none, .refl _, ?_⟩,
    ?_, ?_, ?_, ?_,
      ⟨{index | index < compiled.head.arity}, false, ?_⟩, ?_⟩
  · simp [after, begun, fits.sizes]
  · simp only [after, begun, ← fits.sizes]
    exact Array.getElem?_push_size
  · simp only [after, begun, showing, ← fits.sizes]
    congr 1
    apply Array.ext_getElem?
    intro other
    rw [Array.getElem?_setIfInBounds]
    split
    · next same =>
      rw [← same, if_pos (by simp)]
      exact Array.getElem?_push_size
    · rfl
  · simp
  · simp
  · simp [after, begun, counter, CompiledRule.body, List.drop_one]
  · rw [show (after _ true).counter = 1 from congrArg (· + 1) counter]
    intro index lower found member slot filled
    rw [Nat.lt_one_iff.1 lower, ← counter, here] at member
    cases member
    cases filled
  · have none_filled : Bank.filled (Array.replicate compiled.frameSize none) = ∅ := by
      ext index
      simp [Bank.filled, Array.getElem?_replicate]
    refine ⟨?_, Point.formed_between trial.shape formed machine.mode, holds, ?_, by simp, by simp⟩
    · rw [none_filled, Array.size_replicate]
      exact runs.lawful.disciplined found
    · intro index address held
      simp [Array.getElem?_replicate] at held
  · refine stack.congr (Nat.le_refl _) fun number lower ↦ ?_
    rw [Array.getElem?_push, if_neg (Nat.ne_of_lt lower)]

/-- What holds at least as much as a full bank is that bank. -/
theorem eq_of_extends_full {larger smaller : Bank} (wider : larger.Extends smaller)
    (full : ∀ index < smaller.size, index ∈ smaller.filled) : larger = smaller := by
  apply Array.ext_getElem?
  intro index
  by_cases lower : index < smaller.size
  · obtain ⟨address, held⟩ := full index lower
    rw [held, wider.kept index address held]
  · rw [Array.getElem?_eq_none (Nat.le_of_not_lt lower),
      Array.getElem?_eq_none (wider.size ▸ Nat.le_of_not_lt lower)]

section Inside

variable {rule : RuleId} {compiled : CompiledRule} {number : Nat} {frame : Frame} {point : Point}
  {layers : List Layer} {success : Bool} (fits : machine.Fits trial view)
  (current : view.current = some ⟨point, layers⟩)
  (inside : machine.Inside trial view.frames rule compiled number frame point layers)

include fits current inside

/-- A frame is left. -/
theorem advances_deallocate (running : machine.status = .running)
    (here : compiled.code[machine.counter]? = some .deallocate)
    (ended : Exec.execute context compiled .deallocate machine.begun = .ok success later) :
    machine.Advances D trial context view (later.after success) := by
  have front := inside.front here
  obtain ⟨registers, building, valid⟩ := inside.valid
  obtain ⟨between, full, rest⟩ := valid.disciplined_of_front front
  obtain ⟨⟨found, left⟩, middle, first, second⟩ := bind_eq_ok.1 ended
  obtain ⟨at_found, found_here, rfl⟩ := Exec.frame_eq_ok.1 first
  cases inside.shows.environment.symm.trans at_found
  cases inside.shows.here.symm.trans found_here
  have slots : frame.slots = point.slots := eq_of_extends_full inside.shows.wider full
  have same : point = ⟨machine.memory, [.deallocate, .proceed], machine.registers, point.slots,
      machine.mode, 0⟩ := by
    rw [inside.shows.memory, inside.shows.registers, inside.shows.mode, ← between, ← rest, ← front]
  simp only [bind_apply, modify_apply, pure_apply, EStateM.Result.ok.injEq] at second
  obtain ⟨rfl, rfl⟩ := second
  refine advances_of_same current view.frames
    (fits.goOn rfl rfl (.refl _) fits.sizes fits.frames (.refl _) ?_) rfl running
    (congrArg (fun point ↦ Situation.instances trial ⟨point, layers⟩) same.symm)
  rintro situation ⟨⟩
  have memory := inside.shows.memory
  refine .leaving inside.running inside.found rest ?_ inside.sized ?_ full inside.stack
    fun halts ↦ ?_
  · exact memory ▸ valid.formed_zero between
  · exact memory ▸ valid.slots
  · simp only [after, begun] at halts ⊢
    have first : number = 0 := inside.stack.bound_eq_zero halts
    rw [if_pos halts, slots, ← first, inside.here]
    exact ⟨rfl, rfl⟩

/-- A goal that always fails gives the branch up. -/
theorem advances_fail (here : compiled.code[machine.counter]? = some .fail)
    (ended : Exec.execute context compiled .fail machine.begun = .ok success later) :
    machine.Advances D trial context view (later.after success) := by
  have front := inside.front here
  obtain ⟨registers, building, valid⟩ := inside.valid
  have disciplined := valid.disciplined_of_front front
  cases ended
  refine advances_giveUp fits current rfl rfl (.refl _) rfl fits.frames fun _ ↦ .fail fun _ ↦ ?_
  rintro an ⟨θ, η, first, others, values, said, -, rfl⟩
  have meaning := said.meaning
  rw [front] at meaning
  exact ⟨others, by rw [show first = [.fail] from meaning]; rfl⟩

end Inside

/-- A machine that goes on with a rule that waited is inside that rule. -/
theorem inside_of_stack (machine : Machine) {frames : Array Frame}
    (grown : Frame.Grown machine.frames frames)
    {rule caller : RuleId} {bound offset : Nat} {layers : List Layer}
    (formed : machine.memory.heap.Formed trial.admits 0)
    (stack : trial.Stack frames machine.memory.heap.size bound rule (.goTo caller offset)
      machine.environment layers) (at_rule : machine.rule = some caller)
    (counter : machine.counter = offset) :
    ∃ layer older compiled number frame, layers = layer :: older ∧
      Disciplined trial.shape (Array.size layer.slots) layer.code ∅
        (Bank.filled layer.slots) false 0 ∧
      machine.Inside trial frames caller compiled number frame
        ⟨machine.memory, layer.code, machine.registers, layer.slots, machine.mode, 0⟩ older := by
  generalize at_environment : machine.environment = environment at stack
  cases stack with
  | @goTo _ number _ _ _ compiled frame older lower found here sized disciplined resumes
    passed bounded
      below =>
    obtain ⟨slots, wider, there⟩ := grown.kept number frame here
    refine ⟨_, older, compiled, number, { frame with slots }, rfl, disciplined, at_rule, found,
      ⟨at_environment, there, slots, wider, ?_⟩, here, sized, by rw [counter], counter ▸ passed,
      ⟨∅, false, disciplined, Point.formed_between trial.shape formed machine.mode,
        by simp [Point.Holds], bounded, by simp, by simp⟩, below⟩
    have same : machine.frames.setIfInBounds number { frame with slots } = machine.frames := by
      apply Array.ext_getElem?
      intro other
      rw [Array.getElem?_setIfInBounds]
      split
      · next same =>
        rw [← same, if_pos (Array.getElem?_eq_some_iff.1 there).1, there]
      · rfl
    simp only [showing, same]

/-- What is said when a rule's frame is left is what the rule that waits says. -/
theorem instances_resume {layer : Layer} {older : List Layer} {memory : Memory}
    {registers slots : Bank} {mode : Mode}
    (disciplined : Disciplined trial.shape (Array.size layer.slots) layer.code ∅
      (Bank.filled layer.slots) false 0) :
    Situation.instances (D := D) trial
        ⟨⟨memory, layer.code, registers, layer.slots, mode, 0⟩, older⟩ =
      Situation.instances trial
        ⟨⟨memory, [.deallocate, .proceed], registers, slots, mode, 0⟩, layer :: older⟩ := by
  ext an
  constructor
  · rintro ⟨θ, η, first, others, values, said, rest, rfl⟩
    obtain ⟨solution, agrees, meaning⟩ := (Point.says_between rfl).1 said
    obtain ⟨ζ, agrees_left⟩ := slots.exists_agrees θ
    exact ⟨θ, ζ, [], first ++ others, values,
      (Point.says_between rfl).2 ⟨solution, agrees_left, rfl⟩,
      ⟨η, _, first, others, agrees, meaning, rest, rfl⟩, rfl⟩
  · rintro ⟨θ, ζ, first, others, values, said, ⟨η, ρ, tasks, later, agrees, meaning, rest, rfl⟩,
      rfl⟩
    obtain ⟨solution, -, left⟩ := (Point.says_between rfl).1 said
    refine ⟨θ, η, tasks, later, values, (Point.says_between rfl).2 ⟨solution, agrees, ?_⟩, rest, ?_⟩
    · exact meaning.congr disciplined (by simp [Code.Alike])
    · rw [show first = [] from left]
      rfl

/-- A rule is left and the one that waits goes on. -/
theorem advances_proceed (fits : machine.Fits trial view) {rule caller : RuleId}
    {compiled : CompiledRule} {offset bound : Nat} {slots : Bank} {layers : List Layer}
    {success : Bool} (current : view.current = some
      ⟨⟨machine.memory, [.deallocate, .proceed], machine.registers, slots, machine.mode, 0⟩,
        layers⟩)
    (running : machine.status = .running) (formed : machine.memory.heap.Formed trial.admits 0)
    (goes_on : machine.continuation = .goTo caller offset)
    (stack : trial.Stack view.frames machine.memory.heap.size bound rule
      machine.continuation machine.environment layers)
    (ended : Exec.execute context compiled .proceed machine.begun = .ok success later) :
    machine.Advances D trial context view (later.after success) := by
  have left : success = true ∧ later = machine.begun.goingOn (.goTo caller offset) := by
    simp only [Exec.execute, Exec.proceed, bind_apply, get_apply] at ended
    rw [show machine.begun.continuation = .goTo caller offset from goes_on] at ended
    cases ended
    exact ⟨rfl, rfl⟩
  obtain ⟨rfl, rfl⟩ := left
  rw [goes_on] at stack
  obtain ⟨layer, older, compiled, number, frame, rfl, disciplined, inside⟩ := inside_of_stack
    (machine.begun.goingOn (.goTo caller offset)) fits.frames formed stack rfl rfl
  refine advances_of_same current _ (fits.goOn rfl rfl (.refl _) fits.sizes fits.frames
    (.refl _) ?_) rfl
    running (instances_resume disciplined)
  rintro situation ⟨⟩
  exact .inside inside

end Machine
end HornMachine
