import HornMachine.Proofs.Machine.Alike

/-!
# Machines that run alike

Two machines at the same place of a rule that differ only in what is not read run alike: each
instruction gives the same on both, and they call the same goals and find the same solutions. What
matters of the rules that wait are the slots filled by the code before their calls, and going back
to a choice point gives back exactly these. Main statements: `Twins.execute` for one instruction,
`alike_of_backAt` for two machines that go back to calls that were alike, and `twins_fact` and
`twins_clause` for the answers to such calls.
-/

namespace HornMachine

open Code (Disciplined)

/-! ### Twins -/

namespace Machine

/-- Where two machines stand in a rule: before its frame is opened, inside it, or when it was left.
They hold the same in what the code in front reads, and in what the rules that wait read. -/
inductive Situated (program : Program) (compiled : CompiledRule) (machine other : Machine) : Prop
  | entering {live : Set (Nat × Nat)} (start : machine.counter = 0)
    (alike : machine.Alike live {index | index < compiled.head.arity} False other)
    (waits : program.Waiting machine.frames live machine.continuation machine.environment)
  | inside {live : Set (Nat × Nat)} {registers : Set Nat} {building : Bool} {missing number : Nat}
    {frame : Frame} (environment : machine.environment = some number)
    (here : machine.frames[number]? = some frame) (sized : frame.slots.size = compiled.frameSize)
    (disciplined : Disciplined (program.shape fun _ ↦ True) compiled.frameSize
      (compiled.code.toList.drop machine.counter) registers
      (compiled.filledBefore machine.counter) building
      missing)
    (own : compiled.filledBefore machine.counter ⊆ Frame.liveIn live number)
    (alike : machine.Alike live registers (missing ≠ 0) other)
    (waits : program.Waiting machine.frames live frame.continuation frame.previous)
  | leaving {live : Set (Nat × Nat)}
    (facing : compiled.code.toList.drop machine.counter = [.proceed])
    (alike : machine.Alike live ∅ False other)
    (waits : program.Waiting machine.frames live machine.continuation machine.environment)
    (answer : machine.continuation = .halt → other.answer = machine.answer)

/-- Two machines at the same place of the same rule that differ in nothing that is read. -/
structure Twins (program : Program) (machine other : Machine) : Prop where
  place : ∃ rule compiled, machine.rule = some rule ∧ other.rule = some rule ∧
    program.rule? rule = some compiled ∧ machine.Situated program compiled other
  counter : other.counter = machine.counter

variable {program : Program} {context : Context} {compiled : CompiledRule}
    {instruction : Instruction}
  {machine other later later' : Machine}

/-- Both fetch the same instruction. -/
theorem Twins.fetches (twins : Twins program machine other) {context' : Context}
    (same : context.program = program) (same' : context'.program = program)
    (fetches : machine.Fetches context compiled instruction) {compiled' : CompiledRule}
    {instruction' : Instruction} (fetches' : other.Fetches context' compiled' instruction') :
    compiled' = compiled ∧ instruction' = instruction := by
  obtain ⟨rule, own, at_rule, at_rule', found, -⟩ := twins.place
  obtain rfl := fetches.eq_compiled at_rule (same ▸ found)
  obtain rfl := fetches'.eq_compiled at_rule' (same' ▸ found)
  have code := fetches'.code
  rw [twins.counter, fetches.code] at code
  exact ⟨rfl, (Option.some.inj code).symm⟩

/-- A machine with an instruction counted and fetched is the same where it matters. -/
theorem Alike.begun {live : Set (Nat × Nat)} {registers : Set Nat} {tied : Prop}
    (alike : machine.Alike live registers tied other) :
    machine.begun.Along other.begun live registers tied machine.begun other.begun :=
  ⟨⟨alike.memory, alike.environment, alike.continuation, alike.frames, alike.registers, alike.mode⟩,
    .refl _, .refl _⟩

/-- What an instruction that succeeds on both leads to. -/
def Stays (program : Program) (machine other later later' : Machine) : Prop :=
  (Twins program later later' ∧ later.status = machine.status ∧ later'.status = other.status) ∨
    (later.status = .succeeded ∧ later'.status = .succeeded ∧ later'.pending = later.pending)

/-- Rules that wait go on alike. -/
theorem Alike.goingOn {live : Set (Nat × Nat)} {registers : Set Nat} {tied : Prop}
    (alike : machine.Alike live registers tied other) {caller : RuleId} {offset : Nat}
    (waits : program.Waiting machine.frames live (.goTo caller offset) machine.environment) :
    Twins program (machine.goingOn (.goTo caller offset))
      (other.goingOn (.goTo caller offset)) := by
  generalize environment : machine.environment = current at waits
  cases waits with
  | goTo found here sized disciplined read below =>
    exact ⟨⟨caller, _, rfl, rfl, found, .inside environment here sized disciplined read
      ⟨alike.memory, alike.environment, alike.continuation, alike.frames, nofun, by simp⟩ below⟩,
        rfl⟩

section Steps

variable {rule : RuleId} {success success' : Bool} (at_rule : machine.rule = some rule)
  (at_rule' : other.rule = some rule) (found : program.rule? rule = some compiled)
  (counter : other.counter = machine.counter)

include at_rule at_rule' found counter

/-- Inside a rule. -/
theorem stays_inside {live : Set (Nat × Nat)} {slots registers : Set Nat} {tied : Prop}
    {number : Nat}
    {frame : Frame} {run : Exec Bool} (environment : machine.environment = some number)
    (here : machine.frames[number]? = some frame) (sized : frame.slots.size = compiled.frameSize)
    (alike : machine.Alike live registers tied other)
    (waits : program.Waiting machine.frames live frame.continuation frame.previous)
    (filled : slots = compiled.filledBefore (machine.counter + 1))
    (continues : Exec.Continues machine.begun other.begun number (program.shape fun _ ↦ True)
      compiled.frameSize (compiled.code.toList.drop (machine.counter + 1)) live slots
      (machine.begun.Along other.begun live registers tied) run)
    (ended : run machine.begun = .ok success later)
    (ended' : run other.begun = .ok success' later') :
    success' = success ∧ (success = true → Stays program machine other later later') := by
  obtain ⟨more, kept, built, left, own, larger, disciplined, parallel⟩ := continues
  obtain ⟨same, along⟩ := parallel alike.begun ended ended'
  refine ⟨same, fun found_success ↦ ?_⟩
  have along := along found_success
  have counted : later.counter = machine.counter + 1 := along.left.field Machine.counter
  obtain ⟨slots_later, size, there⟩ := along.left.shaped.frame number frame here
  subst filled
  rw [← counted] at disciplined own
  exact .inl ⟨⟨⟨rule, compiled, (along.left.field Machine.rule).trans at_rule,
      (along.right.field Machine.rule).trans at_rule', found,
      .inside ((along.left.field Machine.environment).trans environment) there
        (size.trans sized) disciplined own
        along.toAlike (waits.congr along.left.shaped larger)⟩,
    (along.right.field Machine.counter).trans ((congrArg (· + 1) counter).trans counted.symm)⟩,
    along.left.field Machine.status, along.right.field Machine.status⟩

/-- A frame is opened. -/
theorem stays_allocate (lawful : program.Lawful fun _ ↦ True) {live : Set (Nat × Nat)} {size : Nat}
    (start : machine.counter = 0) (here : compiled.code[machine.counter]? = some (.allocate size))
    (alike : machine.Alike live {index | index < compiled.head.arity} False other)
    (waits : program.Waiting machine.frames live machine.continuation machine.environment)
    (ended : Exec.execute context compiled (.allocate size) machine.begun = .ok success later)
    (ended' : Exec.execute context compiled (.allocate size) other.begun = .ok success' later') :
    success' = success ∧ (success = true → Stays program machine other later later') := by
  cases ended
  cases ended'
  refine ⟨rfl, fun _ ↦ .inl ⟨⟨⟨rule, compiled, at_rule, at_rule', found, ?_⟩,
    congrArg (· + 1) counter⟩, rfl, rfl⟩⟩
  have facing := drop_eq_cons here
  rw [start, List.drop_zero] at facing
  obtain ⟨same, body⟩ := List.cons.inj ((lawful.opens found).symm.trans facing)
  cases same
  have none_filled : compiled.filledBefore (machine.counter + 1) = ∅ := by
    rw [CompiledRule.filledBefore_succ here, start]
    simp [Instruction.slot?, CompiledRule.filledBefore]
  have disciplined := lawful.disciplined found
  rw [body, ← start, ← none_filled] at disciplined
  refine .inside rfl Array.getElem?_push_size (by simp) disciplined ?_ ⟨alike.memory, ?_,
    alike.continuation, ?_, alike.registers, fun arguments ↦ absurd start arguments⟩ (waits.push _)
  · exact none_filled ▸ Set.empty_subset _
  · exact congrArg some alike.frames.size
  · change Frame.Matches live (machine.frames.push _)
      (other.frames.push ⟨_, other.continuation, other.environment⟩)
    rw [alike.continuation, alike.environment]
    exact alike.frames.push _

/-- A frame is left. -/
theorem stays_deallocate {live : Set (Nat × Nat)} {registers : Set Nat} {tied : Prop} {number : Nat}
    {frame : Frame} (environment : machine.environment = some number)
    (here : machine.frames[number]? = some frame) (sized : frame.slots.size = compiled.frameSize)
    (facing : compiled.code.toList.drop (machine.counter + 1) = [.proceed])
    (full : ∀ index < compiled.frameSize, (number, index) ∈ live)
    (alike : machine.Alike live registers tied other)
    (waits : program.Waiting machine.frames live frame.continuation frame.previous)
    (ended : Exec.execute context compiled .deallocate machine.begun = .ok success later)
    (ended' : Exec.execute context compiled .deallocate other.begun = .ok success' later') :
    success' = success ∧ (success = true → Stays program machine other later later') := by
  obtain ⟨⟨at_number, current⟩, _, first, second⟩ := bind_eq_ok.1 ended
  obtain ⟨⟨at_number', current'⟩, _, first', second'⟩ := bind_eq_ok.1 ended'
  obtain ⟨at_environment, at_frame, rfl⟩ := Exec.frame_eq_ok.1 first
  obtain ⟨at_environment', at_frame', rfl⟩ := Exec.frame_eq_ok.1 first'
  cases environment.symm.trans at_environment
  cases (alike.environment.trans environment).symm.trans at_environment'
  cases here.symm.trans at_frame
  obtain ⟨slots, size, there⟩ := alike.frames.frame number frame here
  cases there.symm.trans at_frame'
  cases second
  cases second'
  refine ⟨rfl, fun _ ↦ .inl ⟨⟨⟨rule, compiled, at_rule, at_rule', found, .leaving facing
    ⟨alike.memory, rfl, rfl, alike.frames, nofun, False.elim⟩ waits fun halts ↦ ?_⟩,
    congrArg (· + 1) counter⟩, rfl, rfl⟩⟩
  have same : slots = frame.slots := by
    refine Array.ext_getElem? fun index ↦ ?_
    by_cases lower : index < compiled.frameSize
    · simpa [Frame.slotAt, here, there] using alike.frames.slots number index (full index lower)
    · rw [Array.getElem?_eq_none (by omega), Array.getElem?_eq_none (by omega)]
  have halts : frame.continuation = .halt := halts
  simp only [halts, if_true, same]

end Steps

/-- A solution is read from the heap and the slots of the rule attempted. -/
theorem solution_eq_of_capture {entry : Entry} {solution solution' : Solution}
    (at_entry : machine.entry = some entry) (at_entry' : other.entry = some entry)
    (memory : other.memory = machine.memory) (answer : other.answer = machine.answer)
    (captured : Exec.capture compiled machine = .ok solution later)
    (captured' : Exec.capture compiled other = .ok solution' later') : solution' = solution := by
  obtain ⟨args, names, read, bound, rule, head, -⟩ := Exec.capture_eq_ok at_entry captured
  obtain ⟨args', names', read', bound', rule', head', -⟩ := Exec.capture_eq_ok at_entry' captured'
  rw [memory, read] at read'
  cases read'
  rw [memory, answer, bound] at bound'
  cases solution
  cases solution'
  simp_all

/-- A rule that was left goes on after its call, or it has a solution. -/
theorem stays_proceed {live : Set (Nat × Nat)} {entry : Entry} {success success' : Bool}
    (at_entry : machine.entry = some entry) (at_entry' : other.entry = some entry)
    (alike : machine.Alike live ∅ False other)
    (waits : program.Waiting machine.frames live machine.continuation machine.environment)
    (answer : machine.continuation = .halt → other.answer = machine.answer)
    (ended : Exec.execute context compiled .proceed machine.begun = .ok success later)
    (ended' : Exec.execute context compiled .proceed other.begun = .ok success' later') :
    success' = success ∧ (success = true → Stays program machine other later later') := by
  simp only [Exec.execute, Exec.proceed, bind_apply, get_apply] at ended ended'
  rw [show other.begun.continuation = machine.begun.continuation from alike.continuation] at ended'
  cases goes_on : machine.begun.continuation with
  | goTo caller offset =>
    rw [goes_on] at ended ended'
    cases ended
    cases ended'
    have goes_on : machine.continuation = .goTo caller offset := goes_on
    exact ⟨rfl, fun _ ↦ .inl ⟨alike.begun.goingOn (goes_on ▸ waits), rfl, rfl⟩⟩
  | halt =>
    rw [goes_on] at ended ended'
    simp only [bind_apply] at ended ended'
    cases captured : Exec.capture compiled machine.begun with
    | error fault last => simp [captured] at ended
    | ok solution last =>
      cases captured' : Exec.capture compiled other.begun with
      | error fault last => simp [captured'] at ended'
      | ok solution' last' =>
        simp only [captured, captured', modify_apply, pure_apply, EStateM.Result.ok.injEq]
          at ended ended'
        obtain ⟨rfl, rfl⟩ := ended
        obtain ⟨rfl, rfl⟩ := ended'
        have at_entry : machine.begun.entry = some entry := at_entry
        have at_entry' : other.begun.entry = some entry := at_entry'
        have same :=
          solution_eq_of_capture at_entry at_entry' alike.memory (answer goes_on) captured captured'
        exact ⟨rfl, fun _ ↦ .inr ⟨rfl, rfl, congrArg some same⟩⟩

/-- An instruction that calls no predicate does the same on twins: it fails on both, leads both on,
or finds the same solution. -/
theorem Twins.execute (twins : Twins program machine other) (lawful : program.Lawful fun _ ↦ True)
    (same : context.program = program) {entry : Entry} (at_entry : machine.entry = some entry)
    (at_entry' : other.entry = some entry) (fetches : machine.Fetches context compiled instruction)
    (silent : ∀ goal, instruction ≠ .call (.predicate goal)) {success success' : Bool}
    (ended : Exec.execute context compiled instruction machine.begun = .ok success later)
    (ended' : Exec.execute context compiled instruction other.begun = .ok success' later') :
    success' = success ∧ (success = true → Stays program machine other later later') := by
  obtain ⟨⟨rule, own, at_rule, at_rule', found, situated⟩, counter⟩ := twins
  obtain rfl := fetches.eq_compiled at_rule (same ▸ found)
  have here := fetches.code
  cases situated with
  | entering start alike waits =>
    obtain rfl := lawful.eq_allocate found start here
    exact stays_allocate at_rule at_rule' found counter lawful start here alike waits ended ended'
  | inside environment in_frame sized disciplined filled alike waits =>
    rw [drop_eq_cons here] at disciplined
    have slots := (CompiledRule.filledBefore_succ here).symm
    have at_begun : machine.begun.environment = some _ := environment
    by_cases straight : Exec.Straight instruction
    · exact stays_inside at_rule at_rule' found counter environment in_frame sized alike waits slots
        (Exec.continues_execute at_begun filled straight disciplined) ended ended'
    · cases instruction with
      | deallocate =>
        obtain ⟨-, full, facing⟩ := disciplined
        exact stays_deallocate at_rule at_rule' found counter environment in_frame sized facing
          (fun index lower ↦ filled (full index lower)) alike waits ended ended'
      | fail =>
        cases ended
        cases ended'
        exact ⟨rfl, nofun⟩
      | call target =>
        cases target with
        | builtin =>
          exact stays_inside at_rule at_rule' found counter environment in_frame sized
            alike waits slots
            (Exec.continues_builtin filled disciplined) ended ended'
        | predicate goal => exact absurd rfl (silent goal)
      | allocate | proceed => exact disciplined.elim
      | _ => exact absurd trivial straight
  | leaving facing alike waits answer =>
    rw [drop_eq_cons here] at facing
    cases (List.cons.inj facing).1
    exact stays_proceed at_entry at_entry' alike waits answer ended ended'

/-! ### Calls -/

/-- Two machines that make the same call, alike in what is read of its arguments and after it. -/
structure Call (program : Program) (goal : Functor) (live : Set (Nat × Nat))
    (origin twin : Machine) :
    Prop where
  alike : origin.Alike live {index | index < goal.arity} False twin
  rule : twin.rule = origin.rule
  offset : twin.offset = origin.offset
  waits : ∀ rule, origin.rule = some rule →
    program.Waiting origin.frames live (.goTo rule (origin.offset + 1)) origin.environment

/-- Twins make the same calls. -/
theorem Twins.call (twins : Twins program machine other) (lawful : program.Lawful fun _ ↦ True)
    (same : context.program = program) {goal : Functor}
    (fetches : machine.Fetches context compiled (.call (.predicate goal))) :
    ∃ live, Call program goal live machine.begun other.begun := by
  obtain ⟨⟨rule, own, at_rule, at_rule', found, situated⟩, counter⟩ := twins
  obtain rfl := fetches.eq_compiled at_rule (same ▸ found)
  have here := fetches.code
  cases situated with
  | entering start => exact nomatch lawful.eq_allocate found start here
  | leaving facing =>
    rw [drop_eq_cons here] at facing
    cases (List.cons.inj facing).1
  | @inside live registers building missing number frame environment in_frame sized disciplined
    filled alike waits =>
    rw [drop_eq_cons here] at disciplined
    obtain ⟨-, read, -, disciplined⟩ := disciplined
    have still : compiled.filledBefore (machine.counter + 1) =
      compiled.filledBefore machine.counter := by
      rw [CompiledRule.filledBefore_succ here]
      simp [Instruction.slot?]
    refine ⟨live, ⟨alike.memory, alike.environment, alike.continuation, alike.frames,
      fun index lower ↦ alike.registers index (read index lower), False.elim⟩,
        at_rule'.trans at_rule.symm,
      counter, fun called running ↦ ?_⟩
    cases at_rule.symm.trans running
    rw [show machine.begun.environment = some number from environment]
    exact .goTo found in_frame sized (still.symm ▸ disciplined) (still.symm ▸ filled) waits

/-- The rules that wait are the same where frames differ in slots only. -/
theorem awaits_congr {frames later : Array Frame} {continuation : Continuation}
    {environment : Option Nat} {rule : RuleId} {offset number : Nat}
    (awaits : Frame.Awaits frames continuation environment rule offset number)
    (shaped : Frame.Shaped frames later) :
    Frame.Awaits later continuation environment rule offset number := by
  induction awaits with
  | caller => exact .caller
  | above here _ ih =>
    obtain ⟨slots, -, there⟩ := shaped.frame _ _ here
    exact .above there ih

section Back

variable {origin twin : Machine} {choice : Choice} {live : Set (Nat × Nat)}

theorem BackAt.shaped (back : BackAt program origin choice machine) :
    Frame.Shaped origin.frames machine.frames := ⟨back.size, back.frames⟩

/-- A slot that a rule that waits reads holds what it held. -/
theorem BackAt.slotAt (back : BackAt program origin choice machine) {rule : RuleId}
    {offset number slot : Nat}
    (awaits : Frame.Awaits origin.frames machine.continuation machine.environment rule
      offset number)
    (found : program.rule? rule = some compiled) (filled : slot ∈ compiled.filledBefore offset) :
    Frame.slotAt machine.frames number slot = Frame.slotAt origin.frames number slot := by
  obtain ⟨index, lower, instruction, member, slot_filled⟩ := filled
  obtain ⟨address, before, now, at_origin, at_machine, held, holds⟩ :=
    back.slots awaits found index lower instruction member slot slot_filled
  simp [Frame.slotAt, at_origin, at_machine, held, holds]

/-- Machines that go back to calls that were alike are alike. -/
theorem alike_of_backAt {choice' : Choice} (goal : choice'.goal = choice.goal)
    (call : Call program choice.goal live origin twin) (back : BackAt program origin choice machine)
    (back' : BackAt program twin choice' other) :
    ∃ less, machine.Alike less {index | index < choice.goal.arity} False other ∧
      program.Waiting machine.frames less machine.continuation machine.environment := by
  obtain ⟨rule, own, at_rule, -, -, continuation⟩ := back.continuation
  obtain ⟨rule', own', at_rule', -, -, continuation'⟩ := back'.continuation
  rw [call.rule, at_rule] at at_rule'
  cases at_rule'
  have same_continuation : other.continuation = machine.continuation := by
    rw [continuation', continuation, call.offset]
  have same_environment : other.environment = machine.environment := by
    rw [back'.environment, back.environment, call.alike.environment]
  have waits := call.waits rule at_rule
  rw [← continuation, ← back.environment] at waits
  refine ⟨{pair | ∃ rule offset compiled,
      Frame.Awaits origin.frames machine.continuation machine.environment rule offset pair.1 ∧
      program.rule? rule = some compiled ∧ pair.2 ∈ compiled.filledBefore offset},
    ⟨?_, same_environment, same_continuation, ⟨?_, ?_⟩, fun index lower ↦ ?_, False.elim⟩,
    waits.restrict back.shaped fun rule offset number compiled awaits found slot filled ↦
      ⟨rule, offset, compiled, awaits, found, filled⟩⟩
  · rw [back'.memory, back.memory, call.alike.memory]
  · exact (back.shaped.symm.trans call.alike.frames.toShaped).trans back'.shaped
  · rintro number slot ⟨rule, offset, compiled, awaits, found, filled⟩
    have awaits' := awaits_congr awaits call.alike.frames.toShaped
    rw [← same_continuation, ← same_environment] at awaits'
    rw [back'.slotAt awaits' found filled, back.slotAt awaits found filled]
    exact call.alike.frames.slots number slot (waits.mem_live awaits found filled)
  · rw [back'.arguments index (goal ▸ lower), back.arguments index lower]
    exact call.alike.registers index lower

end Back

/-! ### Answers -/

section Answers

variable {goal : Functor} {live : Set (Nat × Nat)}

/-- With a fact as the answer both callers go on, or on both it is no answer. -/
theorem twins_fact (alike : machine.Alike live {index | index < goal.arity} False other)
    (waits : program.Waiting machine.frames live machine.continuation machine.environment)
    {caller : RuleId}
    {offset : Nat} (continuation : machine.continuation = .goTo caller offset) {check : OccursCheck}
    {fact : Fact} {success success' : Bool} {memory memory' : Memory}
    (unified : Exec.unifyFact check goal fact machine = .ok success { machine with memory })
    (unified' : Exec.unifyFact check goal fact other =
      .ok success' { other with memory := memory' }) :
    success' = success ∧ Twins program (goingOn { machine with memory } (.goTo caller offset))
      (goingOn { other with memory := memory' } (.goTo caller offset)) := by
  have begins : machine.Along other live {index | index < goal.arity} False machine other :=
    ⟨alike, .refl _, .refl _⟩
  obtain ⟨same, along⟩ := Exec.parallel_unifyFact check goal fact begins unified unified'
  exact ⟨same, along.toAlike.goingOn (continuation ▸ waits)⟩

/-- A clause is entered on both. -/
theorem twins_clause (alike : machine.Alike live {index | index < goal.arity} False other)
    (waits : program.Waiting machine.frames live machine.continuation machine.environment)
    {rule : RuleId} (found : program.rule? rule = some compiled) (head : compiled.head = goal)
    (choices choices' : List Choice) :
    Twins program { machine with choices, rule := some rule, counter := 0 }
      { other with choices := choices', rule := some rule, counter := 0 } := by
  subst head
  exact ⟨⟨rule, compiled, rfl, rfl, found, .entering rfl ⟨alike.memory, alike.environment,
    alike.continuation, alike.frames, alike.registers, alike.mode⟩ waits⟩, rfl⟩

end Answers

end Machine
end HornMachine
