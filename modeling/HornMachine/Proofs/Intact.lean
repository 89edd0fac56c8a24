import HornMachine.Proofs.Code.WellFormed
import HornMachine.Proofs.Machine.Termination
import HornMachine.Proofs.Machine.Writes

/-!
# The memory stays intact

A structure is begun by one instruction, and the instructions that follow it in the code add its
arguments. So at any moment at most one structure, the last one on the heap, misses arguments, and
only while the machine runs these instructions. A choice point is never pushed in between, so that
going back to one leaves no structure that misses arguments. Main statement: in every state of a
session and at every moment of an attempt the memory is intact, and it is when the machine goes back
to any of its choice points (`memory_intact`).
-/

namespace HornMachine

open Relation (ReflTransGen)

/-! ### What is stated -/

/-- A structure at the end of the heap some of whose arguments are not there yet. -/
structure Gap where
  header : Address
  functor : Functor
  added : Nat

/-- In a rule's code, the instruction at an offset begins a structure, and those for its arguments
follow. -/
def CompiledRule.Builds (compiled : CompiledRule) (offset : Nat) (functor : Functor) : Prop :=
  ∃ instruction kind arg, compiled.code[offset]? = some instruction ∧
    (instruction = .getStructure functor arg ∨ instruction = .putStructure functor arg) ∧
    instruction.arguments? = some (functor.arity, kind) ∧
    ∀ index < functor.arity, ∃ next, compiled.code[offset + 1 + index]? = some next ∧
      kind next = true

/-- The machine has begun a structure, and the next instruction is for the first argument that is
missing. -/
structure Machine.Adding (program : Program) (machine : Machine) (gap : Gap) : Prop where
  mode : machine.mode = .write
  fewer : gap.added < gap.functor.arity
  header : machine.memory.heap.cells[gap.header]? = some (.functor gap.functor)
  /-- Nothing comes after the arguments that are there. -/
  size : machine.memory.heap.size = gap.header + 1 + gap.added
  code : ∃ rule compiled offset, machine.rule = some rule ∧ program.rule? rule = some compiled ∧
    compiled.Builds offset gap.functor ∧ machine.counter = offset + 1 + gap.added

/-- A memory that is well formed, but for the arguments that are missing in a gap. -/
structure Memory.Intact (memory : Memory) (gap : Option Gap) : Prop where
  ref : ∀ address target : Nat, memory.heap.cells[address]? = some (.ref target) →
    target < memory.heap.size
  ends : ∀ address : Nat, address < memory.heap.size →
    ∃ found cell, memory.heap.deref address = .ok found ∧
    ReflTransGen (fun one next ↦ memory.heap.Refers next one) address found ∧
    memory.heap.cells[found]? = some cell ∧ ∀ target, cell = .ref target → target = found
  str : ∀ address header : Nat, memory.heap.cells[address]? = some (.str header) →
    ∃ functor, memory.heap.cells[header]? = some (.functor functor) ∧ ∀ index < functor.arity,
      (∃ cell, memory.heap.cells[Heap.argument header index]? = some cell ∧ cell.Plain) ∨
      ∃ one ∈ gap, one.header = header ∧ one.functor = functor ∧ one.added ≤ index
  bound : ∀ address ∈ memory.trail, ∃ target, memory.heap.Refers target address
  once : memory.trail.toList.Nodup

/-- The machine's memory is intact, and what is missing in a gap the machine is about to add. -/
def Machine.Intact (program : Program) (machine : Machine) : Prop :=
  ∃ gap, machine.memory.Intact gap ∧ ∀ one ∈ gap, machine.Adding program one

/-! ### The invariant -/

/-- References are followed along bound variables. -/
theorem Heap.path_derefWithin {heap : Heap} {steps : Nat} {address found : Address}
    (followed : heap.derefWithin steps address = .ok found) :
    ReflTransGen (fun one next ↦ heap.Refers next one) address found := by
  induction steps generalizing address with
  | zero => cases followed
  | succ steps ih =>
    rw [derefWithin] at followed
    obtain ⟨cell, here, rest⟩ := Except.bind_eq_ok.1 followed
    cases cell with
    | ref target =>
      by_cases own : target = address
      · simp only [own, if_true] at rest
        cases rest
        exact .refl
      · simp only [own, if_false] at rest
        exact .head ⟨cell_eq_ok_iff.1 here, own⟩ (ih rest)
    | str | functor | atom | num =>
      cases rest
      exact .refl

private theorem Memory.Clean.intact {memory : Memory} (clean : memory.Clean) {gap : Option Gap}
    (filled : ∀ (header : Nat) (functor : Functor),
      memory.heap.cells[header]? = some (.functor functor) →
      header + functor.arity < memory.heap.size ∨
      ∃ one ∈ gap, one.header = header ∧ one.functor = functor ∧
      memory.heap.size = header + 1 + one.added) :
    memory.Intact gap := by
  obtain ⟨missing, formed⟩ := clean.formed
  refine ⟨formed.ref, fun address inside ↦ ?_, fun address header here ↦ ?_,
    clean.bound, clean.once⟩
  · obtain ⟨found, followed⟩ := formed.exists_derefWithin inside
    obtain ⟨⟨cell, at_found, last⟩, -⟩ := Heap.derefWithin_ok followed
    exact ⟨found, cell, Heap.Formed.derefWithin_succ followed, Heap.path_derefWithin followed,
      at_found, last⟩
  · obtain ⟨functor, at_header⟩ := formed.str address header here
    refine ⟨functor, at_header, fun index lower ↦ ?_⟩
    by_cases inside : Heap.argument header index < memory.heap.size
    · have there := Array.getElem?_eq_getElem inside
      exact .inl ⟨_, there, clean.laid header functor index _ at_header lower there⟩
    · have outside : memory.heap.size ≤ header + 1 + index := Nat.le_of_not_lt inside
      obtain bound | ⟨one, member, same, kind, size⟩ := filled header functor at_header
      · omega
      · exact .inr ⟨one, member, same, kind, by omega⟩

namespace Machine

/-- No structure misses arguments, or one does and the machine is adding them. -/
inductive Neat (program : Program) (machine : Machine) : Prop
  | whole (whole : machine.memory.Whole)
  | adding {gap : Gap} (clean : machine.memory.Clean) (adding : machine.Adding program gap)
    (others : machine.memory.heap.FilledBut gap.header)

variable {program : Program} {machine later : Machine} {context : Context} {compiled : CompiledRule}
  {instruction : Instruction}

private theorem Neat.intact (neat : machine.Neat program) : machine.Intact program := by
  cases neat with
  | whole whole =>
    exact ⟨none, whole.toClean.intact fun header functor here ↦
      .inl (whole.filled header functor here), nofun⟩
  | @adding gap clean adding others =>
    refine ⟨some gap, clean.intact fun header functor here ↦ ?_, ?_⟩
    · by_cases own : header = gap.header
      · subst own
        cases adding.header.symm.trans here
        exact .inr ⟨gap, rfl, rfl, rfl, adding.size⟩
      · exact .inl (others header functor here own)
    · rintro _ ⟨⟩
      exact adding

/-- Neatness is about the memory and about where the machine stands in the code. -/
theorem Neat.congr (neat : machine.Neat program) (memory : later.memory = machine.memory)
    (rule : later.rule = machine.rule) (counter : later.counter = machine.counter)
    (mode : later.mode = machine.mode) : later.Neat program := by
  cases neat with
  | whole whole => exact .whole (memory ▸ whole)
  | adding clean adding others =>
    refine .adding (memory ▸ clean) ⟨mode.trans adding.mode, adding.fewer, ?_, ?_, ?_⟩
      (memory ▸ others)
    · rw [memory]
      exact adding.header
    · rw [memory]
      exact adding.size
    · rw [rule, counter]
      exact adding.code

/-- While arguments are added, the next instruction is for one. -/
theorem Adding.isArgument {gap : Gap} (adding : machine.Adding program gap)
    (same : context.program = program)
    (fetches : machine.Fetches context compiled instruction) : instruction.isArgument = true := by
  obtain ⟨rule, found, offset, at_rule, listed, ⟨first, kind, arg, -, -, begins, follow⟩,
    counter⟩ := adding.code
  obtain rfl := fetches.eq_compiled at_rule (same ▸ listed)
  obtain ⟨next, there, taken⟩ := follow gap.added adding.fewer
  have here := fetches.code
  rw [counter, there] at here
  cases here
  exact Instruction.isArgument_of_arguments? begins taken

/-- Before any other instruction no structure misses arguments. -/
theorem Neat.whole_of_fetches (neat : machine.Neat program) (same : context.program = program)
    (fetches : machine.Fetches context compiled instruction)
    (other : instruction.isArgument = false) :
    machine.memory.Whole := by
  cases neat with
  | whole whole => exact whole
  | adding clean adding others =>
    rw [adding.isArgument same fetches] at other
    cases other

end Machine

/-! ### Instructions -/

/-- In compiled code, structures are followed by their arguments. -/
theorem Program.Built.complete {allowed : Rule → Prop} {program : Program}
    (built : program.Built allowed)
    {rule : RuleId} {compiled : CompiledRule} (found : program.rule? rule = some compiled) :
    Code.Complete compiled.code.toList := by
  obtain ⟨signatures, -, -, tried⟩ := built.tryCompile found
  obtain ⟨head, goals, -, -, -, same⟩ := Rule.tryCompile_eq_ok tried
  rw [same]
  exact Rule.complete_emit _ goals

/-- The instructions for its arguments follow one that begins a structure. -/
theorem CompiledRule.builds_of_complete {compiled : CompiledRule}
    (complete : Code.Complete compiled.code.toList)
    {offset arg : Nat} {functor : Functor} {instruction : Instruction} {kind : Instruction → Bool}
    (here : compiled.code[offset]? = some instruction)
    (shape : instruction = .getStructure functor arg ∨ instruction = .putStructure functor arg)
    (begins : instruction.arguments? = some (functor.arity, kind)) :
    compiled.Builds offset functor := by
  refine ⟨instruction, kind, arg, here, shape, begins, fun index lower ↦ ?_⟩
  have split : compiled.code.toList = compiled.code.toList.take offset ++
      instruction :: compiled.code.toList.drop (offset + 1) := by
    rw [← Machine.drop_eq_cons here, List.take_append_drop]
  obtain ⟨count, taken⟩ := complete.arguments split begins
  rw [← count] at lower
  refine ⟨_, ?_, taken _ (List.getElem_mem lower)⟩
  have ahead := List.prefix_iff_getElem?.1
    (List.takeWhile_prefix Instruction.isArgument (l := compiled.code.toList.drop (offset + 1)))
      index lower
  rwa [List.getElem?_drop, Array.getElem?_toList] at ahead

namespace Machine

variable {program : Program} {machine later : Machine} {context : Context} {compiled : CompiledRule}
  {instruction : Instruction} {success : Bool}

/-- One more argument was added. -/
theorem Neat.of_adds {gap : Gap} (adding : machine.Adding program gap)
    (others : machine.memory.heap.FilledBut gap.header)
    (clean : later.memory.Clean) (adds : machine.begun.Adds later)
    (writes : machine.memory.Writes later.memory) : later.Neat program := by
  have size : later.memory.heap.size = machine.memory.heap.size + 1 := by
    obtain ⟨cell, registers, frames, rfl⟩ := adds
    exact Heap.size_push _ cell
  have before := adding.size
  have at_header := writes.functor_iff.2 adding.header
  by_cases more : gap.added + 1 < gap.functor.arity
  · have going_on : later.Adding program ⟨gap.header, gap.functor, gap.added + 1⟩ := by
      refine ⟨?_, more, at_header, ?_, ?_⟩
      · obtain ⟨cell, registers, frames, rfl⟩ := adds
        exact adding.mode
      · rw [size, before, Nat.add_assoc]
      · obtain ⟨rule, compiled, offset, at_rule, listed, builds, counter⟩ := adding.code
        obtain ⟨cell, registers, frames, rfl⟩ := adds
        exact ⟨rule, compiled, offset, at_rule, listed, builds, congrArg (· + 1) counter⟩
    exact .adding clean going_on (writes.filledBut others)
  · exact .whole ⟨clean, (writes.filledBut others).filled at_header (by omega)⟩

/-- A structure was begun. -/
theorem Neat.of_begins (whole : machine.memory.Whole) {functor : Functor}
    (begins : machine.begun.Begins functor later) {rule : RuleId}
    (at_rule : machine.rule = some rule) (listed : program.rule? rule = some compiled)
    (builds : compiled.Builds machine.counter functor) :
    later.Neat program := by
  obtain ⟨memory, registers, rfl, writes, size⟩ := begins
  have clean := writes.clean (whole.toClean.pushStructure whole.filled functor)
  have others : memory.heap.FilledBut (machine.memory.heap.size + 1) :=
    writes.filledBut (whole.filled.pushStructure functor)
  have at_header : memory.heap.cells[machine.memory.heap.size + 1]? = some (.functor functor) := by
    refine writes.functor_iff.2 ?_
    exact (Heap.getElem?_pushStructure _ functor _).trans (if_pos rfl)
  by_cases none_args : functor.arity = 0
  · have enough : machine.memory.heap.size + 1 + functor.arity < memory.heap.size := by
      rw [none_args, size]
      exact Nat.lt_succ_self _
    exact .whole ⟨clean, others.filled at_header enough⟩
  · have going_on : Adding program { machine.begun with memory, registers, mode := .write }
        ⟨machine.memory.heap.size + 1, functor, 0⟩ :=
      ⟨rfl, Nat.pos_of_ne_zero none_args, at_header, size, rule, compiled, machine.counter,
        at_rule, listed, builds, rfl⟩
    exact .adding clean going_on others

/-- An instruction that calls no predicate keeps a machine neat. -/
theorem Neat.execute {allowed : Rule → Prop} (built : program.Built allowed)
    (neat : machine.Neat program)
    (same : context.program = program) (fetches : machine.Fetches context compiled instruction)
    (silent : ∀ goal, instruction ≠ .call (.predicate goal))
    (inside : ∀ (place : Place) (address : Nat), instruction.Adds machine.begun.mode place →
      Exec.load place machine.begun = .ok address machine.begun →
        address < machine.begun.memory.heap.size)
    (ended : Exec.execute context compiled instruction machine.begun = .ok success later) :
    (later.after success).Neat program := by
  have after : (later.after success).memory = later.memory := by cases success <;> rfl
  cases neat with
  | adding clean adding others =>
    -- only the instruction for the next argument can come here, and it adds it
    have argument := adding.isArgument same fetches
    have writes := (Exec.writes_execute (Instruction.arguments?_of_isArgument argument) silent
      inside).ok _ _ ended
    obtain ⟨rfl, adds⟩ :=
      Exec.adds_execute argument (show machine.begun.mode = _ from adding.mode) ended
    exact .of_adds adding others (Memory.Writes.clean writes clean) adds writes
  | whole whole =>
    have still (unchanged : later.memory = machine.memory) : (later.after success).Neat program :=
      .whole (after ▸ unchanged ▸ whole)
    have started {functor : Functor} {arg : Nat} {kind : Instruction → Bool}
        (begins : machine.begun.Begins functor later)
        (shape : instruction = .getStructure functor arg ∨ instruction = .putStructure functor arg)
        (count : instruction.arguments? = some (functor.arity, kind)) : later.Neat program := by
      obtain ⟨⟨rule, at_rule, listed⟩, here⟩ := fetches
      rw [same] at listed
      exact .of_begins whole begins at_rule listed
        (CompiledRule.builds_of_complete (built.complete listed) here shape count)
    cases instruction with
    | getStructure functor arg =>
      obtain unchanged | ⟨rfl, begins⟩ := Exec.begins_getStructure ended
      · exact still unchanged
      · exact started begins (.inl rfl) rfl
    | putStructure functor arg =>
      obtain ⟨rfl, begins⟩ := Exec.begins_putStructure ended
      exact started begins (.inr rfl) rfl
    | _ =>
      have writes := (Exec.writes_execute rfl silent inside).ok _ _ ended
      exact .whole (after ▸ Memory.Writes.whole writes whole)

end Machine

/-! ### Passes -/

namespace Machine

variable {machine : Machine} {trial : Trial} {view : View} {context : Context}
    {situation : Situation}
  {compiled : CompiledRule} {instruction : Instruction}

/-- What an instruction adds references to is on the heap. -/
theorem Fits.lt_of_adds (fits : machine.Fits trial view) (runs : trial.Runs context)
    (current : view.current = some situation)
    (fetches : machine.Fetches context compiled instruction)
    (place : Place) (address : Nat) (adds : instruction.Adds machine.begun.mode place)
    (loaded : Exec.load place machine.begun = .ok address machine.begun) :
    address < machine.begun.memory.heap.size := by
  obtain ⟨rule, number, frame, inside⟩ := fits.exists_inside runs current fetches
    (fun size same ↦ by rw [same] at adds; exact adds) fun same ↦ by rw [same] at adds; exact adds
  obtain ⟨registers, building, valid⟩ := inside.valid
  have disciplined := valid.disciplined
  rw [inside.front fetches.code] at disciplined
  have memory := inside.shows.begun.memory
  cases instruction with
  | unifyValue other =>
    obtain ⟨-, rfl⟩ := adds
    obtain ⟨-, rest, missing, filled, -⟩ := disciplined
    exact memory ▸ (Exec.lt_of_load inside.shows.begun valid filled loaded).2
  | setValue other =>
    obtain rfl := adds
    obtain ⟨-, rest, missing, filled, -⟩ := disciplined
    exact memory ▸ (Exec.lt_of_load inside.shows.begun valid filled loaded).2
  | _ => exact adds.elim

end Machine

/-- Reading the goal of a call leaves the memory alone. -/
theorem Exec.whole_pushCall (goal : Functor) :
    Preserves (fun machine ↦ machine.memory.Whole) (Exec.pushCall goal) := by
  refine preserves_bind (preserves_modify fun _ whole ↦ whole) fun _ ↦
    preserves_get_bind fun machine _ ↦ ?_
  split
  · exact preserves_throw _
  · dsimp only
    split
    · exact preserves_throw_bind _ _
    · exact preserves_bind (preserves_pattern _ _) fun _ ↦ preserves_modify fun _ whole ↦ whole

namespace Moment

variable {program : Program} {moment later : Moment} {context : Context}

/-- A moment with a neat machine, at which the machines that pushed the choice points have no
structures that miss arguments. -/
structure Neat (program : Program) (moment : Moment) : Prop where
  machine : moment.machine.Neat program
  origins : ∀ origin ∈ moment.origins, origin.memory.Whole

/-- Going back to a choice point gives a memory in which no structure misses arguments. -/
theorem Fits.whole_restored {trial : Trial} {view : Machine.View}
    (fits : moment.Fits trial context view)
    (origins : ∀ origin ∈ moment.origins, origin.memory.Whole) {newer older : List Choice}
    {choice : Choice} (stack : moment.machine.choices = newer ++ choice :: older) :
    choice.trailSize ≤ moment.machine.memory.trail.size ∧
    (moment.machine.restored choice).memory.Whole := by
  have traced := fits.traced
  have backed := fits.machine.backed
  rw [stack] at traced backed
  obtain ⟨pause, pauses, origin, paused, at_origin, source⟩ := traced.exists_from
  -- with the newer choice points dropped, the machine goes back to where this one was pushed
  have dropped : Machine.Fits trial { moment.machine with choices := choice :: older }
      ⟨view.frames, none, pause :: pauses⟩ :=
    ⟨fits.machine.entry, fits.machine.sizes, fits.machine.frames, nofun, paused ▸ backed.drop,
      fits.machine.inside⟩
  obtain ⟨found, others, same, back⟩ := dropped.goesBack rfl
  cases same
  refine ⟨back.trail, ?_⟩
  have memory : (moment.machine.restored choice).memory = origin.memory :=
    back.memory.trans source.memory
  rw [memory]
  exact origins origin (List.mem_of_getElem? at_origin)

/-- Trying an answer leaves no structure that misses arguments, whether it ends well or not. -/
theorem Fits.whole_tryAnswer {trial : Trial} {view : Machine.View} {earlier : Context}
    {machine : Machine} {origins : List Machine} {count : Nat}
    (fits : Fits trial earlier ⟨machine, some count, origins⟩ view)
    (whole : ∀ origin ∈ origins, origin.memory.Whole) :
    Ends (fun machine ↦ machine.memory.Whole) (Exec.tryAnswer context count) machine := by
  obtain ⟨-, choice, older, stack, -⟩ := fits.seeking _ rfl
  have newest : machine.choices = [] ++ choice :: older := stack
  obtain ⟨enough, restored⟩ := fits.whole_restored whole newest
  exact Exec.ends_tryAnswer (fun _ _ _ _ whole ↦ whole) (Exec.whole_unifyFact _) count
    (Exec.restore_of_le stack enough) restored

variable {allowed : Rule → Prop} (built : program.Built allowed) (same : context.program = program)

include built same

/-- A pass keeps a moment neat. -/
theorem Known.neat_passes (known : moment.Known program) (neat : moment.Neat program)
    (passes : moment.Passes context later) : later.Neat program := by
  obtain ⟨none_sought, failed, -⟩ | ⟨trial, earlier, view, runs, rfl, any, fits⟩ := known
  · obtain ⟨machine, seeking, origins⟩ := moment
    cases none_sought
    exact absurd passes (not_passes_of_failed failed)
  have runs : trial.Runs context := runs_of_true runs any same
  obtain ⟨tidy, origins_whole⟩ := neat
  cases passes with
  | run running fetches other ended =>
    obtain ⟨situation, current⟩ := fits.exists_current rfl running
    have inside := fits.machine.lt_of_adds runs current fetches
    exact ⟨tidy.execute built same fetches other inside ended, origins_whole⟩
  | @call machine later origins compiled goal running fetches ended =>
    have whole : machine.begun.memory.Whole := tidy.whole_of_fetches same fetches rfl
    have pushed := ((Exec.whole_pushCall goal).ends whole).ok _ _ ended
    exact ⟨.whole pushed, List.forall_mem_cons.2 ⟨whole, origins_whole⟩⟩
  | miss ended =>
    have tried := (fits.whole_tryAnswer origins_whole).ok _ _ ended
    exact ⟨.whole tried, origins_whole⟩
  | find ended | exhaust ended =>
    have tried := (fits.whole_tryAnswer origins_whole).ok _ _ ended
    exact ⟨.whole tried, fun origin member ↦ origins_whole origin (List.mem_of_mem_drop member)⟩
  | back | stop => exact ⟨tidy.congr rfl rfl rfl rfl, origins_whole⟩

/-- An instruction that does the same in every context does not fault, since it does not without the
occurs check. -/
theorem Reached.ne_error_of_uniform {machine : Machine} {origins : List Machine}
    {compiled : CompiledRule}
    {instruction : Instruction} (reached : Reached program ⟨machine, none, origins⟩)
    (bank : machine.registers.size = program.registers) (running : machine.status = .running)
    (fetches : machine.Fetches context compiled instruction) (stays : instruction ≠ .proceed)
    (silent : ∀ target, instruction ≠ .call target)
    (uniform : ∀ other, Exec.execute other compiled instruction machine.begun =
      Exec.execute context compiled instruction machine.begun) (fault : Fault) (later : Machine) :
    Exec.execute context compiled instruction machine.begun ≠ .error fault later := by
  let unchecked : Context := { context with occursCheck := .off, store := .empty }
  have settles : Settles unchecked ⟨machine, none, origins⟩ :=
    reached.settles built bank same rfl FactStore.consistent_empty
  have fetches' : machine.Fetches unchecked compiled instruction := ⟨fetches.rule, fetches.code⟩
  obtain ⟨success, last, ran⟩ := settles.runs rfl running fetches' stays silent
  rw [← uniform unchecked, ran]
  nofun

/-- A machine that a run leaves when it is broken off is neat. -/
theorem Reached.neat_of_halts (reached : moment.Reached program)
    (bank : moment.machine.registers.size = program.registers) (neat : moment.Neat program)
    {error : AttemptError} {left : Machine} (halts : moment.Halts context error left) :
    left.Neat program := by
  obtain ⟨tidy, origins_whole⟩ := neat
  obtain ⟨none_sought, failed, -⟩ | ⟨trial, earlier, view, runs, rfl, any, fits⟩ :=
    reached.known built
  · cases halts with
    | cancelled | stepLimit => exact tidy.congr rfl rfl rfl rfl
    | lost running | run running | call running => cases running.symm.trans failed
    | answer => cases none_sought
  have runs : trial.Runs context := runs_of_true runs any same
  cases halts with
  | cancelled | stepLimit => exact tidy.congr rfl rfl rfl rfl
  | lost running nowhere =>
    obtain ⟨situation, current⟩ := fits.exists_current rfl running
    obtain ⟨compiled, instruction, fetches⟩ := fits.machine.exists_fetches runs current
    exact absurd fetches (nowhere compiled instruction)
  | @run machine later origins compiled instruction fault status running fetches other ended =>
    obtain ⟨situation, current⟩ := fits.exists_current rfl running
    have safe := reached.ne_error_of_uniform built same bank running fetches
    -- what begins a structure or adds to it does not depend on the policy; the rest keeps
    -- structures whole
    cases tidy with
    | adding clean adding others =>
      have argument := adding.isArgument same fetches
      have stays : instruction ≠ .proceed := by rintro rfl; cases argument
      have silent (target : Target) : instruction ≠ .call target := by rintro rfl; cases argument
      exact absurd ended (safe stays silent
        (Exec.execute_congr_of_isArgument argument adding.mode) _ _)
    | whole whole =>
      cases begins : instruction.arguments? with
      | some count =>
        cases instruction with
        | getStructure | putStructure => exact absurd ended (safe nofun nofun (fun _ ↦ rfl) _ _)
        | _ => cases begins
      | none =>
        have inside := fits.machine.lt_of_adds runs current fetches
        have writes := (Exec.writes_execute begins other inside).error _ _ ended
        have left := Memory.Writes.whole writes whole
        exact .whole left
  | @call machine later origins compiled goal fault status running fetches ended =>
    have whole : machine.begun.memory.Whole := tidy.whole_of_fetches same fetches rfl
    have left := ((Exec.whole_pushCall goal).ends whole).error _ _ ended
    exact .whole left
  | answer ended =>
    have left := (fits.whole_tryAnswer origins_whole).error _ _ ended
    exact .whole left

end Moment

/-! ### Attempts and sessions -/

namespace Machine

variable {program : Program} {machine later : Machine} {context : Context}

/-- The arguments of a head are added whole. -/
theorem whole_enterArguments {head : Functor} {goal : Option Term} {arguments : List Address}
    (fits : goal.all (fitsHead head) = true) (blank : machine.memory = {})
    (ended : enterArguments head.arity goal machine = .ok arguments later) :
    later.memory.Whole := by
  have entered :=
    entered_of_enterArguments (D := Term) (fun term _ ↦ term.allFunctors_true) fits blank ended
  have empty : machine.memory.Whole := blank ▸ Memory.whole_empty
  cases goal with
  | none =>
    have kept := Exec.whole_of_written fun memory ↦
      preserves_mapM (fun _ ↦ Exec.written_pushVar) (List.range head.arity)
    exact (kept.ends empty).ok _ _ ended
  | some goal =>
    rw [enterArguments] at ended
    obtain ⟨memory, loaded, rfl⟩ := Exec.onMemory_eq_ok.1 ended
    have both := Heap.loadable_laid.loadAll ⟨empty.laid, empty.filled⟩ goal.args ∅
    obtain ⟨-, -, trail⟩ := mapM_of_loadAll loaded
    rw [loaded] at both
    rw [blank] at trail
    exact ⟨⟨⟨0, entered.formed⟩, both.1, by simp [trail], by simp [trail]⟩, both.2⟩

/-- When an attempt has been started, no structure misses arguments. -/
theorem whole_start {rule : RuleId} {goal : Option Term}
    (ended : machine.start context rule goal = .ok ⟨⟩ later) : later.memory.Whole := by
  obtain ⟨compiled, found⟩ := exists_rule_of_start ended
  obtain ⟨-, rfl⟩ | ⟨fits, arguments, memory, registers, entered, -, rfl⟩ := start_eq_ok found ended
  · exact Memory.whole_empty
  · have whole := whole_enterArguments fits rfl entered
    exact whole

theorem Neat.resumed (neat : machine.Neat program) : machine.resumed.Neat program := by
  unfold Machine.resumed
  split
  · exact neat.congr rfl rfl rfl rfl
  · exact neat

end Machine

namespace Moment

variable {program : Program} {moment : Moment} {allowed : Rule → Prop}
    (built : program.Built allowed)

include built

/-- Every moment of an attempt is neat. -/
theorem Reached.neat (reached : moment.Reached program) : moment.Neat program := by
  induction reached with
  | start same ended => exact ⟨.whole (Machine.whole_start ended), by simp⟩
  | @search context machine origins moment same reached reaches ih =>
    -- each moment on the way is reached too, so that a view fits it
    induction reaches with
    | refl => exact ⟨ih.machine.resumed, ih.origins⟩
    | tail before passes before_neat =>
      exact ((reached.search same before).known built).neat_passes built same before_neat passes
  | handOut _ _ ih => exact ⟨ih.machine.congr rfl rfl rfl rfl, ih.origins⟩

end Moment

namespace Machine

variable {program : Program} {machine : Machine} {allowed : Rule → Prop}
    (built : program.Built allowed)

include built

/-- So is every machine of a session. -/
theorem Session.neat (session : Session program machine) : machine.Neat program := by
  cases session.standing built with
  | reached reached => exact (reached.neat built).machine
  | new => exact .whole Memory.whole_empty
  | left same bank reached breaks failed =>
    obtain ⟨last, reaches, halts⟩ := breaks
    have last_reached := reached.search same reaches
    refine last_reached.neat_of_halts built same (reaches.size_registers.trans ?_)
      (last_reached.neat built) halts
    rw [← bank, resumed]
    split <;> rfl

end Machine

/-- In every state of a session and at every moment of an attempt, under either policy, the memory
is intact, but for the arguments that the machine is about to add to one structure. Going back to
any choice point gives a memory that is intact without exception. -/
theorem memory_intact {allowed : Rule → Prop} {program : Program} (built : program.Built allowed) :
    (∀ machine, Machine.Session program machine → machine.Intact program) ∧
    ∀ moment : Moment, moment.Reached program → moment.machine.Intact program ∧
      ∀ newer choice older, moment.machine.choices = newer ++ choice :: older →
        ∃ restored, Exec.restore { moment.machine with choices := choice :: older } =
          .ok ⟨⟩ restored ∧
          restored.memory.Intact none := by
  refine ⟨fun machine session ↦ (session.neat built).intact, fun moment reached ↦ ?_⟩
  have neat := reached.neat built
  refine ⟨neat.machine.intact, fun newer choice older stack ↦ ?_⟩
  obtain ⟨-, -, no_choices⟩ | ⟨trial, context, view, -, -, -, fits⟩ := reached.known built
  · rw [no_choices] at stack
    simp at stack
  · obtain ⟨enough, whole⟩ := fits.whole_restored neat.origins stack
    exact ⟨_, Exec.restore_of_le rfl enough,
      whole.toClean.intact fun header functor here ↦ .inl (whole.filled header functor here)⟩

/-! ### A structure that is not finished -/

/-- The rule `p(f(a)).` -/
def Rule.wrapped : Rule where
  head := .struct ⟨0⟩ [.struct ⟨1⟩ [.atom ⟨2⟩]]
  body := []

/-- The program of that rule. -/
def Program.wrapped : Program :=
  match (Program.new 1).addRule .empty .wrapped with
  | .ok (_, program) => program
  | .error _ => .new 1

private theorem Program.built_wrapped : Program.wrapped.Built fun _ ↦ True := by
  unfold wrapped
  split
  · next added => exact .addRule (.new 1) trivial added
  · exact .new 1

/-- The program without facts, and at most two instructions. -/
def Context.wrapped : Context where
  program := .wrapped
  store := .empty
  occursCheck := .on
  stepLimit := 2

/-- The machine when an attempt at the rule starts, without a goal. -/
def Machine.wrappedStarted : Machine where
  registers := #[some 0]
  memory := { heap := ⟨#[.ref 0]⟩ }
  rule := some ⟨0⟩
  status := .running
  entry := some ⟨⟨0⟩, ⟨⟨0⟩, 1⟩, [0]⟩

/-- The machine when the step limit is reached: the argument of the structure is missing. -/
def Machine.wrappedBegun : Machine :=
  { wrappedStarted with
    memory := { heap := ⟨#[.ref 1, .str 2, .functor ⟨⟨1⟩, 1⟩]⟩, trail := #[0] }
    frames := #[⟨#[], .halt, none⟩]
    environment := some 0
    counter := 2
    offset := 1
    status := .failed
    steps := 2
    stats := { instructions := 2 } }

open Machine (wrappedStarted wrappedBegun) in
/-- Where a search is broken off within a structure, the memory is intact but for its argument. With
two choice points, the machine may go back to the older one. -/
theorem memory_intact_wrapped :
    (Machine.Session .wrapped wrappedBegun ∧ wrappedBegun.Intact .wrapped ∧
      ¬wrappedBegun.memory.Intact none) ∧
    ∃ machine origins second first restored, Moment.Reached .selecting ⟨machine, none, origins⟩ ∧
      machine.choices = [second, first] ∧ machine.Intact .selecting ∧
      Exec.restore { machine with choices := [first] } = .ok ⟨⟩ restored ∧
      restored.memory.heap.cells = #[.ref 0] ∧ restored.memory.Intact none := by
  have started : Machine.start .wrapped ⟨0⟩ none (.new 1) = .ok ⟨⟩ wrappedStarted := rfl
  have limited : wrappedStarted.nextSolution .wrapped = .error (.stepLimit 2) wrappedBegun := rfl
  have session : Machine.Session .wrapped wrappedBegun :=
    .breakOff (.start .new rfl started) rfl limited
  have missing : ¬wrappedBegun.memory.Intact none := by
    intro intact
    obtain ⟨functor, header, args⟩ := intact.str 1 2 rfl
    cases header
    obtain ⟨cell, there, -⟩ | ⟨gap, none_missing, -⟩ := args 0 Nat.one_pos
    · cases there
    · cases none_missing
  obtain ⟨machine, origins, second, first, restored, reached, stack, back, -, -, -, -, cells⟩ :=
    Moment.exists_selecting
  have above : machine.choices = [second] ++ first :: [] := stack
  obtain ⟨whole, restores⟩ := (memory_intact Program.built_selecting).2 _ reached
  obtain ⟨other, back', intact⟩ := restores _ _ _ above
  cases back.symm.trans back'
  exact ⟨⟨session, (memory_intact Program.built_wrapped).1 _ session, missing⟩, machine, origins,
    second, first, restored, reached, stack, whole, back, cells, intact⟩

end HornMachine
