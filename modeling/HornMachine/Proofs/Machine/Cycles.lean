import HornMachine.Proofs.Machine.Safety

/-!
# Cycles under the occurs check

Under the occurs check the machine binds no variable to a term that contains it. A cycle can come
about all the same: a structure that is built is linked before its arguments are there, and an
argument that was met before is added as a reference without a check. Main statement: as long as no
reference was added to something that speaks of the very cell added, heaps stay acyclic and no
attempt meets a cyclic term; a pass that adds such a reference makes the heap cyclic.
-/

namespace HornMachine

open Code (Disciplined Shape)

/-- The instruction adds, as an argument, what is in the place. -/
def Instruction.Adds (mode : Mode) (place : Place) : Instruction → Prop
  | .unifyValue other => mode = .write ∧ other = place
  | .setValue other => other = place
  | _ => False

/-- The instruction adds, as an argument, a reference to something that speaks of the cell added. -/
def Machine.Ties (machine : Machine) (instruction : Instruction) : Prop :=
  ∃ place address, instruction.Adds machine.mode place ∧
    Exec.load place machine = .ok address machine ∧
    Relation.ReflTransGen machine.memory.heap.Below machine.memory.heap.size address

/-! ### Instructions -/

namespace Heap

variable {heap : Heap} {admitted : Functor → Prop} {missing : Nat}

/-- The heap is cyclic if a cycle was tied, and solvable if not. -/
structure CyclicIff (tied : Prop) (heap : Heap) : Prop where
  solvable : ¬tied → heap.Solvable
  cyclic : tied → ¬heap.Acyclic

theorem CyclicIff.acyclic_iff {tied : Prop} (cyclic : heap.CyclicIff tied) : heap.Acyclic ↔ ¬tied :=
  ⟨fun acyclic ties ↦ cyclic.cyclic ties acyclic, fun untied ↦ (cyclic.solvable untied).acyclic⟩

/-- A constant can be added. -/
theorem Solvable.pushConstant (solvable : heap.Solvable) (formed : heap.Formed admitted missing)
    (constant : Constant) : (heap.push constant.cell).Solvable :=
  solvable.push formed fun θ same ↦ (Point.holds_constant constant θ heap.size).2 same

/-- A structure without its arguments can stand for any structure of its functor. -/
theorem Formed.exists_structure (formed : heap.Formed admitted 0) {θ : Valuation Term}
    (solution : heap.Solution θ) {functor : Functor} {args : List Term}
    (count : args.length = functor.arity) : ∃ θ' : Valuation Term,
      (∀ address : Nat, address < heap.size → θ' address = θ address) ∧
      (heap.pushStructure functor).Solution θ' ∧ θ' heap.size = .struct functor.symbol args := by
  let whole := Term.struct functor.symbol args
  let θ' := extend θ heap.size (whole :: whole :: args)
  have same (address : Nat) (inside : address < heap.size) : θ' address = θ address :=
    extend_of_lt inside
  obtain ⟨begun, -, at_size⟩ :=
    Point.solution_structure count (Point.solution_congr formed same solution) rfl
  exact ⟨θ', same, begun, at_size⟩

theorem Solvable.pushStructure (solvable : heap.Solvable) (formed : heap.Formed admitted 0)
    (functor : Functor) : (heap.pushStructure functor).Solvable := by
  obtain ⟨θ, solution⟩ := solvable
  obtain ⟨θ', -, begun, -⟩ :=
    formed.exists_structure solution (List.length_replicate (n := functor.arity) (a := default))
  exact ⟨θ', begun⟩

end Heap

namespace Memory

variable {memory : Memory} {admitted : Functor → Prop}

/-- A free variable can be bound to a new constant. -/
theorem solvable_assign_constant (solvable : memory.heap.Solvable)
    (formed : memory.heap.Formed admitted 0) {address : Nat}
    (unbound : memory.heap.cells[address]? = some (.ref address)) (constant : Constant) :
    (Memory.assign { memory with heap := memory.heap.push constant.cell } address
      memory.heap.size).heap.Solvable := by
  obtain ⟨θ, solution, agrees⟩ := solvable.exists_solution formed fun _ ↦ constant.value
  obtain ⟨-, forth, -, -⟩ := narrows_constant (D := Term) formed unbound constant
  obtain ⟨θ', -, solution'⟩ := forth θ solution (agrees address (.inr unbound))
  exact ⟨θ', solution'⟩

/-- It can be bound to a new structure without its arguments. -/
theorem solvable_assign_structure (solvable : memory.heap.Solvable)
    (formed : memory.heap.Formed admitted 0) {address : Nat}
    (unbound : memory.heap.cells[address]? = some (.ref address)) (functor : Functor) :
    (Memory.assign { memory with heap := memory.heap.pushStructure functor } address
      memory.heap.size).heap.Solvable := by
  let args : List Term := List.replicate functor.arity default
  obtain ⟨θ, solution, agrees⟩ :=
    solvable.exists_solution formed fun _ ↦ .struct functor.symbol args
  have inside := Heap.lt_size_of_getElem? unbound
  have count : args.length = functor.arity := List.length_replicate
  obtain ⟨θ', same, begun, at_size⟩ := formed.exists_structure solution count
  refine ⟨θ', (Heap.solution_set_ref ?_).2 ⟨begun, ?_⟩⟩
  · rwa [Heap.getElem?_pushStructure_of_lt functor inside]
  · rw [at_size, same address inside]
    exact agrees address (.inr unbound)

end Memory

namespace Exec

variable {machine later : Machine} {number : Nat} {current : Frame} {point : Point} {shape : Shape}
  {registers : Set Nat} {building success : Bool} {code : Code} {context : Context}
  {compiled : CompiledRule}

/-- Filling a place leaves the memory alone. -/
theorem memory_store {place : Place} {address : Address} {done : Unit}
    (ended : store place address machine = .ok done later) : later.memory = machine.memory := by
  cases place with
  | register index =>
    obtain ⟨-, rfl⟩ := setRegister_eq_ok.1 ended
    rfl
  | slot index =>
    obtain ⟨⟨number, current⟩, middle, first, rest⟩ := bind_eq_ok.1 ended
    obtain ⟨-, -, rfl⟩ := frame_eq_ok.1 first
    dsimp only at rest
    split at rest
    · cases rest
      rfl
    · cases rest

private theorem memory_setRegister {index : Nat} {address : Address} {done : Unit}
    (ended : setRegister index address machine = .ok done later) :
    later.memory = machine.memory := by
  obtain ⟨-, rfl⟩ := setRegister_eq_ok.1 ended
  rfl

private theorem solvable_unify {admits : Functor → Prop} {missing : Nat} {left right : Address}
    (ended : unify .on left right machine = .ok success later)
    (formed : machine.memory.heap.Formed admits missing) (solvable : machine.memory.heap.Solvable) :
    later.memory.heap.Solvable := by
  obtain ⟨memory, run, rfl⟩ := onMemory_eq_ok.1 ended
  exact (Memory.binds_unify run).solvable formed solvable

private theorem solvable_matchConstant {admits : Functor → Prop} {address : Address}
    {constant : Constant} (ended : matchConstant address constant machine = .ok success later)
    (formed : machine.memory.heap.Formed admits 0) (solvable : machine.memory.heap.Solvable) :
    later.memory.heap.Solvable := by
  obtain ⟨⟨found, value⟩, middle, first, second⟩ := bind_eq_ok.1 ended
  obtain ⟨read, rfl⟩ := value_eq_ok.1 first
  cases value with
  | atom | num | compound =>
    cases second
    exact solvable
  | unbound =>
    obtain ⟨target, pushed, third, fourth⟩ := bind_eq_ok.1 second
    obtain ⟨rfl, rfl⟩ := extend_eq_ok.1 third
    obtain ⟨done, bound, fifth, last⟩ := bind_eq_ok.1 fourth
    obtain ⟨-, rfl⟩ := bind_eq_ok_assign.1 fifth
    cases last
    exact Memory.solvable_assign_constant solvable formed (Heap.value_eq_ok_iff.1 read).2 constant

private theorem solvable_getStructure {admits : Functor → Prop} {functor : Functor} {arg : Nat}
    (ended : execute context compiled (.getStructure functor arg) machine = .ok success later)
    (formed : machine.memory.heap.Formed admits 0) (solvable : machine.memory.heap.Solvable) :
    later.memory.heap.Solvable := by
  obtain unchanged | ⟨address, found, read, -, rfl⟩ := getStructure_eq_ok ended
  · exact unchanged ▸ solvable
  · exact Memory.solvable_assign_structure solvable formed (Heap.value_eq_ok_iff.1 read).2 functor

/-- A new variable is added as an argument. -/
theorem solvable_setVariable {place : Place}
    (ended : execute context compiled (.setVariable place) machine = .ok success later)
    (solvable : machine.memory.heap.Solvable) : later.memory.heap.Solvable := by
  obtain ⟨-, stored⟩ := setVariable_eq_ok ended
  exact memory_store stored ▸ solvable.pushVar

/-- A constant is added as an argument. -/
theorem solvable_setConstant {admits : Functor → Prop} {missing : Nat} {constant : Constant}
    (ended : execute context compiled (.setConstant constant) machine = .ok success later)
    (formed : machine.memory.heap.Formed admits missing) (solvable : machine.memory.heap.Solvable) :
    later.memory.heap.Solvable := by
  obtain ⟨-, rfl⟩ := setConstant_eq_ok ended
  exact solvable.pushConstant formed constant

private theorem solvable_unifyVariable {place : Place}
    (ended : execute context compiled (.unifyVariable place) machine = .ok success later)
    (solvable : machine.memory.heap.Solvable) : later.memory.heap.Solvable := by
  cases mode : machine.mode with
  | read next =>
    obtain ⟨_, _, first, second⟩ := bind_eq_ok.1 ended
    cases first
    rw [mode] at second
    obtain ⟨done, stored, third, last⟩ := bind_eq_ok.1 second
    cases last
    exact memory_store third ▸ solvable
  | write =>
    rw [(execute_of_write context compiled mode).1] at ended
    exact solvable_setVariable ended solvable

private theorem solvable_unifyConstant {constant : Constant}
    (valid : point.Valid shape registers building)
    (standing : machine.Shows number current machine point)
    (ended : execute context compiled (.unifyConstant constant) machine = .ok success later)
    (solvable : machine.memory.heap.Solvable) : later.memory.heap.Solvable := by
  have memory := standing.memory
  cases mode : machine.mode with
  | read next =>
    obtain ⟨_, _, first, second⟩ := bind_eq_ok.1 ended
    cases first
    rw [mode] at second
    have whole := valid.formed
    rw [← standing.mode, mode] at whole
    obtain ⟨done, moved, third, last⟩ := bind_eq_ok.1 second
    cases third
    exact solvable_matchConstant last (memory ▸ whole) solvable
  | write =>
    rw [(execute_of_write context compiled mode).2.2] at ended
    exact solvable_setConstant ended (memory ▸ valid.formed) solvable

/-- A reference is added as an argument. -/
theorem cyclicIff_addValue {admits : Functor → Prop} {missing : Nat} {instruction : Instruction}
    {place : Place} {address : Nat} (formed : machine.memory.heap.Formed admits missing)
    (solvable : machine.memory.heap.Solvable)
    (only : ∀ other, instruction.Adds machine.mode other ↔ other = place)
    (loaded : load place machine = .ok address machine)
    (inside : address < machine.memory.heap.size) (ended : (do
      let _ ← push (.ref address)
      pure true) machine = .ok success later) :
    later.memory.heap.CyclicIff (machine.Ties instruction) := by
  obtain ⟨target, pushed, first, last⟩ := bind_eq_ok.1 ended
  obtain ⟨rfl, rfl⟩ := extend_eq_ok.1 first
  cases last
  have simple : Heap.Formed.Simple machine.memory.heap (.ref address) := Nat.le_of_lt inside
  refine ⟨fun untied ↦ ?_, ?_⟩
  · refine (formed.solvable_push_ref_iff solvable inside).2 fun reaches ↦ untied ?_
    exact ⟨place, address, (only place).2 rfl, loaded, reaches⟩
  · rintro ⟨other, found, adds, again, reaches⟩ acyclic
    cases (only other).1 adds
    cases loaded.symm.trans again
    exact (formed.solvable_push_ref_iff solvable inside).1
      (((formed.push simple).acyclic_iff Term).1 acyclic) reaches

/-- Under the occurs check, an instruction that stays in its rule makes a solvable heap unsolvable
exactly when it adds a reference to something that speaks of the cell added. -/
theorem cyclicIff_execute {instruction : Instruction} (straight : Straight instruction)
    (valid : point.Valid shape registers building)
    (standing : machine.Shows number current machine point)
    (front : point.code = instruction :: code) (on : context.occursCheck = .on)
    (solvable : machine.memory.heap.Solvable)
    (ended : execute context compiled instruction machine = .ok success later) :
    later.memory.heap.CyclicIff (machine.Ties instruction) := by
  have disciplined := valid.disciplined_of_front front
  have memory := standing.memory
  have formed (between : point.missing = 0) : machine.memory.heap.Formed shape.admits 0 :=
    memory ▸ valid.formed_zero between
  have quiet (none_added : ∀ place, ¬instruction.Adds machine.mode place)
      (still : later.memory.heap.Solvable) : later.memory.heap.CyclicIff
        (machine.Ties instruction) :=
    ⟨fun _ ↦ still, fun ⟨place, _, adds, _⟩ ↦ absurd adds (none_added place)⟩
  cases instruction with
  | getVariable place arg =>
    obtain ⟨address, middle, first, second⟩ := bind_eq_ok.1 ended
    obtain ⟨-, rfl⟩ := register_eq_ok.1 first
    obtain ⟨done, stored, third, last⟩ := bind_eq_ok.1 second
    cases last
    exact quiet (fun _ ↦ id) (memory_store third ▸ solvable)
  | getValue place arg =>
    obtain ⟨between, -, filled, -⟩ := disciplined
    obtain ⟨left, middle, first, second⟩ := bind_eq_ok.1 ended
    obtain ⟨rfl, -⟩ := shows_load standing filled first
    obtain ⟨right, middle, third, last⟩ := bind_eq_ok.1 second
    obtain ⟨-, rfl⟩ := register_eq_ok.1 third
    rw [on] at last
    exact quiet (fun _ ↦ id) (solvable_unify last (formed between) solvable)
  | getConstant constant arg =>
    obtain ⟨between, -⟩ := disciplined
    obtain ⟨address, middle, first, last⟩ := bind_eq_ok.1 ended
    obtain ⟨-, rfl⟩ := register_eq_ok.1 first
    exact quiet (fun _ ↦ id) (solvable_matchConstant last (formed between) solvable)
  | getStructure functor arg =>
    obtain ⟨between, -⟩ := disciplined
    exact quiet (fun _ ↦ id) (solvable_getStructure ended (formed between) solvable)
  | unifyVariable place => exact quiet (fun _ ↦ id) (solvable_unifyVariable ended solvable)
  | unifyValue place =>
    obtain ⟨-, rest, missing, filled, -⟩ := disciplined
    obtain ⟨address, middle, first, second⟩ := bind_eq_ok.1 ended
    obtain ⟨rfl, inside⟩ := lt_of_load standing valid filled first
    obtain ⟨_, _, third, fourth⟩ := bind_eq_ok.1 second
    cases third
    cases mode : middle.mode with
    | read next =>
      rw [mode] at fourth
      have whole := valid.formed
      rw [← standing.mode, mode] at whole
      obtain ⟨done, moved, fifth, last⟩ := bind_eq_ok.1 fourth
      cases fifth
      rw [on] at last
      refine quiet (fun other adds ↦ ?_) (solvable_unify last (memory ▸ whole) solvable)
      rw [mode] at adds
      cases adds.1
    | write =>
      rw [mode] at fourth
      refine cyclicIff_addValue (memory ▸ valid.formed) solvable (fun other ↦ ?_) first
        (memory ▸ inside) fourth
      rw [Instruction.Adds, mode]
      exact ⟨fun adds ↦ adds.2.symm, fun same ↦ ⟨rfl, same.symm⟩⟩
  | unifyConstant constant =>
    exact quiet (fun _ ↦ id) (solvable_unifyConstant valid standing ended solvable)
  | putVariable place arg =>
    obtain ⟨address, pushed, first, second⟩ := bind_eq_ok.1 ended
    obtain ⟨rfl, rfl⟩ := extend_eq_ok.1 first
    obtain ⟨done, stored, third, fourth⟩ := bind_eq_ok.1 second
    obtain ⟨done, written, fifth, last⟩ := bind_eq_ok.1 fourth
    cases last
    refine quiet (fun _ ↦ id) ?_
    rw [memory_setRegister fifth, memory_store third]
    exact solvable.pushVar
  | putValue place arg =>
    obtain ⟨-, filled, -⟩ := disciplined
    obtain ⟨address, middle, first, second⟩ := bind_eq_ok.1 ended
    obtain ⟨rfl, -⟩ := shows_load standing filled first
    obtain ⟨done, written, third, last⟩ := bind_eq_ok.1 second
    cases last
    exact quiet (fun _ ↦ id) (memory_setRegister third ▸ solvable)
  | putConstant constant arg =>
    obtain ⟨-, rfl⟩ := putConstant_eq_ok ended
    exact quiet (fun _ ↦ id) (solvable.pushConstant (memory ▸ valid.formed) constant)
  | putStructure functor arg =>
    obtain ⟨between, -⟩ := disciplined
    obtain ⟨-, rfl⟩ := putStructure_eq_ok ended
    exact quiet (fun _ ↦ id) (solvable.pushStructure (formed between) functor)
  | setVariable place => exact quiet (fun _ ↦ id) (solvable_setVariable ended solvable)
  | setValue place =>
    obtain ⟨-, rest, missing, filled, -⟩ := disciplined
    obtain ⟨address, middle, first, second⟩ := bind_eq_ok.1 ended
    obtain ⟨rfl, inside⟩ := lt_of_load standing valid filled first
    exact cyclicIff_addValue (memory ▸ valid.formed) solvable (fun _ ↦ eq_comm) first
      (memory ▸ inside) second
  | setConstant constant =>
    exact quiet (fun _ ↦ id) (solvable_setConstant ended (memory ▸ valid.formed) solvable)
  | allocate | deallocate | call | proceed | fail => exact straight.elim

/-- Leaving a rule leaves the memory alone. -/
theorem memory_proceed {entry : Entry} (at_entry : machine.entry = some entry)
    (ended : execute context compiled .proceed machine = .ok success later) :
    later.memory = machine.memory := by
  obtain ⟨done, middle, first, last⟩ := bind_eq_ok.1 ended
  cases last
  obtain ⟨_, _, got, second⟩ := bind_eq_ok.1 first
  cases got
  cases continuation : machine.continuation with
  | goTo rule offset =>
    rw [continuation] at second
    cases second
    rfl
  | halt =>
    rw [continuation] at second
    obtain ⟨solution, captured, third, last⟩ := bind_eq_ok.1 second
    obtain ⟨-, -, -, -, -, -, rfl⟩ := capture_eq_ok at_entry third
    cases last
    rfl

private theorem solvable_builtin {admits : Functor → Prop} {builtin : Builtin} {arity : Nat}
    (formed : machine.memory.heap.Formed admits 0) (solvable : machine.memory.heap.Solvable)
    (on : context.occursCheck = .on)
    (ended : execute context compiled (.call (.builtin builtin arity)) machine =
      .ok success later) :
    later.memory.heap.Solvable := by
  obtain ⟨args, memory, stats, run, -, rfl⟩ := builtin_eq_ok ended
  rw [on] at run
  exact (Builtin.binds_run run).solvable formed solvable

private theorem solvable_unifyFact {admits : Functor → Prop} {goal : Functor} {fact : Fact}
    (ended : unifyFact .on goal fact machine = .ok success later)
    (formed : machine.memory.heap.Formed admits 0) (solvable : machine.memory.heap.Solvable)
    (kinds : fact.term.AllFunctors admits) : later.memory.heap.Solvable := by
  by_cases none_args : goal.arity = 0
  · rw [unifyFact, if_pos none_args] at ended
    cases ended
    exact solvable
  obtain ⟨address, heap, found, value, loaded, -, rest⟩ := unifyFact_eq_ok_cases none_args ended
  obtain ⟨heap_formed, -⟩ := Memory.narrows_loadAlone Term formed fact.ground kinds loaded
  have heap_solvable := Memory.solvable_loadAlone formed solvable fact.ground kinds loaded
  obtain ⟨header, -, unified⟩ | ⟨-, -, rfl⟩ := rest
  · exact (binds_unifyArguments unified).solvable heap_formed heap_solvable
  · exact heap_solvable

end Exec

/-! ### Passes -/

namespace Moment

variable {trial : Trial} {context : Context} {moment later : Moment} {view : Machine.View}

/-- The next instruction adds, as an argument, a reference to something that speaks of the cell
added. -/
def Ties (context : Context) (moment : Moment) : Prop :=
  moment.seeking = none ∧ moment.machine.status = .running ∧
    ∃ compiled instruction, moment.machine.Fetches context compiled instruction ∧
      moment.machine.begun.Ties instruction

/-- Trying an answer under the occurs check keeps a heap solvable. -/
theorem Fits.solvable_tryAnswer {earlier : Context} {machine next : Machine}
    {origins : List Machine} {count : Nat} {finding : Finding}
    (fits : Fits trial earlier ⟨machine, some count, origins⟩ view)
    (runs : trial.Runs context) (on : context.occursCheck = .on)
    (solvable : machine.memory.heap.Solvable)
    (ended : Exec.tryAnswer context count machine = .ok finding next) :
    next.memory.heap.Solvable := by
  obtain ⟨-, choice, older, stack, -⟩ := fits.seeking _ rfl
  obtain ⟨pause, pauses, -, back⟩ := fits.machine.goesBack stack
  have restored : (machine.restored choice).memory.heap.Solvable :=
    Memory.solvable_truncate (Memory.solvable_unbindLast solvable _) _
  have unified {fact : Fact} {query : Query} {memory : Memory} {success : Bool}
      (ahead : context.upcoming choice count = some (fact, query))
      (run : Exec.unifyFact context.occursCheck choice.goal fact
        (machine.noting choice older query) =
        .ok success { machine.noting choice older query with memory }) : memory.heap.Solvable := by
    obtain ⟨asked, fewer, -, rfl, next⟩ := Context.upcoming_eq_some ahead
    obtain ⟨functor, -, stored⟩ := FactStore.mem_factsOf_of_next next
    have same : (machine.noting choice older query).memory = pause.memory := back.memory
    rw [on] at run
    exact Exec.solvable_unifyFact run (same ▸ back.marks.formed) restored
      (runs.facts functor fact stored)
  obtain ⟨-, tries⟩ := Exec.tryAnswer_eq_ok stack ended
  cases tries with
  | fact ahead run =>
    obtain ⟨caller, offset, continuation⟩ := back.marks.resumes
    rw [continuation]
    exact unified ahead run
  | mismatch ahead run => exact unified ahead run
  | clause | exhausted => exact restored

/-- Under the occurs check, a pass makes a solvable heap unsolvable exactly when it adds such a
reference. -/
theorem Fits.cyclicIff {earlier : Context} (fits : moment.Fits trial earlier view)
    (runs : trial.Runs context)
    (on : context.occursCheck = .on) (solvable : moment.machine.memory.heap.Solvable)
    (passes : moment.Passes context later) :
    later.machine.memory.heap.CyclicIff (moment.Ties context) := by
  have quiet (untied : ¬moment.Ties context) (still : later.machine.memory.heap.Solvable) :
      later.machine.memory.heap.CyclicIff (moment.Ties context) :=
    ⟨fun _ ↦ still, fun ties ↦ absurd ties untied⟩
  cases passes with
  | @run machine next origins compiled instruction success running fetches other ended =>
    have ties : Ties context ⟨machine, none, origins⟩ ↔ machine.begun.Ties instruction := by
      refine ⟨fun ⟨_, _, _, _, again, ties⟩ ↦ (fetches.unique again).2 ▸ ties, fun ties ↦ ?_⟩
      exact ⟨rfl, running, compiled, instruction, fetches, ties⟩
    have memory : (next.after success).memory = next.memory := by cases success <;> rfl
    rw [ties]
    change (next.after success).memory.heap.CyclicIff _
    rw [memory]
    obtain ⟨situation, current⟩ := fits.exists_current rfl running
    have idle (none_added : ∀ place, ¬instruction.Adds machine.begun.mode place)
        (still : next.memory.heap.Solvable) :
        next.memory.heap.CyclicIff (machine.begun.Ties instruction) :=
      ⟨fun _ ↦ still, fun ⟨place, _, adds, _⟩ ↦ absurd adds (none_added place)⟩
    by_cases straight : Exec.Straight instruction
    · obtain ⟨rule, number, frame, inside⟩ := fits.machine.exists_inside runs current fetches
        (fun _ same ↦ by rw [same] at straight; exact straight)
        fun same ↦ by rw [same] at straight; exact straight
      obtain ⟨registers, building, valid⟩ := inside.valid
      exact Exec.cyclicIff_execute straight valid inside.shows.begun (inside.front fetches.code) on
        solvable ended
    · cases instruction with
      | allocate | fail =>
        cases ended
        exact idle (fun _ ↦ id) solvable
      | deallocate =>
        obtain ⟨⟨number, frame⟩, middle, first, second⟩ := bind_eq_ok.1 ended
        obtain ⟨-, -, rfl⟩ := Exec.frame_eq_ok.1 first
        cases second
        exact idle (fun _ ↦ id) solvable
      | proceed =>
        have same :=
          Exec.memory_proceed (show machine.begun.entry = _ from fits.machine.entry) ended
        exact idle (fun _ ↦ id) (same ▸ solvable)
      | call target =>
        cases target with
        | predicate goal => exact absurd rfl (other goal)
        | builtin builtin arity =>
          obtain ⟨rule, number, frame, inside⟩ :=
            fits.machine.exists_inside runs current fetches nofun nofun
          obtain ⟨-, formed, -⟩ := inside.arguments fetches.code
          have formed : machine.begun.memory.heap.Formed trial.admits 0 := formed
          exact idle (fun _ ↦ id) (Exec.solvable_builtin formed solvable on ended)
      | _ => exact absurd trivial straight
  | call running fetches ended =>
    obtain ⟨rule, args, -, -, -, rfl⟩ := Exec.pushCall_eq_ok ended
    refine quiet ?_ solvable
    rintro ⟨-, -, compiled, instruction, again, place, address, adds, -⟩
    obtain ⟨-, rfl⟩ := fetches.unique again
    exact adds
  | miss ended | find ended | exhaust ended =>
    have still := fits.solvable_tryAnswer runs on solvable ended
    exact quiet (fun ties ↦ nomatch ties.1) still
  | back backtracking | stop backtracking =>
    exact quiet (fun ties ↦ nomatch backtracking.symm.trans ties.2.1) solvable

end Moment

/-! ### Runs -/

/-- An attempt starts with a solvable heap. -/
theorem Machine.solvable_start {context : Context} {rule : RuleId} {goal : Option Term}
    {machine later : Machine} {done : Unit}
    (ended : machine.start context rule goal = .ok done later) :
    later.memory.heap.Solvable := by
  obtain ⟨compiled, found⟩ := exists_rule_of_start ended
  obtain ⟨-, rfl⟩ | ⟨fits, arguments, memory, registers, entered, -, rfl⟩ := start_eq_ok found ended
  · exact Heap.solvable_empty
  obtain ⟨-, -, -, -, forth⟩ := entered_of_enterArguments (D := Term)
    (fun term _ ↦ term.allFunctors_true) fits rfl entered
  cases goal with
  | none =>
    obtain ⟨θ, solution, -⟩ := forth (List.replicate compiled.head.arity default)
      List.length_replicate (by simp)
    exact ⟨θ, solution⟩
  | some goal =>
    simp only [Option.all_some, fitsHead, Bool.and_eq_true, decide_eq_true_eq] at fits
    obtain ⟨θ, solution, -⟩ := forth (goal.args.map (Term.eval default))
      (by rw [List.length_map]; exact fits.1.1) (by simpa using ⟨default, fun _ _ ↦ rfl⟩)
    exact ⟨θ, solution⟩

namespace Moment

variable {context : Context} {moment later : Moment}

/-- The moments of attempts under the occurs check during which no such reference was added. The
facts may change between searches. -/
inductive Tame (program : Program) : Context → Moment → Prop
  | start {context : Context} {rule : RuleId} {goal : Option Term} {machine later : Machine}
    (bank : machine.registers.size = program.registers) (same : context.program = program)
    (on : context.occursCheck = .on) (ended : machine.start context rule goal = .ok ⟨⟩ later) :
    Tame program context ⟨later, none, []⟩
  | search {context earlier : Context} {machine : Machine} {origins : List Machine}
    (same : context.program = program) (on : context.occursCheck = .on)
    (tame : Tame program earlier ⟨machine, none, origins⟩) :
    Tame program context ⟨machine.resumed, none, origins⟩
  | pass {context : Context} {moment later : Moment} (tame : Tame program context moment)
    (passes : moment.Passes context later) (untied : ¬moment.Ties context) :
    Tame program context later
  | handOut {context : Context} {machine : Machine} {origins : List Machine}
    (tame : Tame program context ⟨machine, none, origins⟩)
    (succeeded : machine.status = .succeeded) :
    Tame program context ⟨{ machine with pending := none }, none, origins⟩

variable {program : Program}

theorem Tame.setting (tame : moment.Tame program context) :
    context.program = program ∧ context.occursCheck = .on := by
  induction tame with
  | start _ same on | search same on => exact ⟨same, on⟩
  | pass _ _ _ ih | handOut _ _ ih => exact ih

/-- Nothing is done once a solution was found. -/
theorem not_passes_of_succeeded {machine : Machine} {origins : List Machine}
    (succeeded : machine.status = .succeeded) : ¬Passes context ⟨machine, none, origins⟩ later := by
  intro passes
  cases passes with
  | run running | call running => cases succeeded.symm.trans running
  | back backtracking | stop backtracking => cases succeeded.symm.trans backtracking

/-- Whatever can be reached from such moments is reached in attempts. -/
theorem Tame.reached_of_reaches (tame : moment.Tame program context)
    (reaches : moment.Reaches context later) : later.Reached program := by
  induction tame generalizing later with
  | @start context rule goal machine started bank same on ended =>
    have reached : Reached program ⟨started, none, []⟩ := .start same ended
    rw [← Machine.resumed_of_ne (Machine.unsolved_start ended)] at reaches
    exact reached.search same reaches
  | search same on tame ih => exact (ih .refl).search same reaches
  | pass tame passes untied ih => exact ih (.head passes reaches)
  | @handOut context machine origins tame succeeded ih =>
    obtain rfl | ⟨middle, passes, -⟩ := reaches.cases_head
    · exact (ih .refl).handOut succeeded
    · exact absurd passes (not_passes_of_succeeded succeeded)

variable {allowed : Rule → Prop} (built : program.Built allowed)

include built

theorem Tame.known (tame : moment.Tame program context) : moment.Known program :=
  (tame.reached_of_reaches .refl).known built

/-- A pass from such a moment makes the heap cyclic exactly when it adds such a reference. -/
theorem Tame.cyclicIff (tame : moment.Tame program context)
    (solvable : moment.machine.memory.heap.Solvable) (passes : moment.Passes context later) :
    later.machine.memory.heap.CyclicIff (moment.Ties context) := by
  obtain ⟨same, on⟩ := tame.setting
  obtain ⟨none_sought, failed, -⟩ | ⟨trial, earlier, view, runs, rfl, any, fits⟩ := tame.known built
  · obtain ⟨machine, seeking, origins⟩ := moment
    cases none_sought
    exact absurd passes (not_passes_of_failed failed)
  · exact fits.cyclicIff (runs_of_true runs any same) on solvable passes

theorem Tame.solvable (tame : moment.Tame program context) :
    moment.machine.memory.heap.Solvable ∧ moment.machine.registers.size = program.registers := by
  induction tame with
  | @start context rule goal machine later bank same on ended =>
    have kept := Machine.preserves_start context rule goal machine ⟨bank, rfl⟩
    rw [ended] at kept
    exact ⟨Machine.solvable_start ended, kept.1⟩
  | @search context earlier machine origins same on tame ih =>
    unfold Machine.resumed
    split <;> exact ih
  | pass tame passes untied ih =>
    exact ⟨(tame.cyclicIff built ih.1 passes).solvable untied, passes.size_registers.trans ih.2⟩
  | handOut tame succeeded ih => exact ih

/-- Under the occurs check, as long as no reference was added to something that speaks of the cell
added, the heap is acyclic, and an attempt is broken off by cancellation or by the step limit only.
A pass that adds such a reference, and no other, makes the heap cyclic. -/
theorem Tame.acyclic_unless_ties (tame : moment.Tame program context) :
    moment.machine.memory.heap.Acyclic ∧
    (∀ later, moment.Passes context later →
      (later.machine.memory.heap.Acyclic ↔ ¬moment.Ties context)) ∧
    ∀ error, moment.Faults context error → error = .cancelled ∨
    ∃ limit, error = .stepLimit limit := by
  obtain ⟨same, on⟩ := tame.setting
  obtain ⟨solvable, bank⟩ := tame.solvable built
  refine ⟨solvable.acyclic, fun later passes ↦ (tame.cyclicIff built solvable passes).acyclic_iff,
    fun error faults ↦ ?_⟩
  obtain ⟨expected, none_cyclic⟩ := (tame.known built).expected_of_faults built same bank
    (fun _ ↦ solvable) (fun _ : True ↦ on) faults
  cases expected with
  | cancelled => exact .inl rfl
  | stepLimit limit => exact .inr ⟨limit, rfl⟩
  | cyclic rule offset => exact absurd rfl (none_cyclic trivial _)

end Moment

/-! ### Instructions that add no references -/

/-- An instruction that adds nothing, as an argument, that is on the heap already. -/
def Instruction.addsNothing : Instruction → Bool
  | .unifyValue _ | .setValue _ => false
  | _ => true

theorem Instruction.not_adds {instruction : Instruction} (quiet : instruction.addsNothing = true)
    (mode : Mode) (place : Place) : ¬instruction.Adds mode place := by
  intro adds
  cases instruction with
  | unifyValue | setValue => cases quiet
  | _ => exact adds

/-- The pass of such an instruction keeps an attempt tame. -/
theorem Moment.Tame.run {program : Program} {context : Context} {machine later : Machine}
    {origins : List Machine} {compiled : CompiledRule} {instruction : Instruction} {success : Bool}
    (tame : Tame program context ⟨machine, none, origins⟩) (running : machine.status = .running)
    (fetches : machine.Fetches context compiled instruction)
    (quiet : instruction.addsNothing = true) (other : ∀ goal, instruction ≠ .call (.predicate goal))
    (ended : Exec.execute context compiled instruction machine.begun = .ok success later) :
    Tame program context ⟨later.after success, none, origins⟩ := by
  refine tame.pass (.run running fetches other ended) ?_
  rintro ⟨-, -, _, _, fetched, place, address, adds, -⟩
  obtain ⟨-, rfl⟩ := fetches.unique fetched
  exact Instruction.not_adds quiet _ place adds

/-! ### A cycle that is tied -/

/-- The rule `p(X, f(X)).` -/
def Rule.knotting : Rule where
  head := .struct ⟨0⟩ [.var 0, .struct ⟨1⟩ [.var 0]]
  body := []

/-- The program of that rule. -/
def Program.knotting : Program := (Program.new 2).addRules .empty [.knotting]

/-- The program without facts, and with the occurs check. -/
def Context.knotting : Context where
  program := .knotting
  store := .empty
  occursCheck := .on
  stepLimit := 100

/-- A machine that began with the goal `p(Y, Y)`, once it has run some instructions. -/
def Machine.knotting (instructions : Nat) (memory : Memory) (frames : Array Frame) : Machine where
  registers := #[some 0, some 0]
  memory
  frames
  environment := if frames.isEmpty then none else some 0
  rule := some ⟨0⟩
  counter := instructions
  offset := instructions - 1
  status := .running
  entry := some ⟨⟨0⟩, ⟨⟨0⟩, 2⟩, [0, 0]⟩
  steps := instructions
  stats := { instructions }

private theorem start_knotting :
    Machine.start .knotting ⟨0⟩ (some (.struct ⟨0⟩ [.var 0, .var 0])) (.new 2) =
    .ok ⟨⟩ (.knotting 0 { heap := ⟨#[.ref 0]⟩ } #[]) := by
  have loaded : Machine.loadAll {} [.var 0, .var 0] ∅ = (.ok [0, 0], { heap := ⟨#[.ref 0]⟩ }) := by
    simp only [Machine.loadAll, Heap.load, Heap.Load.load, Heap.Load.loadVar, EStateM.run,
      Std.HashMap.getElem?_empty, Std.HashMap.getElem?_insert_self]
    rfl
  let begun : Machine := { Machine.new 2 with rule := some ⟨0⟩ }
  have entered : Machine.enterArguments 2 (some (.struct ⟨0⟩ [.var 0, .var 0])) begun =
      .ok [0, 0] { begun with memory := { heap := ⟨#[.ref 0]⟩ } } := by
    change Exec.lift (Machine.loadAll {} [.var 0, .var 0] ∅).1
      { begun with memory := (Machine.loadAll {} [.var 0, .var 0] ∅).2 } = _
    rw [loaded]
    rfl
  change (Machine.Run.ofExec (Machine.enterArguments 2 (some (.struct ⟨0⟩ [.var 0, .var 0]))) >>=
    _) begun = _
  rw [bind_apply, Machine.Run.ofExec, entered]
  rfl

/-- The machine before the reference to `Y` is added as the argument of `f`. -/
def Machine.beforeKnot : Machine :=
  .knotting 3 { heap := ⟨#[.ref 1, .str 2, .functor ⟨⟨1⟩, 1⟩]⟩, trail := #[0] }
    #[⟨#[some 0], .halt, none⟩]

private theorem tame_knotting : Moment.Tame .knotting .knotting ⟨.beforeKnot, none, []⟩ := by
  obtain ⟨compiled, found, first, second, third⟩ : ∃ compiled,
      Program.knotting.rule? ⟨0⟩ = some compiled ∧
      compiled.code[0]? = some (.allocate 1) ∧ compiled.code[1]? = some (.getVariable (.slot 0) 0) ∧
      compiled.code[2]? = some (.getStructure ⟨⟨1⟩, 1⟩ 1) := ⟨_, rfl, rfl, rfl, rfl⟩
  have turn {counter : Nat} {memory : Memory} {frames : Array Frame} {instruction : Instruction}
    {later : Machine}
      (tame : Moment.Tame .knotting .knotting ⟨.knotting counter memory frames, none, []⟩)
      (here : compiled.code[counter]? = some instruction) (quiet : instruction.addsNothing = true)
      (other : ∀ goal, instruction ≠ .call (.predicate goal))
      (ended : Exec.execute .knotting compiled instruction
        (Machine.knotting counter memory frames).begun =
        .ok true later) : Moment.Tame .knotting .knotting ⟨later, none, []⟩ :=
    tame.run rfl ⟨⟨⟨0⟩, rfl, found⟩, here⟩ quiet other ended
  let unbound : Memory := { heap := ⟨#[.ref 0]⟩ }
  have begun : Moment.Tame .knotting .knotting ⟨.knotting 0 unbound #[], none, []⟩ :=
    .start rfl rfl rfl start_knotting
  have allocated : Moment.Tame .knotting .knotting ⟨.knotting 1 unbound #[⟨#[none], .halt, none⟩],
    none, []⟩ :=
    turn begun first rfl (by simp) rfl
  have filled : Moment.Tame .knotting .knotting ⟨.knotting 2 unbound #[⟨#[some 0], .halt, none⟩],
    none, []⟩ :=
    turn allocated second rfl (by simp) rfl
  exact turn filled third rfl (by simp) rfl

/-- With the goal `p(Y, Y)` the machine adds the reference to `Y` that makes the heap cyclic. -/
theorem acyclic_unless_ties_knotting :
    (Moment.Tame .knotting .knotting ⟨.beforeKnot, none, []⟩ ∧
      Machine.beforeKnot.memory.heap.Acyclic) ∧
    Moment.Ties .knotting ⟨.beforeKnot, none, []⟩ ∧
    ∃ later, Moment.Passes .knotting ⟨.beforeKnot, none, []⟩ ⟨later, none, []⟩ ∧
      later.memory.heap.cells = #[.ref 1, .str 2, .functor ⟨⟨1⟩, 1⟩, .ref 0] ∧
      ¬later.memory.heap.Acyclic := by
  obtain ⟨compiled, found, fourth⟩ : ∃ compiled, Program.knotting.rule? ⟨0⟩ = some compiled ∧
      compiled.code[3]? = some (.unifyValue (.slot 0)) := ⟨_, rfl, rfl⟩
  have fetches : Machine.beforeKnot.Fetches .knotting compiled (.unifyValue (.slot 0)) :=
    ⟨⟨⟨0⟩, rfl, found⟩, fourth⟩
  have knots : Moment.Passes .knotting ⟨.beforeKnot, none, []⟩
      ⟨.knotting 4 { heap := ⟨#[.ref 1, .str 2, .functor ⟨⟨1⟩, 1⟩, .ref 0]⟩, trail := #[0] }
        #[⟨#[some 0], .halt, none⟩], none, []⟩ := .run rfl fetches (by simp) rfl
  have below : Relation.ReflTransGen Machine.beforeKnot.memory.heap.Below 3 0 :=
    .head (.arg rfl List.mem_cons_self) (.head (.str rfl) (.single (.ref rfl (by decide))))
  have ties : Moment.Ties .knotting ⟨.beforeKnot, none, []⟩ :=
    ⟨rfl, rfl, compiled, _, fetches, .slot 0, 0, ⟨rfl, rfl⟩, rfl, below⟩
  have built : Program.knotting.Built fun _ ↦ True := .addRules (.new 2) fun _ _ ↦ trivial
  obtain ⟨acyclic, passes, -⟩ := tame_knotting.acyclic_unless_ties built
  exact ⟨⟨tame_knotting, acyclic⟩, ties, _, knots, rfl, fun still ↦ (passes _ knots).1 still ties⟩

end HornMachine
