import HornMachine.Proofs.Code.Arguments
import HornMachine.Proofs.Heap.Layout
import HornMachine.Proofs.Machine.Cycles

/-!
# What instructions write

All that an instruction writes on the heap are plain cells at the end and bindings of free
variables, unless it begins a structure. Main statements: this is so for each instruction, also
where it ends in a fault (`Exec.writes_execute`); one that adds an argument of a structure adds one
cell (`Exec.adds_execute`); and one that begins a structure adds its two cells first
(`Exec.begins_getStructure`, `Exec.begins_putStructure`). Trying a fact as an answer loads it whole
and then binds variables (`Exec.whole_unifyFact`).
-/

namespace HornMachine

/-- The machine's memory is one that a memory leads to by adding plain cells and binding free
variables. -/
def Memory.Written (memory : Memory) (machine : Machine) : Prop := memory.Writes machine.memory

namespace Machine

/-- Nothing but registers and slots may have been filled. -/
def Refilled (machine later : Machine) : Prop :=
  ∃ registers frames, later = { machine with registers, frames }

private theorem refillable_refilled (machine : Machine) : Refillable machine.Refilled := by
  rintro _ registers frames - ⟨_, _, rfl⟩
  exact ⟨registers, frames, rfl⟩

private theorem refillable_written (memory : Memory) : Refillable memory.Written :=
  fun _ _ _ _ written ↦ written

/-- A cell was added as an argument of a structure, and nothing but registers and slots may have
been filled. -/
def Adds (machine later : Machine) : Prop :=
  ∃ cell registers frames, later = { machine with
    memory := { machine.memory with heap := machine.memory.heap.push cell }, registers, frames }

/-- A structure was begun, and what refers to it may have been bound. -/
def Begins (machine : Machine) (functor : Functor) (later : Machine) : Prop :=
  ∃ memory registers, later = { machine with memory, registers, mode := .write } ∧
    Memory.Writes { machine.memory with heap := machine.memory.heap.pushStructure functor } memory ∧
    memory.heap.size = machine.memory.heap.size + 2

end Machine

namespace Exec

open Machine (refillable_written refillable_refilled)

variable {memory : Memory} {machine later : Machine} {success : Bool} {context : Context}
  {compiled : CompiledRule}

/-! ### Operations -/

private theorem refilled_store {place : Place} {address : Address} {done : Unit}
    (ended : store place address machine = .ok done later) : machine.Refilled later := by
  have kept := preserves_store (refillable_refilled machine) place address
  exact (kept.ends ⟨machine.registers, machine.frames, rfl⟩).ok done later ended

private theorem written_onMemory {α : Type} {check : OccursCheck}
    {operation : Memory → Except Fault α × Memory}
    (binds : ∀ memory, Memory.Binds check memory (operation memory).2) :
    Preserves memory.Written (onMemory operation) :=
  preserves_get_bind fun machine written ↦
    preserves_bind (preserves_set (Memory.Writes.binds written (binds machine.memory))) fun _ ↦
      preserves_lift _

private theorem written_unify (check : OccursCheck) (left right : Address) :
    Preserves memory.Written (unify check left right) :=
  written_onMemory fun _ ↦ Memory.binds_unify rfl

private theorem written_push {cell : Cell} (simple : ∀ heap, Heap.Formed.Simple heap cell) :
    Preserves memory.Written (push cell) :=
  preserves_get_bind fun machine written ↦
    preserves_bind (preserves_set (Memory.Writes.push written (simple machine.memory.heap)))
      fun _ ↦ preserves_pure _

theorem written_pushVar : Preserves memory.Written pushVar :=
  preserves_get_bind fun _ written ↦
    preserves_bind (preserves_set (Memory.Writes.push written (Nat.le_refl _))) fun _ ↦
      preserves_pure _

private theorem written_pushConstant (constant : Constant) :
    Preserves memory.Written (push constant.cell) :=
  written_push fun heap ↦ Point.simple_constant heap constant

private theorem ends_assign {property : Machine → Prop} {address target : Address}
    (before : property machine)
    (holds : property { machine with memory := machine.memory.assign address target }) :
    Ends property (Exec.bind address target) machine := by
  refine ends_bind (get_apply machine) ?_
  split
  · exact (preserves_set holds).ends before
  · exact (preserves_throw _).ends before

/-- A variable that is found free is bound to the constant added. -/
theorem written_matchConstant (address : Address) (constant : Constant) :
    Preserves memory.Written (matchConstant address constant) := by
  refine preserves_of_ends fun machine written ↦
    ends_bind_of_reads (preserves_value address) written ?_
  rintro ⟨found, value⟩ read
  obtain ⟨looked, -⟩ := value_eq_ok.1 read
  cases value with
  | atom | num | compound => exact (preserves_pure _).ends written
  | unbound =>
    have unbound := (Heap.value_eq_ok_iff.1 looked).2
    have lower := Heap.lt_size_of_getElem? unbound
    have extended := (Heap.Extends.refl machine.memory.heap).push constant.cell
    have admissible : Memory.Target .off (machine.memory.heap.push constant.cell) found
        machine.memory.heap.size := by
      refine ⟨(extended.kept found lower).trans unbound, .inr ⟨constant.cell, ?_, ?_, nofun⟩⟩
      · rw [Heap.getElem?_push, if_pos rfl]
      · cases constant <;> simp [Constant.cell]
    have pushed := Memory.Writes.push written (Point.simple_constant machine.memory.heap constant)
    exact ends_bind (extend_eq_ok.2 ⟨rfl, rfl⟩)
      ((ends_assign pushed (pushed.assign admissible)).bind fun _ ↦ preserves_pure _)

/-- A reference may be added to a cell that is there. -/
theorem written_addValue {address : Nat} (inside : address < machine.memory.heap.size) :
    Ends machine.memory.Written (do let _ ← push (.ref address); pure true) machine := by
  have simple : Heap.Formed.Simple machine.memory.heap (.ref address) := Nat.le_of_lt inside
  exact ends_bind (extend_eq_ok.2 ⟨rfl, rfl⟩) ((preserves_pure _).ends (.push .refl simple))

private theorem written_builtin (builtin : Builtin) (arity : Nat) :
    Preserves memory.Written (call context (.builtin builtin arity)) :=
  preserves_bind (preserves_modify fun _ written ↦ written) fun _ ↦
    preserves_bind (preserves_mapM preserves_register _) fun args ↦ by
      have binds (memory : Memory) : Memory.Binds context.occursCheck memory
        (builtin.run context.occursCheck memory args).2 := Builtin.binds_run rfl
      exact written_onMemory binds

private theorem written_proceed (compiled : CompiledRule) :
    Preserves memory.Written (proceed compiled) := by
  refine preserves_get_bind fun machine _ ↦ ?_
  split
  · exact preserves_jump (fun _ _ _ _ written ↦ written) _ _
  · exact preserves_bind (preserves_capture (fun _ written ↦ written) compiled) fun _ ↦
      preserves_modify fun _ written ↦ written

/-! ### Instructions -/

/-- An instruction that neither begins a structure nor calls a predicate adds plain cells and binds
free variables, if what it adds references to is on the heap. -/
theorem writes_execute {instruction : Instruction} (within : instruction.arguments? = none)
    (silent : ∀ goal, instruction ≠ .call (.predicate goal))
    (inside : ∀ (place : Place) (address : Nat), instruction.Adds machine.mode place →
      load place machine = .ok address machine → address < machine.memory.heap.size) :
    Ends machine.memory.Written (execute context compiled instruction) machine := by
  have filled (place : Place) (address : Address) :
    Preserves machine.memory.Written (store place address) :=
    preserves_store (refillable_written _) place address
  have put (index : Nat) (address : Address) :
    Preserves machine.memory.Written (setRegister index address) :=
    preserves_setRegister (refillable_written _) index address
  have done {x : Exec PUnit} (first : Preserves machine.memory.Written x) :
      Preserves machine.memory.Written (do x; pure true) :=
        preserves_bind first fun _ ↦ preserves_pure _
  have moves {f : Machine → Machine} (same : ∀ machine, (f machine).memory = machine.memory) :
      Preserves machine.memory.Written (modify f : Exec PUnit) :=
        preserves_modify fun later written ↦ by
    rwa [Memory.Written, same later]
  cases instruction with
  | getStructure | putStructure => cases within
  | unifyValue place =>
    refine ends_bind_of_reads (preserves_load place) .refl fun address loaded ↦ ?_
    refine ends_bind (get_apply machine) ?_
    cases mode : machine.mode with
    | read next =>
      refine Preserves.ends ?_ .refl
      exact preserves_bind (moves fun _ ↦ rfl) fun _ ↦ written_unify _ _ _
    | write => exact written_addValue (inside place address ⟨mode, rfl⟩ loaded)
  | setValue place =>
    exact ends_bind_of_reads (preserves_load place) .refl fun address loaded ↦
      written_addValue (inside place address rfl loaded)
  | allocate =>
    refine Preserves.ends ?_ .refl
    exact done (moves fun _ ↦ rfl)
  | deallocate =>
    refine Preserves.ends ?_ .refl
    exact preserves_bind preserves_frame fun _ ↦ done (moves fun _ ↦ rfl)
  | getVariable place arg =>
    exact (preserves_bind (preserves_register arg) fun _ ↦ done (filled place _)).ends .refl
  | getValue place arg =>
    exact (preserves_bind (preserves_load place) fun _ ↦
      preserves_bind (preserves_register arg) fun _ ↦ written_unify _ _ _).ends .refl
  | getConstant constant arg =>
    exact (preserves_bind (preserves_register arg) fun _ ↦
      written_matchConstant _ constant).ends .refl
  | unifyVariable place =>
    refine Preserves.ends (preserves_get_bind fun other _ ↦ ?_) .refl
    dsimp only
    split
    · exact preserves_bind (filled place _) fun _ ↦ done (moves fun _ ↦ rfl)
    · exact preserves_bind written_pushVar fun _ ↦ done (filled place _)
  | unifyConstant constant =>
    refine Preserves.ends (preserves_get_bind fun other _ ↦ ?_) .refl
    split
    · exact preserves_bind (moves fun _ ↦ rfl) fun _ ↦ written_matchConstant _ constant
    · exact preserves_bind (written_pushConstant constant) fun _ ↦ preserves_pure _
  | putVariable place arg =>
    exact (preserves_bind written_pushVar fun _ ↦ preserves_bind (filled place _) fun _ ↦
      done (put arg _)).ends .refl
  | putValue place arg =>
    exact (preserves_bind (preserves_load place) fun _ ↦ done (put arg _)).ends .refl
  | putConstant constant arg =>
    exact (preserves_bind (written_pushConstant constant) fun _ ↦ done (put arg _)).ends .refl
  | setVariable place =>
    exact (preserves_bind written_pushVar fun _ ↦ done (filled place _)).ends .refl
  | setConstant constant =>
    exact (preserves_bind (written_pushConstant constant) fun _ ↦ preserves_pure _).ends .refl
  | call target =>
    cases target with
    | builtin builtin arity => exact (written_builtin builtin arity).ends .refl
    | predicate goal => exact absurd rfl (silent goal)
  | proceed => exact (done (written_proceed compiled)).ends .refl
  | fail => exact (preserves_pure _).ends .refl

/-- When a structure is built, an instruction for an argument does the same in any context. -/
theorem execute_congr_of_isArgument {instruction : Instruction}
    (argument : instruction.isArgument = true) (write : machine.mode = .write) (other : Context) :
    execute other compiled instruction machine = execute context compiled instruction machine := by
  obtain ⟨free, known, constant⟩ := execute_of_write context compiled write
  obtain ⟨free', known', constant'⟩ := execute_of_write other compiled write
  cases instruction with
  | setVariable | setValue | setConstant => rfl
  | unifyVariable place => exact (free' place).trans (free place).symm
  | unifyValue place => exact (known' place).trans (known place).symm
  | unifyConstant value => exact (constant' value).trans (constant value).symm
  | _ => cases argument

/-- When a structure is built, an instruction for an argument adds a cell and succeeds. -/
theorem adds_execute {instruction : Instruction} (argument : instruction.isArgument = true)
    (write : machine.mode = .write)
    (ended : execute context compiled instruction machine = .ok success later) :
    success = true ∧ machine.Adds later := by
  obtain ⟨free, known, constant⟩ := execute_of_write context compiled write
  have variable_added {place : Place}
      (ended : execute context compiled (.setVariable place) machine = .ok success later) :
      success = true ∧ machine.Adds later := by
    obtain ⟨rfl, stored⟩ := setVariable_eq_ok ended
    obtain ⟨registers, frames, rfl⟩ := refilled_store stored
    exact ⟨rfl, _, registers, frames, rfl⟩
  have value_added {place : Place}
      (ended : execute context compiled (.setValue place) machine = .ok success later) :
      success = true ∧ machine.Adds later := by
    obtain ⟨rfl, address, -, rfl⟩ := setValue_eq_ok ended
    exact ⟨rfl, _, _, _, rfl⟩
  have constant_added {constant : Constant}
      (ended : execute context compiled (.setConstant constant) machine = .ok success later) :
      success = true ∧ machine.Adds later := by
    obtain ⟨rfl, rfl⟩ := setConstant_eq_ok ended
    exact ⟨rfl, _, _, _, rfl⟩
  cases instruction with
  | setVariable place => exact variable_added ended
  | setValue place => exact value_added ended
  | setConstant constant => exact constant_added ended
  | unifyVariable place => exact variable_added (free place ▸ ended)
  | unifyValue place => exact value_added (known place ▸ ended)
  | unifyConstant value => exact constant_added (constant value ▸ ended)
  | _ => cases argument

/-- An instruction that puts a structure in a register begins it. -/
theorem begins_putStructure {functor : Functor} {arg : Nat}
    (ended : execute context compiled (.putStructure functor arg) machine = .ok success later) :
    success = true ∧ machine.Begins functor later := by
  obtain ⟨rfl, rfl⟩ := putStructure_eq_ok ended
  exact ⟨rfl, _, _, rfl, .refl, Heap.size_pushStructure _ _⟩

/-- One that matches a register with a structure leaves the memory alone, or it begins one and binds
the variable in the register to it. -/
theorem begins_getStructure {functor : Functor} {arg : Nat}
    (ended : execute context compiled (.getStructure functor arg) machine = .ok success later) :
    later.memory = machine.memory ∨ (success = true ∧ machine.Begins functor later) := by
  obtain unchanged | ⟨address, found, looked, rfl, rfl⟩ := getStructure_eq_ok ended
  · exact .inl unchanged
  · have unbound := (Heap.value_eq_ok_iff.1 looked).2
    have lower := Heap.lt_size_of_getElem? unbound
    have admissible : Memory.Target .off (machine.memory.heap.pushStructure functor) found
        machine.memory.heap.size := by
      refine ⟨?_, .inr ⟨_, Heap.getElem?_pushStructure_size _ functor, nofun, nofun⟩⟩
      rw [Heap.getElem?_pushStructure_of_lt functor lower]
      exact unbound
    exact .inr ⟨rfl, _, _, rfl, Memory.Writes.refl.assign admissible, by simp [Memory.assign]⟩

/-! ### Answers -/

/-- What only adds plain cells and binds free variables keeps structures whole. -/
theorem whole_of_written {α : Type} {exec : Exec α}
    (written : ∀ memory : Memory, Preserves memory.Written exec) :
    Preserves (fun machine ↦ machine.memory.Whole) exec := by
  refine preserves_of_ends fun machine whole ↦ ?_
  have ends := (written machine.memory).ends (.refl : machine.memory.Written machine)
  exact ⟨fun value next ended ↦ (ends.ok value next ended).whole whole,
    fun fault next ended ↦ (ends.error fault next ended).whole whole⟩

/-- A fact is loaded whole, and then variables are bound. -/
theorem whole_unifyFact (check : OccursCheck) (goal : Functor) (fact : Fact) :
    Preserves (fun machine ↦ machine.memory.Whole) (unifyFact check goal fact) := by
  refine preserves_of_ends fun machine whole ↦ ?_
  unfold unifyFact
  split
  · exact (preserves_pure _).ends whole
  · obtain ⟨address, heap, loaded⟩ := machine.memory.heap.exists_loadAlone fact.fits
    have ready := whole.loadAlone fact.ground loaded
    refine ends_bind (onMemory_eq_ok.2 ⟨{ machine.memory with heap }, by rw [loaded], rfl⟩) ?_
    refine Preserves.ends (preserves_bind (preserves_value address) fun found ↦ ?_) ready
    split
    · split
      · exact whole_of_written fun memory ↦ preserves_unifyArguments (written_unify check) _ _
      · exact preserves_pure _
    · exact preserves_pure _

end Exec
end HornMachine
