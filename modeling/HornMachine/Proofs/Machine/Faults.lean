import HornMachine.Proofs.Code.Bounds
import HornMachine.Proofs.Heap.Faults
import HornMachine.Proofs.Machine.Moments

/-!
# Faults of the machine

Main statements: what a machine does in a pass ends in no fault other than that of a cyclic term,
and in none if the heap is kept tidy. The code of a rule reads only registers and slots that are
filled and fills only such as there are, the addresses in them are on the heap, and the heap is well
formed.
-/

namespace HornMachine

open Code (Disciplined Shape)

namespace Exec

variable {tidy : Prop}

section Operations

variable {machine next : Machine} {number : Nat} {current : Frame} {point : Point} {shape : Shape}
  {registers : Set Nat} {building : Bool}

private theorem failsOnly_register {machine : Machine} {index : Nat} {address : Address}
    (held : machine.registers[index]? = some (some address)) :
    FailsOnly (Fault.Cyclic tidy) (register index) machine :=
  failsOnly_of_ok (register_eq_ok.2 ⟨held, rfl⟩)

private theorem failsOnly_setRegister {machine : Machine} {index : Nat}
    (room : index < machine.registers.size)
    (address : Address) : FailsOnly (Fault.Cyclic tidy) (setRegister index address) machine := by
  have ended : setRegister index address machine = .ok ⟨⟩ _ := setRegister_eq_ok.2 ⟨room, rfl⟩
  exact failsOnly_of_ok ended

private theorem failsOnly_extend (operation : Heap → Heap) (machine : Machine) :
    FailsOnly (Fault.Cyclic tidy) (extend operation) machine :=
  failsOnly_of_ok (extend_eq_ok.2 ⟨rfl, rfl⟩)

private theorem failsOnly_bind_assign {machine : Machine} {address : Nat}
    (inside : address < machine.memory.heap.size) (target : Address) :
    FailsOnly (Fault.Cyclic tidy) (Exec.bind address target) machine := by
  have ended : Exec.bind address target machine = .ok ⟨⟩ _ := bind_eq_ok_assign.2 ⟨inside, rfl⟩
  exact failsOnly_of_ok ended

/-- A result about the memory is the machine's. -/
theorem failsOnly_lift {α : Type} {result : Except Fault α}
    (only : Except.FailsOnly (Fault.Cyclic tidy) result)
    (machine : Machine) : FailsOnly (Fault.Cyclic tidy) (lift result) machine := by
  cases result with
  | ok value => exact failsOnly_of_ok rfl
  | error fault => exact failsOnly_throw (only fault rfl) machine

private theorem failsOnly_onMemory {α : Type} {operation : Memory → Except Fault α × Memory}
    {machine : Machine} (only : Except.FailsOnly (Fault.Cyclic tidy) (operation machine.memory).1) :
    FailsOnly (Fault.Cyclic tidy) (onMemory operation) machine := by
  refine failsOnly_bind_of_ok rfl ?_
  exact failsOnly_bind_of_ok rfl (failsOnly_lift only _)

variable {admits : Functor → Prop}

theorem failsOnly_value {machine : Machine} (formed : machine.memory.heap.Formed admits 0)
    {address : Nat} (inside : address < machine.memory.heap.size) :
    FailsOnly (Fault.Cyclic tidy) (Exec.value address) machine := by
  refine failsOnly_bind_of_ok rfl ?_
  exact failsOnly_lift (formed.failsOnly_value inside tidy) _

theorem cyclic_of_unify {machine : Machine} (orderly : machine.memory.heap.Orderly tidy admits)
    {check : OccursCheck} (on : tidy → check = .on) {left right : Nat}
    (left_inside : left < machine.memory.heap.size)
    (right_inside : right < machine.memory.heap.size) :
    FailsOnly (Fault.Cyclic (tidy ∨ check = .off)) (unify check left right) machine :=
  failsOnly_onMemory (Memory.cyclic_of_unify orderly on left_inside right_inside)

private theorem failsOnly_matchConstant {machine : Machine}
    (formed : machine.memory.heap.Formed admits 0)
    {address : Nat} (inside : address < machine.memory.heap.size) (constant : Constant) :
    FailsOnly (Fault.Cyclic tidy) (matchConstant address constant) machine := by
  refine failsOnly_bind (failsOnly_value formed inside) fun result same ended ↦ ?_
  obtain ⟨found, value⟩ := result
  obtain ⟨read, rfl⟩ := value_eq_ok.1 ended
  cases value with
  | atom | num | compound => exact failsOnly_of_ok rfl
  | unbound =>
    have lower := Heap.Formed.found_lt read
    refine failsOnly_bind_of_ok (extend_eq_ok.2 ⟨rfl, rfl⟩) ?_
    refine failsOnly_bind (failsOnly_bind_assign ?_ _) fun _ _ _ ↦ failsOnly_of_ok rfl
    rw [Heap.size_push]
    exact Nat.lt_succ_of_lt lower

/-- Matching a filled register with a structure does not fault. -/
theorem failsOnly_getStructure {machine : Machine} (formed : machine.memory.heap.Formed admits 0)
    {address arg : Nat} (held : machine.registers[arg]? = some (some address))
    (inside : address < machine.memory.heap.size) (functor : Functor) :
    FailsOnly (Fault.Cyclic tidy) (getStructure functor arg) machine := by
  refine failsOnly_bind_of_ok (register_eq_ok.2 ⟨held, rfl⟩) ?_
  refine failsOnly_bind (failsOnly_value formed inside) fun result same ended ↦ ?_
  obtain ⟨found, value⟩ := result
  obtain ⟨looked, rfl⟩ := value_eq_ok.1 ended
  cases value with
  | unbound =>
    have lower := Heap.Formed.found_lt looked
    refine failsOnly_bind_of_ok (extend_eq_ok.2 ⟨rfl, rfl⟩) ?_
    refine failsOnly_bind (failsOnly_bind_assign ?_ _) fun _ _ _ ↦ failsOnly_of_ok rfl
    rw [Heap.size_pushStructure]
    omega
  | compound other header =>
    simp only
    split <;> exact failsOnly_of_ok rfl
  | atom | num => exact failsOnly_of_ok rfl

/-- A filled place can be read. -/
theorem failsOnly_load (standing : machine.Shows number current next point) {size : Nat}
    (holds : Point.Holds point.registers registers size) {place : Place}
    (filled : place.Filled registers point.slots.filled) :
    FailsOnly (Fault.Cyclic tidy) (load place) next := by
  obtain ⟨slots, wider, rfl⟩ := standing.shown
  cases place with
  | register index =>
    obtain ⟨address, held, -⟩ := holds index filled
    exact failsOnly_register held
  | slot index =>
    obtain ⟨address, here⟩ := filled
    have room : number < machine.frames.size := (Array.getElem?_eq_some_iff.1 standing.here).1
    have got : frame (machine.showing number current point slots) = .ok (number,
      { current with slots })
        (machine.showing number current point slots) :=
      frame_eq_ok.2 ⟨standing.environment, by simp [Machine.showing, room], rfl⟩
    refine failsOnly_bind_of_ok got ?_
    simp only [wider.kept index address here]
    exact failsOnly_of_ok rfl

/-- A place that is there can be filled. -/
theorem failsOnly_store (standing : machine.Shows number current next point) {place : Place}
    (room : point.Room place) (address : Address) :
    FailsOnly (Fault.Cyclic tidy) (store place address) next := by
  obtain ⟨slots, wider, rfl⟩ := standing.shown
  cases place with
  | register index => exact failsOnly_setRegister room address
  | slot index =>
    have there : number < machine.frames.size := (Array.getElem?_eq_some_iff.1 standing.here).1
    have got : frame (machine.showing number current point slots) = .ok (number,
      { current with slots })
        (machine.showing number current point slots) :=
      frame_eq_ok.2 ⟨standing.environment, by simp [Machine.showing, there], rfl⟩
    refine failsOnly_bind_of_ok got ?_
    have inside : index < slots.size := wider.size ▸ room
    simp only [inside, if_true]
    exact failsOnly_of_ok rfl

/-- A place that is there can be filled with the address of a new cell. -/
theorem failsOnly_extend_store (standing : machine.Shows number current next point)
    (operation : Heap → Heap) {place : Place} (room : point.Room place) :
    FailsOnly (Fault.Cyclic tidy) (do
      let address ← extend operation
      store place address
      pure true) next := by
  refine failsOnly_bind (failsOnly_extend _ _) fun address pushed ended ↦ ?_
  obtain ⟨-, standing⟩ := shows_extend standing ended
  exact failsOnly_bind (failsOnly_store standing room address) fun _ _ _ ↦ failsOnly_of_ok rfl

/-- A register of the bank can be filled with the address of a new cell. -/
theorem failsOnly_extend_setRegister {machine : Machine} (operation : Heap → Heap) {index : Nat}
    (room : index < machine.registers.size) {rest : Exec Bool}
    (goes_on : ∀ machine, FailsOnly (Fault.Cyclic tidy) rest machine) :
    FailsOnly (Fault.Cyclic tidy) (do
      let address ← extend operation
      setRegister index address
      rest) machine := by
  refine failsOnly_bind_of_ok (extend_eq_ok.2 ⟨rfl, rfl⟩) ?_
  refine failsOnly_bind (failsOnly_setRegister ?_ _) fun _ later _ ↦ goes_on later
  exact room

end Operations

section Instructions

variable {machine : Machine} {number : Nat} {current : Frame} {point : Point} {shape : Shape}
  {registers : Set Nat} {building : Bool} {code : Code} {context : Context}
  {compiled : CompiledRule}

private theorem room_of_within {place : Place}
    (within : place.Within point.registers.size point.slots.size) :
    point.Room place := by
  cases place <;> exact within

/-- What a place holds is on the heap. -/
theorem lt_of_load {later next : Machine} (standing : machine.Shows number current next point)
    (valid : point.Valid shape registers building) {place : Place}
    (filled : place.Filled registers point.slots.filled) {address : Nat}
    (ended : load place next = .ok address later) :
    later = next ∧ address < point.memory.heap.size := by
  obtain ⟨same, has⟩ := shows_load standing filled ended
  exact ⟨same, has.lt valid filled⟩

/-- At a point, an instruction that stays in its rule ends in no fault but that of the occurs
check. -/
theorem cyclic_of_execute {instruction : Instruction} (straight : Straight instruction)
    (valid : point.Valid shape registers building)
    (standing : machine.Shows number current machine point)
    (front : point.code = instruction :: code)
    (within : instruction.Within point.registers.size point.slots.size)
    (solvable : tidy → machine.memory.heap.Solvable) (on : tidy → context.occursCheck = .on) :
    FailsOnly (Fault.Cyclic (tidy ∨ context.occursCheck = .off))
      (execute context compiled instruction)
      machine := by
  have disciplined := valid.disciplined_of_front front
  have memory := standing.memory
  have bank := standing.registers
  -- registers that may be read hold addresses of the heap
  have read {index : Nat} (member : index ∈ registers) : ∃ address : Nat,
      machine.registers[index]? = some (some address) ∧ address < machine.memory.heap.size := by
    rw [bank, memory]
    exact valid.registers index member
  have formed (between : point.missing = 0) : machine.memory.heap.Formed shape.admits 0 :=
    memory ▸ valid.formed_zero between
  -- arguments that are matched are on the heap
  have reading {next : Nat} (mode : machine.mode = .read next) (more : point.missing ≠ 0) :
      machine.memory.heap.Formed shape.admits 0 ∧ next < machine.memory.heap.size := by
    have at_point : point.mode = .read next := standing.mode ▸ mode
    have enough := valid.matching next at_point more
    have whole := valid.formed
    rw [at_point] at whole
    rw [memory]
    exact ⟨whole, by omega⟩
  cases instruction with
  | getVariable place arg =>
    obtain ⟨-, filled, -, -⟩ := disciplined
    obtain ⟨address, held, -⟩ := read filled
    refine failsOnly_bind_of_ok (register_eq_ok.2 ⟨held, rfl⟩) ?_
    exact failsOnly_bind (failsOnly_store standing (room_of_within within) address) fun _ _ _ ↦
      failsOnly_of_ok rfl
  | getValue place arg =>
    obtain ⟨between, filled, place_filled, -⟩ := disciplined
    obtain ⟨right, held, right_inside⟩ := read filled
    refine failsOnly_bind (failsOnly_load standing valid.registers place_filled)
      fun left same ended ↦ ?_
    obtain ⟨rfl, left_inside⟩ := lt_of_load standing valid place_filled ended
    refine failsOnly_bind_of_ok (register_eq_ok.2 ⟨held, rfl⟩) ?_
    exact cyclic_of_unify ⟨formed between, solvable⟩ on (memory ▸ left_inside) right_inside
  | getConstant constant arg =>
    obtain ⟨between, filled, -⟩ := disciplined
    obtain ⟨address, held, inside⟩ := read filled
    refine failsOnly_bind_of_ok (register_eq_ok.2 ⟨held, rfl⟩) ?_
    exact failsOnly_matchConstant (formed between) inside constant
  | getStructure functor arg =>
    obtain ⟨between, filled, -, -⟩ := disciplined
    obtain ⟨address, held, inside⟩ := read filled
    exact failsOnly_getStructure (formed between) held inside functor
  | unifyVariable place =>
    refine failsOnly_bind_of_ok rfl ?_
    simp only
    split
    · exact failsOnly_bind (failsOnly_store standing (room_of_within within) _) fun _ _ _ ↦
        failsOnly_of_ok rfl
    · exact failsOnly_extend_store standing _ (room_of_within within)
  | unifyValue place =>
    obtain ⟨-, rest, missing, place_filled, -⟩ := disciplined
    refine failsOnly_bind (failsOnly_load standing valid.registers place_filled)
      fun left same ended ↦ ?_
    obtain ⟨rfl, left_inside⟩ := lt_of_load standing valid place_filled ended
    refine failsOnly_bind_of_ok rfl ?_
    split
    · next next mode =>
      obtain ⟨whole, inside⟩ := reading mode (by omega)
      refine failsOnly_bind_of_ok rfl ?_
      have orderly : Heap.Orderly tidy shape.admits
        { same with mode := .read (next + 1) }.memory.heap :=
        ⟨whole, solvable⟩
      exact cyclic_of_unify orderly on (memory ▸ left_inside) inside
    · exact failsOnly_bind (failsOnly_extend _ _) fun _ _ _ ↦ failsOnly_of_ok rfl
  | unifyConstant constant =>
    obtain ⟨-, rest, missing, -⟩ := disciplined
    refine failsOnly_bind_of_ok rfl ?_
    split
    · next next mode =>
      obtain ⟨whole, inside⟩ := reading mode (by omega)
      refine failsOnly_bind_of_ok rfl ?_
      have passed : { machine with mode := .read (next + 1) }.memory.heap.Formed shape.admits 0 :=
        whole
      exact failsOnly_matchConstant passed inside constant
    · exact failsOnly_bind (failsOnly_extend _ _) fun _ _ _ ↦ failsOnly_of_ok rfl
  | putVariable place arg =>
    refine failsOnly_bind (failsOnly_extend _ _) fun address pushed ended ↦ ?_
    obtain ⟨-, standing⟩ := shows_extend standing ended
    refine failsOnly_bind (failsOnly_store standing (room_of_within within.1) address)
      fun _ stored ended ↦ ?_
    obtain ⟨-, standing⟩ := shows_store standing ended
    refine failsOnly_bind (failsOnly_setRegister ?_ address) fun _ _ _ ↦ failsOnly_of_ok rfl
    rw [standing.registers]
    cases place with
    | register index => simpa [Point.put, Point.registersAfter, Bank.fill] using within.2
    | slot index => exact within.2
  | putValue place arg =>
    obtain ⟨-, place_filled, -⟩ := disciplined
    refine failsOnly_bind (failsOnly_load standing valid.registers place_filled)
      fun left same ended ↦ ?_
    obtain ⟨rfl, -⟩ := lt_of_load standing valid place_filled ended
    exact failsOnly_bind (failsOnly_setRegister (bank ▸ within) _) fun _ _ _ ↦ failsOnly_of_ok rfl
  | putConstant constant arg =>
    exact failsOnly_extend_setRegister _ (bank ▸ within) fun _ ↦ failsOnly_of_ok rfl
  | putStructure functor arg =>
    exact failsOnly_extend_setRegister _ (bank ▸ within) fun _ ↦ failsOnly_of_ok rfl
  | setVariable place => exact failsOnly_extend_store standing _ (room_of_within within)
  | setValue place =>
    obtain ⟨-, rest, missing, place_filled, -⟩ := disciplined
    refine failsOnly_bind (failsOnly_load standing valid.registers place_filled)
      fun left same ended ↦ ?_
    exact failsOnly_bind (failsOnly_extend _ _) fun _ _ _ ↦ failsOnly_of_ok rfl
  | setConstant constant =>
    exact failsOnly_bind (failsOnly_extend _ _) fun _ _ _ ↦ failsOnly_of_ok rfl
  | allocate | deallocate | call | proceed | fail => exact straight.elim

theorem failsOnly_execute {instruction : Instruction} (straight : Straight instruction)
    (valid : point.Valid shape registers building)
    (standing : machine.Shows number current machine point)
    (front : point.code = instruction :: code)
    (within : instruction.Within point.registers.size point.slots.size)
    (solvable : tidy → machine.memory.heap.Solvable) (on : tidy → context.occursCheck = .on) :
    FailsOnly (Fault.Cyclic tidy) (execute context compiled instruction) machine := by
  intro fault later failed
  obtain ⟨cyclic, untidy⟩ :=
    cyclic_of_execute straight valid standing front within solvable on fault later failed
  exact ⟨cyclic, fun keeps ↦ untidy (.inl keeps)⟩

/-- Without the occurs check such an instruction comes to an answer. -/
theorem exists_execute {instruction : Instruction} (straight : Straight instruction)
    (valid : point.Valid shape registers building)
    (standing : machine.Shows number current machine point)
    (front : point.code = instruction :: code)
    (within : instruction.Within point.registers.size point.slots.size)
    (off : context.occursCheck = .off) :
    ∃ success later, execute context compiled instruction machine = .ok success later := by
  have fails : FailsOnly (Fault.Cyclic (False ∨ context.occursCheck = .off))
      (execute context compiled instruction) machine :=
    cyclic_of_execute straight valid standing front within False.elim False.elim
  generalize ended : execute context compiled instruction machine = result at fails
  cases result with
  | ok success later => exact ⟨success, later, rfl⟩
  | error fault later => exact absurd (.inr off) (fails fault later ended).2

end Instructions

/-! ### Calls and answers -/

section Answers

variable {machine : Machine} {admits : Functor → Prop}
  (orderly : machine.memory.heap.Orderly tidy admits)

include orderly

private theorem cyclic_of_unifyArguments {check : OccursCheck} (on : tidy → check = .on)
    {header : Nat} {indices : List Nat}
    (held : ∀ index ∈ indices, Heap.argument header index < machine.memory.heap.size ∧
      ∃ address : Nat, machine.registers[index]? = some (some address) ∧
        address < machine.memory.heap.size) :
    FailsOnly (Fault.Cyclic (tidy ∨ check = .off)) (unifyArguments check header indices)
      machine := by
  induction indices generalizing machine with
  | nil => exact failsOnly_of_ok rfl
  | cons index indices ih =>
    obtain ⟨⟨argument, address, here, inside⟩, rest⟩ := List.forall_mem_cons.1 held
    refine failsOnly_bind_of_ok (register_eq_ok.2 ⟨here, rfl⟩) ?_
    refine failsOnly_bind (cyclic_of_unify orderly on inside argument) fun unified next ended ↦ ?_
    obtain ⟨memory, run, rfl⟩ := onMemory_eq_ok.1 ended
    have binds := Memory.binds_unify run
    cases unified with
    | false => exact failsOnly_of_ok rfl
    | true =>
      refine ih (binds.orderly on orderly) fun other member ↦ ?_
      rw [binds.rebinds.size]
      exact rest other member

theorem cyclic_of_unifyFact {check : OccursCheck} (on : tidy → check = .on) {goal : Functor}
    {fact : Fact} (kinds : fact.term.AllFunctors admits)
    (holds : Point.Holds machine.registers {index | index < goal.arity} machine.memory.heap.size) :
    FailsOnly (Fault.Cyclic (tidy ∨ check = .off)) (unifyFact check goal fact) machine := by
  obtain ⟨address, heap, loaded⟩ := machine.memory.heap.exists_loadAlone fact.fits
  obtain ⟨heap_formed, grown, inside, -⟩ :=
    Memory.narrows_loadAlone Term orderly.formed fact.ground kinds loaded
  have heap_orderly : heap.Orderly tidy admits := ⟨heap_formed, fun keeps ↦
    Memory.solvable_loadAlone orderly.formed (orderly.solvable keeps) fact.ground kinds loaded⟩
  rw [unifyFact]
  split
  · exact failsOnly_of_ok rfl
  refine failsOnly_bind (failsOnly_onMemory ?_) fun found next ended ↦ ?_
  · simp only [loaded]
    exact Except.failsOnly_ok address
  obtain ⟨memory, run, rfl⟩ := onMemory_eq_ok.1 ended
  simp only [loaded, Prod.mk.injEq, Except.ok.injEq] at run
  obtain ⟨rfl, rfl⟩ := run
  refine failsOnly_bind (failsOnly_value heap_formed inside) fun result next ended ↦ ?_
  obtain ⟨found, value⟩ := result
  obtain ⟨read, rfl⟩ := value_eq_ok.1 ended
  cases value with
  | unbound | atom | num => exact failsOnly_of_ok rfl
  | compound functor header =>
    simp only
    split
    · next same =>
      subst same
      refine cyclic_of_unifyArguments heap_orderly on fun index lower ↦ ?_
      obtain ⟨held, here, below⟩ := holds index (List.mem_range.1 lower)
      exact ⟨heap_formed.argument_lt read (Heap.mem_arguments (List.mem_range.1 lower)), held, here,
        Nat.lt_of_lt_of_le below grown.heap⟩
    · exact failsOnly_of_ok rfl

private theorem failsOnly_pattern (goal : Functor) {arguments : Array (Option Address)}
    (held : ∀ entry ∈ arguments.toList, ∃ address : Nat, entry = some address ∧
      address < machine.memory.heap.size) {other : Machine} (same : other.memory = machine.memory) :
    FailsOnly (Fault.Cyclic tidy) (pattern goal arguments) other := by
  rw [← same] at orderly held
  refine failsOnly_bind (failsOnly_mapM (· = other) ?_ rfl) fun _ _ _ ↦ failsOnly_of_ok rfl
  rintro ⟨entry, index⟩ member _ rfl
  obtain ⟨address, rfl, inside⟩ := held entry (List.fst_mem_of_mem_zipIdx member)
  refine ⟨?_, fun term later ended ↦ (patternArg_eq_ok ended).1⟩
  have only := orderly.failsOnly_extractNamed inside {}
  refine failsOnly_bind_of_ok rfl ?_
  split
  · exact failsOnly_of_ok rfl
  · exact failsOnly_of_ok rfl
  · next fault _ failed => exact failsOnly_throw (only fault failed) _

/-- A builtin finds its arguments in the first registers. -/
theorem failsOnly_builtin {context : Context} (on : tidy → context.occursCheck = .on)
    (builtin : Builtin) {arity : Nat}
    (holds : Point.Holds machine.registers {index | index < arity} machine.memory.heap.size) :
    FailsOnly (Fault.Cyclic tidy) (call context (.builtin builtin arity)) machine := by
  refine failsOnly_bind_of_ok rfl ?_
  refine failsOnly_bind ?_ fun args next read ↦ ?_
  · refine failsOnly_mapM (fun next ↦ next.registers = machine.registers)
      (fun index lower next same ↦ ⟨?_, fun _ later ended ↦ ?_⟩) rfl
    · obtain ⟨address, held, -⟩ := holds index (List.mem_range.1 lower)
      exact failsOnly_register (same ▸ held)
    · obtain ⟨-, rfl⟩ := register_eq_ok.1 ended
      exact same
  · obtain ⟨rfl, addresses⟩ := registers_eq_ok read
    refine failsOnly_onMemory (Builtin.failsOnly_run orderly builtin on fun address member ↦ ?_)
    have listed := List.mem_map_of_mem (f := some) member
    rw [addresses] at listed
    obtain ⟨index, lower, same⟩ := List.mem_map.1 listed
    obtain ⟨held, held_here, inside⟩ := holds index (List.mem_range.1 lower)
    rw [held_here] at same
    cases same
    exact inside

theorem failsOnly_pushCall {goal : Functor} {rule : RuleId} (running : machine.rule = some rule)
    (holds : Point.Holds machine.registers {index | index < goal.arity} machine.memory.heap.size) :
    FailsOnly (Fault.Cyclic tidy) (pushCall goal) machine := by
  have room : goal.arity ≤ machine.registers.size := by
    by_contra few
    obtain ⟨address, here, -⟩ := holds machine.registers.size (Nat.lt_of_not_le few)
    simp at here
  refine failsOnly_bind_of_ok rfl ?_
  refine failsOnly_bind_of_ok rfl ?_
  simp only [running, gt_iff_lt, Nat.not_lt.2 room, if_false]
  refine failsOnly_bind (failsOnly_pattern orderly goal (fun entry member ↦ ?_) rfl) fun _ _ _ ↦
    failsOnly_of_ok rfl
  obtain ⟨index, lower, rfl⟩ := List.mem_iff_getElem.1 member
  have below : index < goal.arity := by
    simp at lower
    omega
  obtain ⟨address, here, inside⟩ := holds index below
  refine ⟨address, ?_, inside⟩
  rw [Array.getElem_toList, Array.getElem_extract]
  simpa [Array.getElem?_eq_getElem (Nat.lt_of_lt_of_le below room)] using here

private theorem failsOnly_readTerms {addresses : List Address}
    (inside : ∀ address ∈ addresses, address < machine.memory.heap.size) (names : VarNames) :
    Except.FailsOnly (Fault.Cyclic tidy) (readTerms machine.memory.heap addresses names) := by
  induction addresses generalizing names with
  | nil => exact Except.failsOnly_ok _
  | cons address addresses ih =>
    obtain ⟨here, rest⟩ := List.forall_mem_cons.1 inside
    rw [readTerms]
    exact Except.failsOnly_bind (orderly.failsOnly_extractNamed here names) fun term _ ↦
      Except.failsOnly_bind (ih rest _) fun _ _ ↦ Except.failsOnly_ok _

private theorem failsOnly_readBindings {answer : Array (Option Address)}
    (bounded : Bank.Bounded answer machine.memory.heap.size) (slots : List (Var × Nat))
    (names : VarNames) (bindings : Bindings) :
    Except.FailsOnly (Fault.Cyclic tidy)
      (readBindings machine.memory.heap answer slots names bindings) := by
  induction slots generalizing names bindings with
  | nil => exact Except.failsOnly_ok _
  | cons entry slots ih =>
    obtain ⟨v, slot⟩ := entry
    rw [readBindings]
    split
    · next address held =>
      have only := orderly.failsOnly_extractNamed (bounded slot address held) names
      split
      · exact ih _ _
      · exact ih _ _
      · next fault _ _ failed =>
        rintro _ ⟨⟩
        exact only fault (by rw [failed])
    · exact ih _ _

/-- A solution is read from the slots and arguments of the attempted rule. -/
theorem failsOnly_capture {compiled : CompiledRule} {entry : Entry}
    (at_entry : machine.entry = some entry)
    (inside : ∀ address ∈ entry.arguments, address < machine.memory.heap.size)
    (bounded : Bank.Bounded (machine.answer.getD #[]) machine.memory.heap.size) :
    FailsOnly (Fault.Cyclic tidy) (capture compiled) machine := by
  refine failsOnly_bind_of_ok rfl ?_
  refine failsOnly_bind_of_ok rfl ?_
  simp only [at_entry]
  refine failsOnly_bind (failsOnly_lift (failsOnly_readTerms orderly inside _) _) fun _ _ _ ↦ ?_
  refine failsOnly_bind (failsOnly_lift (failsOnly_readBindings orderly bounded _ _ _) _)
    fun _ _ _ ↦ ?_
  exact failsOnly_of_ok rfl

end Answers

end Exec
end HornMachine
