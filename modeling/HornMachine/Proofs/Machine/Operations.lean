import HornMachine.Proofs.Machine.Counters
import HornMachine.Proofs.Machine.Point

/-!
# Operations of the machine at a point

The parts that instructions are made of read and change registers, slots of the current frame and
the memory. What each of them does when it ends well is stated for a machine that stands at a point:
which point it stands at then. The machine's frame may hold more than the point's slots do, left
over from branches that were given up. What instructions that build terms leave when they end well
is stated as an equation for the machine then.
-/

namespace HornMachine

namespace Exec

/-! ### Results -/

theorem lift_eq_ok {α : Type} {result : Except Fault α} {value : α} {machine later : Machine} :
    lift result machine = .ok value later ↔ result = .ok value ∧ later = machine := by
  cases result with
  | ok found => simp [lift, pure_apply, eq_comm]
  | error fault => simp [lift, throw_apply]

theorem register_eq_ok {index : Nat} {address : Address} {machine later : Machine} :
    register index machine = .ok address later ↔
      machine.registers[index]? = some (some address) ∧ later = machine := by
  simp only [register, bind_apply, get_apply]
  rcases machine.registers[index]? with _ | _ | found
  · simp [throw_apply]
  · simp [throw_apply]
  · simp [pure_apply, eq_comm]

theorem setRegister_eq_ok {index : Nat} {address : Address} {machine later : Machine}
    {done : Unit} :
    setRegister index address machine = .ok done later ↔
      index < machine.registers.size ∧
        later = { machine with registers := Bank.fill machine.registers index address } := by
  simp only [setRegister, bind_apply, get_apply]
  split
  · next room => simp [room, set_apply, Bank.fill, eq_comm]
  · next full => simp [full, throw_apply]

theorem frame_eq_ok {number : Nat} {current : Frame} {machine later : Machine} :
    frame machine = .ok (number, current) later ↔
      machine.environment = some number ∧ machine.frames[number]? = some current ∧
        later = machine := by
  simp only [frame, bind_apply, get_apply]
  cases machine.environment with
  | none => simp [throw_apply]
  | some index =>
    cases here : machine.frames[index]? with
    | none =>
      simp only [here, throw_apply, Option.some.injEq, reduceCtorEq, false_iff]
      rintro ⟨rfl, there, -⟩
      rw [here] at there
      cases there
    | some found =>
      simp only [here, pure_apply, EStateM.Result.ok.injEq, Prod.mk.injEq, Option.some.injEq]
      constructor
      · rintro ⟨⟨rfl, rfl⟩, rfl⟩
        exact ⟨rfl, here, rfl⟩
      · rintro ⟨rfl, there, rfl⟩
        cases here.symm.trans there
        exact ⟨⟨rfl, rfl⟩, rfl⟩

theorem value_eq_ok {address found : Address} {value : Value} {machine later : Machine} :
    Exec.value address machine = .ok (found, value) later ↔
      machine.memory.heap.value address = .ok (found, value) ∧ later = machine := by
  simp only [Exec.value, bind_apply, get_apply]
  exact lift_eq_ok

theorem extend_eq_ok {operation : Heap → Heap} {address : Address} {machine later : Machine} :
    extend operation machine = .ok address later ↔
      address = machine.memory.heap.size ∧
        later = { machine with
          memory := { machine.memory with heap := operation machine.memory.heap } } := by
  simp only [extend, bind_apply, get_apply, set_apply, pure_apply, EStateM.Result.ok.injEq]
  exact and_congr eq_comm eq_comm

theorem bind_eq_ok_assign {address target : Address} {machine later : Machine} {done : Unit} :
    Exec.bind address target machine = .ok done later ↔
      address < machine.memory.heap.size ∧
        later = { machine with memory := machine.memory.assign address target } := by
  simp only [Exec.bind, bind_apply, get_apply]
  split
  · next inside => simp [inside, set_apply, eq_comm]
  · next outside => simp [outside, throw_apply]

theorem onMemory_eq_ok {α : Type} {operation : Memory → Except Fault α × Memory} {value : α}
    {machine later : Machine} :
    onMemory operation machine = .ok value later ↔
      ∃ memory, operation machine.memory = (.ok value, memory) ∧
        later = { machine with memory } := by
  simp only [onMemory, bind_apply, get_apply, set_apply, lift_eq_ok]
  constructor
  · rintro ⟨ended, rfl⟩
    exact ⟨_, Prod.ext ended rfl, rfl⟩
  · rintro ⟨memory, ended, rfl⟩
    simp [ended]

/-! ### Instructions that build -/

section Building

variable {context : Context} {compiled : CompiledRule} {machine later : Machine} {success : Bool}
    {place : Place}
  {constant : Constant} {functor : Functor} {arg : Nat}

theorem setVariable_eq_ok
    (ended : execute context compiled (.setVariable place) machine = .ok success later) :
    success = true ∧ store place machine.memory.heap.size
      { machine with memory := { machine.memory with heap := machine.memory.heap.pushVar } } =
        .ok ⟨⟩ later := by
  obtain ⟨address, pushed, first, second⟩ := bind_eq_ok.1 ended
  obtain ⟨rfl, rfl⟩ := extend_eq_ok.1 first
  obtain ⟨done, stored, third, last⟩ := bind_eq_ok.1 second
  cases last
  exact ⟨rfl, third⟩

theorem setValue_eq_ok
    (ended : execute context compiled (.setValue place) machine = .ok success later) :
    success = true ∧ ∃ address, load place machine = .ok address machine ∧
      later = { machine with memory :=
        { machine.memory with heap := machine.memory.heap.push (.ref address) } } := by
  obtain ⟨address, middle, first, second⟩ := bind_eq_ok.1 ended
  cases eq_of_load first
  obtain ⟨target, pushed, third, last⟩ := bind_eq_ok.1 second
  obtain ⟨rfl, rfl⟩ := extend_eq_ok.1 third
  cases last
  exact ⟨rfl, address, first, rfl⟩

theorem setConstant_eq_ok
    (ended : execute context compiled (.setConstant constant) machine = .ok success later) :
    success = true ∧ later = { machine with memory :=
      { machine.memory with heap := machine.memory.heap.push constant.cell } } := by
  obtain ⟨target, pushed, first, last⟩ := bind_eq_ok.1 ended
  obtain ⟨rfl, rfl⟩ := extend_eq_ok.1 first
  cases last
  exact ⟨rfl, rfl⟩

theorem putConstant_eq_ok (ended : execute context compiled (.putConstant constant arg) machine =
    .ok success later) :
    success = true ∧ later = { machine with
      memory := { machine.memory with heap := machine.memory.heap.push constant.cell }
      registers := machine.registers.setIfInBounds arg (some machine.memory.heap.size) } := by
  obtain ⟨address, pushed, first, second⟩ := bind_eq_ok.1 ended
  obtain ⟨rfl, rfl⟩ := extend_eq_ok.1 first
  obtain ⟨done, stored, third, last⟩ := bind_eq_ok.1 second
  obtain ⟨-, rfl⟩ := setRegister_eq_ok.1 third
  cases last
  exact ⟨rfl, rfl⟩

theorem putStructure_eq_ok
    (ended : execute context compiled (.putStructure functor arg) machine = .ok success later) :
    success = true ∧ later = { machine with
      memory := { machine.memory with heap := machine.memory.heap.pushStructure functor }
      registers := machine.registers.setIfInBounds arg (some machine.memory.heap.size)
      mode := .write } := by
  obtain ⟨address, pushed, first, second⟩ := bind_eq_ok.1 ended
  obtain ⟨rfl, rfl⟩ := extend_eq_ok.1 first
  obtain ⟨done, stored, third, last⟩ := bind_eq_ok.1 second
  obtain ⟨-, rfl⟩ := setRegister_eq_ok.1 third
  cases last
  exact ⟨rfl, rfl⟩

/-- Matching a register with a structure leaves the memory alone, or it binds a free variable to a
new one. -/
theorem getStructure_eq_ok (ended : getStructure functor arg machine = .ok success later) :
    later.memory = machine.memory ∨
    ∃ address found, machine.memory.heap.value address = .ok (found, .unbound) ∧ success = true ∧
      later = { machine with
        memory := { machine.memory with heap := machine.memory.heap.pushStructure functor }.assign
          found
          machine.memory.heap.size
        mode := .write } := by
  obtain ⟨address, middle, first, second⟩ := bind_eq_ok.1 ended
  obtain ⟨-, rfl⟩ := register_eq_ok.1 first
  obtain ⟨⟨found, value⟩, middle, third, last⟩ := bind_eq_ok.1 second
  obtain ⟨looked, rfl⟩ := value_eq_ok.1 third
  cases value with
  | atom | num =>
    cases last
    exact .inl rfl
  | compound other header =>
    dsimp only at last
    split at last
    · cases last
      exact .inl rfl
    · cases last
      exact .inl rfl
  | unbound =>
    obtain ⟨target, pushed, fourth, last⟩ := bind_eq_ok.1 last
    obtain ⟨rfl, rfl⟩ := extend_eq_ok.1 fourth
    obtain ⟨done, bound, fifth, last⟩ := bind_eq_ok.1 last
    obtain ⟨-, rfl⟩ := bind_eq_ok_assign.1 fifth
    cases last
    exact .inr ⟨address, found, looked, rfl, rfl⟩

/-- When a structure is built, an instruction that takes an argument does what one that adds it
does. -/
theorem execute_of_write (context : Context) (compiled : CompiledRule)
    (write : machine.mode = .write) :
    (∀ place, execute context compiled (.unifyVariable place) machine =
      execute context compiled (.setVariable place) machine) ∧
    (∀ place, execute context compiled (.unifyValue place) machine =
      execute context compiled (.setValue place) machine) ∧
    ∀ constant, execute context compiled (.unifyConstant constant) machine =
      execute context compiled (.setConstant constant) machine := by
  refine ⟨fun place ↦ ?_, fun place ↦ ?_, fun constant ↦ ?_⟩
  · simp only [execute, bind_apply, get_apply, write]
  · simp only [execute, bind_apply, get_apply]
    cases loaded : load place machine with
    | ok address later =>
      cases eq_of_load loaded
      simp only [write, bind_apply]
    | error fault later => rfl
  · simp only [execute, bind_apply, get_apply, write]

end Building

end Exec

/-! ### Tests of the memory -/

variable {D : Type} [Domain D]

/-- A memory whose solutions are those of an earlier one that meet a condition, up to values for new
cells. -/
structure Memory.Narrows (admits : Functor → Prop) (memory later : Memory)
    (condition : Valuation D → Prop) : Prop where
  back : ∀ θ : Valuation D, later.heap.Solution θ → memory.heap.Solution θ ∧ condition θ
  forth : ∀ θ : Valuation D, memory.heap.Solution θ → condition θ →
    ∃ θ', (∀ address : Nat, address < memory.heap.size → θ' address = θ address) ∧
      later.heap.Solution θ'
  rewinds : later.Rewinds memory
  formed : later.heap.Formed admits 0

/-- What a test that succeeds, or fails, does to the memory. One that is `exact` fails only where no
solution meets the condition. -/
def Memory.Tested (exact : Prop) (admits : Functor → Prop) (memory later : Memory)
    (condition : Valuation D → Prop) : Bool → Prop
  | true => memory.Narrows admits later condition
  | false => later = memory ∧ (exact → ∀ θ : Valuation D, memory.heap.Solution θ → ¬condition θ)

section Tests

variable {exact : Prop} {admits : Functor → Prop} {memory later : Memory}
  (formed : memory.heap.Formed admits 0)

include formed

theorem Memory.tested_unify {check : OccursCheck} {left right : Address} {success : Bool}
    (ended : memory.unify check left right = (.ok success, later)) :
    memory.Tested (check.Decides D) admits later
      (fun θ : Valuation D ↦ θ left = θ right) success := by
  have binds := Memory.binds_unify ended
  cases success with
  | false => exact ⟨Memory.unify_eq_self ended, fun decides θ solution ↦
      Memory.ne_of_unify decides ended solution⟩
  | true =>
    exact ⟨fun θ solution ↦ (Memory.solution_unify ended θ).1 solution,
      fun θ solution same ↦ ⟨θ, fun _ _ ↦ rfl, (Memory.solution_unify ended θ).2 ⟨solution, same⟩⟩,
      binds.rebinds.toRewinds, binds.formed formed⟩

/-- A free variable is bound to a new constant. -/
theorem Memory.narrows_constant {address : Nat}
    (unbound : memory.heap.cells[address]? = some (.ref address)) (constant : Constant) :
    memory.Narrows admits
      (Memory.assign { memory with heap := memory.heap.push constant.cell } address
        memory.heap.size) (fun θ : Valuation D ↦ θ address = constant.value) := by
  have inside := Heap.lt_size_of_getElem? unbound
  have still : (memory.heap.push constant.cell).cells[address]? = some (.ref address) := by
    rw [Heap.getElem?_push, if_neg (Nat.ne_of_lt inside), unbound]
  refine ⟨fun θ solution ↦ ?_, fun θ solution holds ↦ ?_,
    ((Memory.Rewinds.refl memory).push _).assign _ still, ?_⟩
  · obtain ⟨solution, bound⟩ := (Heap.solution_set_ref still).1 solution
    obtain ⟨solution, own⟩ := Heap.solution_push.1 solution
    exact ⟨solution, bound.trans ((Point.holds_constant constant θ _).1 own)⟩
  · have same (other : Nat) (lower : other < memory.heap.size) :
        Heap.extend θ memory.heap.size [constant.value] other = θ other := Heap.extend_of_lt lower
    have own : Heap.extend θ memory.heap.size [constant.value] memory.heap.size = constant.value :=
      Heap.extend_add 0
    refine ⟨_, same, (Heap.solution_set_ref still).2 ⟨Heap.solution_push.2
      ⟨Point.solution_congr formed same solution, (Point.holds_constant constant _ _).2 own⟩, ?_⟩⟩
    rw [same address inside, own, holds]
  · have target : Memory.Target .off (memory.heap.push constant.cell) address memory.heap.size := by
      refine ⟨still, .inr ⟨constant.cell, ?_, ?_, by simp⟩⟩
      · rw [Heap.getElem?_push, if_pos rfl]
      · cases constant <;> simp [Constant.cell]
    exact (formed.push (Point.simple_constant _ constant)).assign target

/-- A test of nothing leaves the memory as it is. -/
theorem Memory.tested_of_iff {condition : Valuation D → Prop} {outcome : Prop} [Decidable outcome]
    (same : ∀ θ, memory.heap.Solution θ → (condition θ ↔ outcome)) :
    memory.Tested exact admits memory condition (decide outcome) := by
  by_cases holds : outcome
  · rw [decide_eq_true holds]
    exact ⟨fun θ solution ↦ ⟨solution, (same θ solution).2 holds⟩,
      fun θ solution _ ↦ ⟨θ, fun _ _ ↦ rfl, solution⟩, .refl _, formed⟩
  · rw [decide_eq_false holds]
    exact ⟨rfl, fun _ θ solution met ↦ holds ((same θ solution).1 met)⟩

end Tests

/-! ### Machines at a point -/

/-- The machine with what a point and its frame's slots hold. -/
def Machine.showing (machine : Machine) (number : Nat) (frame : Frame) (point : Point)
    (slots : Bank) : Machine :=
  { machine with
    memory := point.memory
    registers := point.registers
    mode := point.mode
    frames := machine.frames.setIfInBounds number { frame with slots } }

/-- A machine that differs from another one by what a point holds, and whose current frame holds at
least the point's slots. -/
structure Machine.Shows (machine : Machine) (number : Nat) (frame : Frame) (later : Machine)
    (point : Point) : Prop where
  environment : machine.environment = some number
  here : machine.frames[number]? = some frame
  shown : ∃ slots, Bank.Extends slots point.slots ∧
    later = machine.showing number frame point slots

/-- The code in front and the number of missing arguments are not kept by the machine. -/
theorem Machine.Shows.facing {machine later : Machine} {number : Nat} {frame : Frame}
    {point : Point}
    (standing : machine.Shows number frame later point) (code : Code) (missing : Nat) :
    machine.Shows number frame later { point with code, missing } :=
  ⟨standing.environment, standing.here, standing.shown⟩

namespace Exec

variable {machine next later : Machine} {number : Nat} {current : Frame} {point : Point}

theorem shows_mode (standing : machine.Shows number current next point) (mode : Mode) :
    machine.Shows number current { next with mode } { point with mode } := by
  obtain ⟨slots, wider, rfl⟩ := standing.shown
  exact ⟨standing.environment, standing.here, slots, wider, rfl⟩

theorem shows_get (standing : machine.Shows number current next point) :
    next.mode = point.mode := by
  obtain ⟨slots, -, rfl⟩ := standing.shown
  rfl

theorem shows_register (standing : machine.Shows number current next point) {index : Nat}
    {address : Address} (ended : register index next = .ok address later) :
    later = next ∧ point.registers[index]? = some (some address) := by
  obtain ⟨here, rfl⟩ := register_eq_ok.1 ended
  obtain ⟨slots, -, rfl⟩ := standing.shown
  exact ⟨rfl, here⟩

private theorem shows_frame (standing : machine.Shows number current next point) {index : Nat}
    {found : Frame} (ended : frame next = .ok (index, found) later) :
    later = next ∧ index = number ∧ ∃ slots, Bank.Extends slots point.slots ∧
      found = { current with slots } ∧ next = machine.showing number current point slots := by
  obtain ⟨environment, here, rfl⟩ := frame_eq_ok.1 ended
  obtain ⟨slots, wider, rfl⟩ := standing.shown
  cases environment.symm.trans standing.environment
  refine ⟨rfl, rfl, slots, wider, ?_, rfl⟩
  have room : number < machine.frames.size := (Array.getElem?_eq_some_iff.1 standing.here).1
  simp only [Machine.showing, Array.getElem?_setIfInBounds_self, room, if_true] at here
  exact (Option.some.inj here).symm

theorem shows_load (standing : machine.Shows number current next point) {registers : Set Nat}
    {place : Place} (filled : place.Filled registers point.slots.filled) {address : Address}
    (ended : load place next = .ok address later) : later = next ∧ point.Has address place := by
  cases place with
  | register index => exact shows_register standing ended
  | slot index =>
    obtain ⟨⟨found, frame⟩, middle, first, second⟩ := bind_eq_ok.1 ended
    obtain ⟨rfl, -, slots, wider, rfl, -⟩ := shows_frame standing first
    obtain ⟨held, here⟩ := filled
    have there := wider.kept index held here
    simp only [there, pure_apply] at second
    cases second
    exact ⟨rfl, here⟩

theorem shows_setRegister (standing : machine.Shows number current next point) {index : Nat}
    {address : Address} {done : Unit} (ended : setRegister index address next = .ok done later) :
    index < point.registers.size ∧
      machine.Shows number current later
        { point with registers := point.registers.fill index address } := by
  obtain ⟨room, rfl⟩ := setRegister_eq_ok.1 ended
  obtain ⟨slots, wider, rfl⟩ := standing.shown
  exact ⟨room, standing.environment, standing.here, slots, wider, rfl⟩

theorem shows_store (standing : machine.Shows number current next point) {place : Place}
    {address : Address} {done : Unit} (ended : store place address next = .ok done later) :
    point.Room place ∧ machine.Shows number current later (point.put address place) := by
  cases place with
  | register index => exact shows_setRegister standing ended
  | slot index =>
    obtain ⟨⟨found, frame⟩, middle, first, second⟩ := bind_eq_ok.1 ended
    obtain ⟨rfl, rfl, slots, wider, rfl, rfl⟩ := shows_frame standing first
    have room_frames : found < machine.frames.size := (Array.getElem?_eq_some_iff.1 standing.here).1
    simp only at second
    split at second
    · next room =>
      refine ⟨by rwa [Point.Room, ← wider.size], standing.environment, standing.here, _,
        wider.fill index address, ?_⟩
      rw [modify_apply] at second
      cases second
      simp only [Machine.showing, Point.put, Point.registersAfter, Point.slotsAfter]
      congr 1
      apply Array.ext_getElem?
      intro other
      rw [Array.getElem?_modify, Array.getElem?_setIfInBounds, Array.getElem?_setIfInBounds]
      by_cases same : found = other
      · subst same
        simp [room_frames, Frame.setSlot, Bank.fill]
      · simp [same]
    · cases second

theorem shows_extend (standing : machine.Shows number current next point) {operation : Heap → Heap}
    {address : Address} (ended : extend operation next = .ok address later) :
    address = point.memory.heap.size ∧
      machine.Shows number current later
        { point with memory := { point.memory with heap := operation point.memory.heap } } := by
  obtain ⟨rfl, rfl⟩ := extend_eq_ok.1 ended
  obtain ⟨slots, wider, rfl⟩ := standing.shown
  exact ⟨rfl, standing.environment, standing.here, slots, wider, rfl⟩

theorem shows_value (standing : machine.Shows number current next point) {address found : Address}
    {value : Value} (ended : Exec.value address next = .ok (found, value) later) :
    later = next ∧ point.memory.heap.value address = .ok (found, value) := by
  obtain ⟨read, rfl⟩ := value_eq_ok.1 ended
  obtain ⟨slots, -, rfl⟩ := standing.shown
  exact ⟨rfl, read⟩

theorem shows_bind (standing : machine.Shows number current next point) {address target : Address}
    {done : Unit} (ended : Exec.bind address target next = .ok done later) :
    machine.Shows number current later
      { point with memory := point.memory.assign address target } := by
  obtain ⟨-, rfl⟩ := bind_eq_ok_assign.1 ended
  obtain ⟨slots, wider, rfl⟩ := standing.shown
  exact ⟨standing.environment, standing.here, slots, wider, rfl⟩

theorem shows_unify (standing : machine.Shows number current next point) {check : OccursCheck}
    {left right : Address} {success : Bool}
    (ended : unify check left right next = .ok success later) :
    ∃ memory, point.memory.unify check left right = (.ok success, memory) ∧
      machine.Shows number current later { point with memory } := by
  obtain ⟨memory, unified, rfl⟩ := onMemory_eq_ok.1 ended
  obtain ⟨slots, wider, rfl⟩ := standing.shown
  exact ⟨memory, unified, standing.environment, standing.here, slots, wider, rfl⟩

theorem shows_matchConstant {exact : Prop} (standing : machine.Shows number current next point)
    {admits : Functor → Prop} (formed : point.memory.heap.Formed admits 0) {address : Address}
    {constant : Constant} {success : Bool}
    (ended : matchConstant address constant next = .ok success later) :
    ∃ memory, point.memory.Tested exact admits memory
      (fun θ : Valuation D ↦ θ address = constant.value) success ∧
      machine.Shows number current later { point with memory } := by
  obtain ⟨⟨found, value⟩, middle, first, second⟩ := bind_eq_ok.1 ended
  obtain ⟨rfl, read⟩ := shows_value standing first
  have stands (θ : Valuation D) (solution : point.memory.heap.Solution θ) :
      θ address = value.stands θ found := by
    obtain ⟨same, shown⟩ := solution.value read
    exact same.trans shown
  cases value with
  | unbound =>
    obtain ⟨target, pushed, first, second⟩ := bind_eq_ok.1 second
    obtain ⟨rfl, standing⟩ := shows_extend standing first
    obtain ⟨done, bound, first, second⟩ := bind_eq_ok.1 second
    have standing := shows_bind standing first
    cases second
    have unbound := (Heap.value_eq_ok_iff.1 read).2
    have narrows := Memory.narrows_constant (D := D) formed unbound constant
    refine ⟨_, ⟨fun θ solution ↦ ?_, fun θ solution holds ↦ ?_, narrows.rewinds, narrows.formed⟩,
      standing⟩
    · obtain ⟨solution, holds⟩ := narrows.back θ solution
      exact ⟨solution, (stands θ solution).trans holds⟩
    · exact narrows.forth θ solution ((stands θ solution).symm.trans holds)
  | atom symbol =>
    cases second
    exact ⟨point.memory, Memory.tested_of_iff formed fun θ solution ↦ by
      rw [stands θ solution, Value.stands]
      cases constant <;> simp [Constant.value, eq_comm], standing⟩
  | num number =>
    cases second
    exact ⟨point.memory, Memory.tested_of_iff formed fun θ solution ↦ by
      rw [stands θ solution, Value.stands]
      cases constant <;> simp [Constant.value, eq_comm], standing⟩
  | compound functor header =>
    cases second
    refine ⟨point.memory, ⟨rfl, fun _ θ solution ↦ ?_⟩, standing⟩
    simp only [stands θ solution, Value.stands]
    cases constant <;> simp [Constant.value]

end Exec
end HornMachine
