import HornMachine.Proofs.Machine.Counters
import HornMachine.Proofs.Machine.Heads

/-!
# The code of a goal builds its arguments

The structures inside a goal argument are built first, each in a temporary register, so the
variables of a goal are met in another order than they are written in. The code builds at the end of
the heap, and it fills the slots of the variables that it meets first. Main statement:
`goal_code_builds_arguments`.
-/

namespace HornMachine

open Code (Disciplined Meaning Shape)

/-! ### Code that builds -/

theorem Instruction.Building.straight {instruction : Instruction} (builds : instruction.Building) :
    Exec.Straight instruction := by
  cases instruction <;> trivial

private theorem Instruction.Matching.not_building {instruction : Instruction}
    (matching : instruction.Matching) :
    ¬instruction.Building := by
  cases instruction with
  | getVariable | getValue | getConstant | getStructure
  | unifyVariable | unifyValue | unifyConstant => exact id
  | _ => exact matching.elim

namespace Code

/-- The slots that code fills. -/
def fills (code : Code) : List Nat := code.filterMap Instruction.slot?

/-- Code that builds can be gone on from with the slots that it fills. -/
theorem Disciplined.after_building {shape : Shape} {size : Nat} {code rest : Code}
    {registers slots : Set Nat}
    {building : Bool} {missing : Nat} (builds : ∀ instruction ∈ code, instruction.Building)
    (disciplined : Disciplined shape size (code ++ rest) registers slots building missing) :
    ∃ registers building missing,
      Disciplined shape size rest registers ({slot | slot ∈ fills code} ∪ slots) building
        missing := by
  induction code generalizing registers slots building missing with
  | nil => exact ⟨registers, building, missing, by simpa [fills] using disciplined⟩
  | cons instruction code ih =>
    obtain ⟨first, others⟩ := List.forall_mem_cons.1 builds
    have filled (place : Place) (same : instruction.slot? = place.slot?) :
        {slot | slot ∈ fills (instruction :: code)} ∪ slots =
          {slot | slot ∈ fills code} ∪ place.slotsWith slots := by
      ext slot
      cases place with
      | register index => simp [fills, same, Place.slot?, Place.slotsWith]
      | slot index => simp [fills, same, Place.slot?, Place.slotsWith, or_assoc]
    cases instruction with
    | putVariable place arg =>
      rw [filled place rfl]
      exact ih others disciplined.2.2
    | setVariable place =>
      obtain ⟨-, rest, -, -, later⟩ := disciplined
      rw [filled place rfl]
      exact ih others later
    | putValue place arg | putStructure functor arg =>
      rw [filled (.register 0) rfl]
      exact ih others disciplined.2.2
    | putConstant constant arg =>
      rw [filled (.register 0) rfl]
      exact ih others disciplined.2
    | setValue place =>
      obtain ⟨-, rest, -, -, later⟩ := disciplined
      rw [filled (.register 0) rfl]
      exact ih others later
    | setConstant constant =>
      obtain ⟨-, rest, -, later⟩ := disciplined
      rw [filled (.register 0) rfl]
      exact ih others later
    | _ => exact first.elim

end Code

/-! ### Building on the heap -/

/-- A machine that built on the heap: what was there is kept, and so is the trail; the slots of its
frame that were filled each hold an unbound cell of its own that was added. -/
structure Machine.Builds (number : Nat) (fills : List Nat) (machine : Machine) (frame : Frame)
    (later : Machine) (last : Frame) : Prop where
  environment : later.environment = some number
  here : later.frames[number]? = some last
  trail : later.memory.trail = machine.memory.trail
  grown : machine.memory.heap.size ≤ later.memory.heap.size
  kept : ∀ address : Nat, address < machine.memory.heap.size →
    later.memory.heap.cells[address]? = machine.memory.heap.cells[address]?
  others : ∀ slot : Nat, slot ∉ fills → last.slots[slot]? = frame.slots[slot]?
  filled : ∀ slot : Nat, slot ∈ fills → ∃ cell : Nat, last.slots[slot]? = some (some cell) ∧
    machine.memory.heap.size ≤ cell ∧ later.memory.heap.cells[cell]? = some (.ref cell)
  apart : ∀ slot ∈ fills, ∀ other ∈ fills, last.slots[slot]? = last.slots[other]? → slot = other

namespace Machine.Builds

variable {machine middle later : Machine} {number : Nat} {frame between last : Frame}
    {fills more : List Nat}

/-- Adding to the heap without filling a slot. -/
theorem of_heap (current : machine.environment = some number)
    (here : machine.frames[number]? = some frame)
    {heap : Heap} (grown : machine.memory.heap.size ≤ heap.size)
    (kept : ∀ address : Nat, address < machine.memory.heap.size →
      heap.cells[address]? = machine.memory.heap.cells[address]?) (registers : Bank) (mode : Mode) :
    machine.Builds number [] frame
      { machine with memory := { machine.memory with heap }, registers, mode } frame :=
  ⟨current, here, rfl, grown, kept, fun _ _ ↦ rfl, fun _ member ↦ absurd member List.not_mem_nil,
    fun _ member ↦ absurd member List.not_mem_nil⟩

theorem refl (current : machine.environment = some number)
    (here : machine.frames[number]? = some frame) :
    machine.Builds number [] frame machine frame :=
  of_heap current here (Nat.le_refl _) (fun _ _ ↦ rfl) _ _

theorem push (current : machine.environment = some number)
    (here : machine.frames[number]? = some frame) (cell : Cell) (registers : Bank) (mode : Mode) :
    machine.Builds number [] frame
      { machine with
        memory := { machine.memory with heap := machine.memory.heap.push cell }, registers,
          mode } frame :=
  of_heap current here (by rw [Heap.size_push]; exact Nat.le_succ _)
    (fun _ inside ↦ Heap.Formed.getElem?_push_of_lt cell inside) registers mode

/-- Registers and mode do not matter. -/
theorem of_registers (builds : machine.Builds number fills frame later last) (registers : Bank)
    (mode : Mode) :
    machine.Builds number fills frame { later with registers, mode } last :=
  ⟨builds.environment, builds.here, builds.trail, builds.grown, builds.kept, builds.others,
    builds.filled, builds.apart⟩

theorem trans (one : machine.Builds number fills frame middle between)
    (two : middle.Builds number more between later last) :
    machine.Builds number (fills ++ more) frame later last := by
  -- what the second part fills was not there for the first, and what the first filled is old for
  -- the second
  have first {slot : Nat} (member : slot ∈ fills) (absent : slot ∉ more) : ∃ cell : Nat,
      last.slots[slot]? = some (some cell) ∧ machine.memory.heap.size ≤ cell ∧
        cell < middle.memory.heap.size ∧ middle.memory.heap.cells[cell]? = some (.ref cell) := by
    obtain ⟨cell, held, new, unbound⟩ := one.filled slot member
    exact ⟨cell, (two.others slot absent).trans held, new, Heap.lt_size_of_getElem? unbound,
      unbound⟩
  have crossed {slot other : Nat} (member : slot ∈ fills) (absent : slot ∉ more)
    (filled : other ∈ more)
      (same : last.slots[slot]? = last.slots[other]?) : False := by
    obtain ⟨cell, held, -, old, -⟩ := first member absent
    obtain ⟨newer, at_other, new, -⟩ := two.filled other filled
    rw [held, at_other] at same
    cases same
    exact Nat.not_lt.2 new old
  refine ⟨two.environment, two.here, two.trail.trans one.trail, Nat.le_trans one.grown two.grown,
    fun address inside ↦ (two.kept address (Nat.lt_of_lt_of_le inside one.grown)).trans
      (one.kept address inside),
    fun slot absent ↦ ?_, fun slot member ↦ ?_, fun slot member other there same ↦ ?_⟩
  · rw [List.mem_append, not_or] at absent
    exact (two.others slot absent.2).trans (one.others slot absent.1)
  · by_cases filled : slot ∈ more
    · obtain ⟨cell, held, new, unbound⟩ := two.filled slot filled
      exact ⟨cell, held, Nat.le_trans one.grown new, unbound⟩
    · obtain ⟨cell, held, new, old, unbound⟩ :=
        first ((List.mem_append.1 member).resolve_right filled) filled
      exact ⟨cell, held, new, (two.kept cell old).trans unbound⟩
  · by_cases here : slot ∈ more
    · by_cases also : other ∈ more
      · exact two.apart slot here other also same
      · exact (crossed ((List.mem_append.1 there).resolve_right also) also here same.symm).elim
    · have older := (List.mem_append.1 member).resolve_right here
      by_cases also : other ∈ more
      · exact (crossed older here also same).elim
      · refine one.apart slot older other ((List.mem_append.1 there).resolve_right also) ?_
        rw [← two.others slot here, ← two.others other also, same]

end Machine.Builds

namespace Exec

variable {context : Context} {compiled : CompiledRule} {machine later : Machine} {number : Nat}
  {frame : Frame}

/-- A new variable in a place. -/
theorem builds_pushVar (current : machine.environment = some number)
    (here : machine.frames[number]? = some frame) {place : Place} {done : Unit}
    (stored : store place machine.memory.heap.size
      { machine with memory := { machine.memory with heap := machine.memory.heap.pushVar } } =
        .ok done later) :
    ∃ last, machine.Builds number place.slot?.toList frame later last := by
  have pushes :=
    Machine.Builds.push current here (.ref machine.memory.heap.size) machine.registers machine.mode
  cases place with
  | register index =>
    obtain ⟨-, rfl⟩ := setRegister_eq_ok.1 stored
    exact ⟨frame, pushes.of_registers _ _⟩
  | slot index =>
    obtain ⟨⟨found, held⟩, middle, first, second⟩ := bind_eq_ok.1 stored
    obtain ⟨environment, there, rfl⟩ := frame_eq_ok.1 first
    cases current.symm.trans environment
    cases here.symm.trans there
    simp only at second
    split at second
    · next room =>
      rw [modify_apply] at second
      cases second
      have at_slot : (frame.setSlot index machine.memory.heap.size).slots[index]? =
          some (some machine.memory.heap.size) := by simp [Frame.setSlot, room]
      refine ⟨frame.setSlot index machine.memory.heap.size, current, ?_, rfl, pushes.grown,
        pushes.kept,
        fun slot absent ↦ ?_, fun slot member ↦ ?_, fun slot member other there same ↦ ?_⟩
      · simp [Array.getElem?_modify, here]
      · have other : index ≠ slot := fun same ↦ absent (by simp [Place.slot?, same])
        exact Array.getElem?_setIfInBounds_ne other
      · obtain rfl : slot = index := by simpa [Place.slot?] using member
        exact ⟨_, at_slot, Nat.le_refl _, by simp [Heap.pushVar, Heap.getElem?_push]⟩
      · obtain rfl : slot = index := by simpa [Place.slot?] using member
        exact (by simpa [Place.slot?] using there : other = slot).symm
    · cases second

/-- An instruction that builds and ends well succeeds and builds. -/
theorem builds_execute {instruction : Instruction} (building : instruction.Building)
    (current : machine.environment = some number) (here : machine.frames[number]? = some frame)
    {success : Bool} (ended : execute context compiled instruction machine = .ok success later) :
    success = true ∧ ∃ last, machine.Builds number (Code.fills [instruction]) frame later last := by
  cases instruction with
  | putVariable place arg =>
    obtain ⟨address, pushed, one, ended⟩ := bind_eq_ok.1 ended
    obtain ⟨rfl, rfl⟩ := extend_eq_ok.1 one
    obtain ⟨_, stored, two, ended⟩ := bind_eq_ok.1 ended
    obtain ⟨_, last, three, ended⟩ := bind_eq_ok.1 ended
    obtain ⟨-, rfl⟩ := setRegister_eq_ok.1 three
    cases ended
    obtain ⟨last, builds⟩ := builds_pushVar current here two
    exact ⟨rfl, last, builds.of_registers _ _⟩
  | setVariable place =>
    obtain ⟨rfl, stored⟩ := setVariable_eq_ok ended
    exact ⟨rfl, builds_pushVar current here stored⟩
  | putValue place arg =>
    obtain ⟨address, loaded, one, rest⟩ := bind_eq_ok.1 ended
    cases eq_of_load one
    obtain ⟨_, stored, two, last⟩ := bind_eq_ok.1 rest
    obtain ⟨-, rfl⟩ := setRegister_eq_ok.1 two
    cases last
    exact ⟨rfl, frame, (Machine.Builds.refl current here).of_registers _ _⟩
  | putConstant constant arg =>
    obtain ⟨rfl, rfl⟩ := putConstant_eq_ok ended
    exact ⟨rfl, frame, .push current here _ _ _⟩
  | putStructure functor arg =>
    obtain ⟨rfl, rfl⟩ := putStructure_eq_ok ended
    refine ⟨rfl, frame, .of_heap current here ?_ (fun _ ↦
      Heap.getElem?_pushStructure_of_lt functor) _ _⟩
    rw [Heap.size_pushStructure]
    exact Nat.le_add_right _ _
  | setValue place =>
    obtain ⟨rfl, address, -, rfl⟩ := setValue_eq_ok ended
    exact ⟨rfl, frame, .push current here _ _ _⟩
  | setConstant constant =>
    obtain ⟨rfl, rfl⟩ := setConstant_eq_ok ended
    exact ⟨rfl, frame, .push current here _ _ _⟩
  | _ => exact building.elim

/-- Code that builds and ends well succeeds and builds. -/
theorem builds_runAll {code : Code} (building : ∀ instruction ∈ code, instruction.Building)
    (current : machine.environment = some number) (here : machine.frames[number]? = some frame)
    {success : Bool} (ended : runAll context compiled code machine = .ok success later) :
    success = true ∧ ∃ last, machine.Builds number (Code.fills code) frame later last := by
  induction code generalizing machine frame with
  | nil =>
    cases ended
    exact ⟨rfl, frame, .refl current here⟩
  | cons instruction code ih =>
    obtain ⟨first, others⟩ := List.forall_mem_cons.1 building
    obtain ⟨answer, middle, one, ended⟩ := bind_eq_ok.1 ended
    obtain ⟨rfl, between, builds⟩ := builds_execute first current here one
    obtain ⟨rfl, last, rest⟩ := ih others builds.environment builds.here ended
    refine ⟨rfl, last, ?_⟩
    have split : Code.fills (instruction :: code) = Code.fills [instruction] ++ Code.fills code :=
      List.filterMap_append (l := [instruction])
    rw [split]
    exact builds.trans rest

/-- Nothing that builds depends on what the machine runs against. -/
theorem runAll_building (other : Context) {code : Code}
    (building : ∀ instruction ∈ code, instruction.Building) :
    runAll context compiled code = runAll other compiled code := by
  induction code with
  | nil => rfl
  | cons instruction code ih =>
    obtain ⟨first, others⟩ := List.forall_mem_cons.1 building
    have same : execute context compiled instruction = execute other compiled instruction := by
      cases instruction with
      | putVariable | putValue | putConstant | putStructure
      | setVariable | setValue | setConstant => rfl
      | _ => exact first.elim
    rw [runAll, runAll, same, ih others]

end Exec

/-! ### Arguments in registers -/

/-- Only what stands in the given places. -/
def Bank.restrict (bank : Bank) (places : List Nat) : Bank :=
  bank.mapIdx fun index held ↦ if index ∈ places then held else none

private theorem Bank.restrict_eq_some {bank : Bank} {places : List Nat} {index : Nat}
    {address : Address} :
    (bank.restrict places)[index]? = some (some address) ↔
      index ∈ places ∧ bank[index]? = some (some address) := by
  rw [restrict, Array.getElem?_mapIdx, Option.map_eq_some_iff]
  by_cases kept : index ∈ places <;> simp [kept]

private theorem Bank.extends_restrict (bank : Bank) (places : List Nat) :
    bank.Extends (bank.restrict places) :=
  ⟨by simp [restrict], fun _ _ here ↦ (restrict_eq_some.1 here).2⟩

/-- The address that a place of the bank holds, or the first one if it holds none. -/
def Bank.held (bank : Bank) (index : Nat) : Address := bank[index]?.join.getD 0

private theorem Bank.held_of_getElem? {bank : Bank} {index : Nat} {address : Address}
    (here : bank[index]? = some (some address)) : bank.held index = address := by
  simp [held, here]

/-- A machine that built arguments: in each argument register stands the term that the argument is
once a variable met before is replaced by the term in its slot, and a new one by the unbound cell
that its slot was given. Nothing else changes on the heap, and nothing on the trail. -/
structure Machine.BuildsArgs (slotOf : Var → Nat) (met : List Var) (args : List Term) (number : Nat)
    (machine : Machine) (frame : Frame) (later : Machine) (last : Frame) (place : Var → Address) :
    Prop where
  environment : later.environment = some number
  here : later.frames[number]? = some last
  trail : later.memory.trail = machine.memory.trail
  kept : ∀ address : Nat, address < machine.memory.heap.size →
    later.memory.heap.cells[address]? = machine.memory.heap.cells[address]?
  formed : later.memory.heap.Formed (fun _ ↦ True) 0
  old : ∀ v ∈ met, frame.slots[slotOf v]? = some (some (place v)) ∧
    last.slots[slotOf v]? = some (some (place v))
  new : ∀ arg ∈ args, ∀ v ∈ arg.occurrences, v ∉ met →
    last.slots[slotOf v]? = some (some (place v)) ∧
    machine.memory.heap.size ≤ place v ∧ later.memory.heap.cells[place v]? = some (.ref (place v))
  apart : Set.InjOn place {v | (∃ arg ∈ args, v ∈ arg.occurrences) ∧ v ∉ met}
  args : ∀ (index : Nat) (arg : Term), args[index]? = some arg → ∃ address,
    later.registers[index]? = some (some address) ∧ ∀ free : Address → Term,
      later.memory.heap.filled free address = arg.eval fun v ↦
        if v ∈ met then machine.memory.heap.filled free (place v) else (free (place v)).tree

section Args

open Emit (State Slots Slotted goalArgs slotNumber slotsOf valueOf varsOf)

variable {slots : Slots} {vars : Set Var} {met : List Var} {state : State} {args : List Term}
    {context : Context}
  {compiled : CompiledRule} {machine : Machine} {number : Nat} {frame : Frame}

/-- Code that calls something with as many arguments, looks at slots and gives up. -/
def Code.calling (args : List Term) (slots : Slots) : Code :=
  .call (.predicate ⟨⟨0⟩, args.length⟩) :: Code.looking
    ((args.flatMap Term.occurrences).map (slotNumber slots))

/-- The point before the code of goal arguments, with the places of the variables met before. -/
def Point.beforeArgs (slots : Slots) (met : List Var) (state : State) (args : List Term)
    (machine : Machine) (frame : Frame) : Point :=
  ⟨machine.memory, (goalArgs slots 0 args state).1 ++ Code.calling args slots, machine.registers,
    Bank.restrict frame.slots (met.map (slotNumber slots)), machine.mode, 0⟩

private theorem Code.disciplined_calling {shape : Shape} {size : Nat} {registers filled : Set Nat}
    {building : Bool} {missing : Nat} (resumes : ∀ code, shape.resumes code) :
    Disciplined shape size (calling args slots) registers filled building missing ↔
      missing = 0 ∧ (∀ index < args.length, index ∈ registers) ∧
        ∀ arg ∈ args, ∀ v ∈ arg.occurrences, slotNumber slots v ∈ filled := by
  have looked : Disciplined shape size
    (looking ((args.flatMap Term.occurrences).map (slotNumber slots))) ∅ filled
      false 0 ↔ ∀ arg ∈ args, ∀ v ∈ arg.occurrences, slotNumber slots v ∈ filled := by
    simp only [disciplined_looking, true_and, List.forall_mem_map, List.mem_flatMap]
    exact ⟨fun each arg member v occurs ↦ each v ⟨arg, member, occurs⟩,
      fun each v ⟨arg, member, occurs⟩ ↦ each arg member v occurs⟩
  rw [← looked]
  exact ⟨fun ⟨between, read, _, later⟩ ↦ ⟨between, read, later⟩,
    fun ⟨between, read, later⟩ ↦ ⟨between, read, resumes _, later⟩⟩

private theorem Code.meaning_calling {D : Type} [Domain D] {η ρ : Nat → D} {values : List D}
    {goals : List (Task D)} :
    Meaning η (calling args slots) ρ values goals ↔
      goals = [.call ((List.range args.length).map ρ) (.predicate ⟨⟨0⟩, args.length⟩), .fail] := by
  constructor
  · rintro ⟨later, rfl, ρ, meaning⟩
    rw [(meaning_looking _).1 meaning]
    rfl
  · rintro rfl
    exact ⟨_, rfl, ρ, (meaning_looking _).2 rfl⟩

variable (apart : vars.InjOn (slotNumber slots)) (seen : ∀ v, v ∈ state.seen ↔ v ∈ met)
  (inside : ∀ v ∈ met, v ∈ vars) (known : varsOf args ⊆ vars)
  (formed : machine.memory.heap.Formed (fun _ ↦ True) 0)
  (held : ∀ v ∈ met, ∃ place : Nat, frame.slots[slotNumber slots v]? = some (some place) ∧
    place < machine.memory.heap.size)

include apart seen inside known formed held

/-- The point is one that the machine can be at. -/
theorem Point.valid_beforeArgs :
    (Point.beforeArgs slots met state args machine frame).Valid ⟨fun _ ↦ True, fun _ ↦ True⟩
      {index | index < 0} false := by
  have filled : (Bank.restrict frame.slots (met.map (slotNumber slots))).filled =
    slotsOf slots state.seen := by
    ext index
    simp only [Bank.filled, Bank.restrict_eq_some, slotsOf, Set.mem_ofPred_eq, List.mem_map, seen]
    constructor
    · rintro ⟨address, place, -⟩
      exact place
    · rintro ⟨v, member, rfl⟩
      obtain ⟨address, here, -⟩ := held v member
      exact ⟨address, ⟨v, member, rfl⟩, here⟩
  have advances := Emit.advances_goalArgs slots 0 args state
  refine ⟨?_, Point.formed_between ⟨fun _ ↦ True, fun _ ↦ True⟩ formed machine.mode,
    fun index lower ↦ absurd lower (Nat.not_lt_zero index), fun index address here ↦ ?_,
    fun _ _ none_missing ↦ absurd rfl none_missing, by simp⟩
  · simp only [beforeArgs, filled]
    refine Emit.disciplined_goalArgs apart (fun v member ↦ inside v ((seen v).1 member)) known
      (fun arg _ ↦ arg.allFunctors_true)
      ((Code.disciplined_calling fun _ ↦ trivial).2 ⟨rfl, fun index lower ↦ ?_,
        fun arg member v occurs ↦ ?_⟩)
    · exact (by omega : index < 0 + args.length)
    · exact ⟨v, (advances.seen v).2 (.inr ⟨arg, member, occurs⟩), rfl⟩
  · obtain ⟨place, there⟩ := Bank.restrict_eq_some.1 here
    obtain ⟨v, member, rfl⟩ := List.mem_map.1 place
    obtain ⟨address', again, lower⟩ := held v member
    cases there.symm.trans again
    exact lower

variable (narrow : args.length ≤ state.nextTemp)
    (named : (goalArgs slots 0 args state).2.used ≤ Emit.maxRegister)
  (bank : (goalArgs slots 0 args state).2.used ≤ machine.registers.size)
  (wide : args.length ≤ machine.registers.size)
  (slotted : Slotted slots frame.slots.size (varsOf args))
  (current : machine.environment = some number) (here : machine.frames[number]? = some frame)

omit apart seen inside known formed held in
include named narrow in
/-- After the code of goal arguments it is said that the registers hold their instances. -/
theorem Point.map_registers {next : Point}
    (leads : (Point.beforeArgs slots met state args machine frame).Leads Tree
      ⟨fun _ ↦ True, fun _ ↦ True⟩ next)
    (at_rest : next.code = Code.calling args slots) {θ : Valuation Tree}
    (solution : next.memory.heap.Solution θ) {η : Nat → Tree} (agrees : next.slots.Agrees θ η) :
    (List.range args.length).map (next.registers.values θ) = args.map (valueOf slots η) := by
  obtain ⟨registers, building, valid⟩ := leads.valid
  have disciplined := valid.disciplined
  rw [at_rest, Code.disciplined_calling fun _ ↦ trivial] at disciplined
  have said : next.Says θ η
      [.call ((List.range args.length).map (next.registers.values θ))
        (.predicate ⟨⟨0⟩, args.length⟩), .fail] := by
    rw [Point.says_between disciplined.1, at_rest, Code.meaning_calling]
    exact ⟨solution, agrees, rfl⟩
  have before := ((Point.says_between rfl).1 (leads.same.back θ η _ said)).2.2
  obtain ⟨change, changes, changed⟩ := Emit.changes_goalArgs (η := η) named
    (Nat.le_trans (Nat.le_of_eq (Nat.zero_add _)) narrow)
  have called := Code.meaning_calling.1 ((changes _ _ _).1 before)
  simp only [List.cons.injEq, Task.call.injEq, and_true] at called
  rw [called, List.range_eq_range', (changed _).1]

omit apart seen inside known formed held in
include current here in
/-- The machine is at the point. -/
theorem Point.shows_beforeArgs :
    machine.Shows number frame machine (Point.beforeArgs slots met state args machine frame) := by
  have own : machine.frames.setIfInBounds number frame = machine.frames := by
    refine Array.ext_getElem? fun other ↦ ?_
    rw [Array.getElem?_setIfInBounds]
    split
    · next same => rw [← same, if_pos (Array.getElem?_eq_some_iff.1 here).1, here]
    · rfl
  exact ⟨current, here, frame.slots, Bank.extends_restrict _ _,
    congrArg (fun frames ↦ { machine with frames }) own.symm⟩

/-- The code fills the slots of new variables. -/
theorem Point.slotNumber_mem_fills {v : Var} (occurs : v ∈ varsOf args) (fresh : v ∉ met) :
    slotNumber slots v ∈ Code.fills (goalArgs slots 0 args state).1 := by
  have valid := Point.valid_beforeArgs apart seen inside known formed held
  obtain ⟨_, _, _, rest⟩ := valid.disciplined.after_building (Emit.building_goalArgs 0 args state)
  rw [Code.disciplined_calling fun _ ↦ trivial] at rest
  obtain ⟨arg, member, occurs_arg⟩ := occurs
  -- a slot that the call may look at and that was not filled before is filled by the code
  refine (rest.2.2 arg member v occurs_arg).resolve_right ?_
  rintro ⟨address, there⟩
  obtain ⟨w, old, same⟩ := List.mem_map.1 (Bank.restrict_eq_some.1 there).1
  rw [apart (inside w old) (known ⟨arg, member, occurs_arg⟩) same] at old
  exact fresh old

section Ended

variable {later : Machine} {ends : Bank} {next : Point}
  (builds : machine.Builds number (Code.fills (goalArgs slots 0 args state).1) frame later
    { frame with slots := ends })
  (leads : (Point.beforeArgs slots met state args machine frame).Leads Tree
    ⟨fun _ ↦ True, fun _ ↦ True⟩ next)
  (wider : Bank.Extends ends next.slots)

omit apart seen inside known formed in
include leads wider in
/-- After the code the slot of a variable met before holds what it held. -/
theorem Point.held_of_mem {v : Var} (old : v ∈ met) :
    frame.slots[slotNumber slots v]? = some (some (ends.held (slotNumber slots v))) ∧
      ends[slotNumber slots v]? = some (some (ends.held (slotNumber slots v))) := by
  obtain ⟨address, there, -⟩ := held v old
  have still : ends[slotNumber slots v]? = some (some address) := wider.kept _ _
    (leads.slots.kept _ _ (Bank.restrict_eq_some.2 ⟨List.mem_map_of_mem old, there⟩))
  rw [Bank.held_of_getElem? still]
  exact ⟨there, still⟩

include builds in
/-- After the code the slot of a new variable holds an unbound cell that was added. -/
theorem Point.held_of_not_mem {v : Var} (occurs : v ∈ varsOf args) (fresh : v ∉ met) :
    ends[slotNumber slots v]? = some (some (ends.held (slotNumber slots v))) ∧
      machine.memory.heap.size ≤ ends.held (slotNumber slots v) ∧
      later.memory.heap.cells[ends.held (slotNumber slots v)]? =
        some (.ref (ends.held (slotNumber slots v))) := by
  obtain ⟨cell, there, added, unbound⟩ := builds.filled _
    (Point.slotNumber_mem_fills apart seen inside known formed held occurs fresh)
  rw [Bank.held_of_getElem? there]
  exact ⟨there, added, unbound⟩

variable (at_rest : next.code = Code.calling args slots) (memory : later.memory = next.memory)
  (registers : later.registers = next.registers)

include builds leads wider at_rest memory registers named narrow in
/-- After the code the arguments are built. -/
theorem Point.buildsArgs_of_leads :
    machine.BuildsArgs (slotNumber slots) met args number frame later
    { frame with slots := ends } fun v ↦ ends.held (slotNumber slots v) := by
  have met_before {v : Var} := @Point.held_of_mem _ _ _ _ _ _ held _ _ leads wider v
  have new {v : Var} := Point.held_of_not_mem apart seen inside known formed held builds (v := v)
  obtain ⟨_, _, valid⟩ := leads.valid
  have ended := valid.disciplined
  rw [at_rest, Code.disciplined_calling fun _ ↦ trivial] at ended
  obtain ⟨between, read, -⟩ := ended
  have grown : later.memory.heap.Formed (fun _ ↦ True) 0 := memory ▸ valid.formed_zero between
  refine ⟨builds.environment, builds.here, builds.trail, builds.kept, grown, fun v ↦ met_before,
    fun arg member v occurs ↦ new ⟨arg, member, occurs⟩, ?_, fun index arg at_index ↦ ?_⟩
  · rintro v ⟨occurs, fresh⟩ w ⟨occurs', fresh'⟩ (same : ends.held _ = ends.held _)
    have fills {v : Var} :=
      @Point.slotNumber_mem_fills _ _ _ _ _ _ _ apart seen inside known formed held v
    refine apart (known occurs) (known occurs')
      (builds.apart _ (fills occurs fresh) _ (fills occurs' fresh') ?_)
    rw [(new occurs fresh).1, (new occurs' fresh').1, same]
  · have lower : index < args.length := (List.getElem?_eq_some_iff.1 at_index).1
    obtain ⟨address, in_register, -⟩ := valid.registers index (read index lower)
    refine ⟨address, registers ▸ in_register, fun free ↦ ?_⟩
    have solution := grown.solution_filled free
    have values := Point.map_registers narrow named leads at_rest (memory ▸ solution)
      (η := Bank.values ends (later.memory.heap.filled free))
      fun slot address there ↦ Bank.values_of_getElem? (wider.kept slot address there)
    have value := congrArg (·[index]?) values
    simp only [List.getElem?_map, List.getElem?_range lower, at_index, Option.map_some,
      Option.some.injEq] at value
    rw [Bank.values_of_getElem? in_register] at value
    rw [value]
    refine Term.eval_congr fun v occurs ↦ ?_
    split
    · next old =>
      obtain ⟨before, still⟩ := met_before old
      obtain ⟨address, there, old_address⟩ := held v old
      cases there.symm.trans before
      rw [Bank.values_of_getElem? still]
      exact formed.filled_of_grown free grown builds.kept old_address
    · next fresh =>
      obtain ⟨there, -, unbound⟩ := new ⟨arg, List.mem_of_getElem? at_index, occurs⟩ fresh
      rw [Bank.values_of_getElem? there]
      exact Heap.filled_of_unbound free (Heap.value_of_free unbound)

end Ended

include named narrow bank wide slotted current here in
/-- The code of goal arguments, run in a frame whose slots hold the variables met before, builds
them. -/
theorem Exec.exists_runAll_goalArgs : ∃ later last place,
    runAll context compiled (goalArgs slots 0 args state).1 machine = .ok true later ∧
      machine.BuildsArgs (slotNumber slots) met args number frame later last place := by
  have building := @Emit.building_goalArgs slots 0 args state
  have valid := Point.valid_beforeArgs apart seen inside known formed held
  have within : Code.Within (Point.beforeArgs slots met state args machine frame).registers.size
      (Point.beforeArgs slots met state args machine frame).slots.size
        (goalArgs slots 0 args state).1 := by
    have size : (Point.beforeArgs slots met state args machine frame).slots.size =
      frame.slots.size :=
      (Bank.extends_restrict _ _).size.symm
    rw [size]
    exact Emit.within_goalArgs (by rwa [Nat.zero_add]) bank slotted
  -- code that builds runs the same under either policy
  obtain ⟨success, later, next, ends, run, shows, won, -⟩ := @Exec.exists_runAll Tree _
    { context with occursCheck := .off } compiled rfl _ _ _
    (fun instruction member ↦ (building instruction member).straight) _ _ _ _ _ _ within valid
    (Point.shows_beforeArgs current here) rfl
  rw [runAll_building context building] at run
  obtain ⟨rfl, last, builds⟩ := builds_runAll building current here run
  obtain ⟨leads, at_rest⟩ := won rfl
  obtain rfl : last = { frame with slots := ends } :=
    Option.some.inj (builds.here.symm.trans shows.here)
  exact ⟨later, _, _, run, Point.buildsArgs_of_leads apart seen inside known formed held narrow
    named builds
    leads shows.wider at_rest shows.memory shows.registers⟩

end Args

/-! ### Goals of a rule -/

/-- Whether an instruction calls something. -/
def Instruction.isCall : Instruction → Bool
  | .call _ => true
  | _ => false

private theorem Instruction.Building.isCall_eq_false {instruction : Instruction}
    (builds : instruction.Building) :
    instruction.isCall = false := by
  cases instruction with
  | call => exact builds.elim
  | _ => rfl

private theorem Instruction.Matching.isCall_eq_false {instruction : Instruction}
    (matching : instruction.Matching) :
    instruction.isCall = false := by
  cases instruction with
  | call => exact matching.elim
  | _ => rfl

private theorem Code.countP_isCall {code : Code}
    (none_calls : ∀ instruction ∈ code, instruction.isCall = false) :
    code.countP Instruction.isCall = 0 :=
  List.countP_eq_zero.2 fun instruction member ↦ by simp [none_calls instruction member]

namespace Emit

open Rule (Goal bodyCode goalVars)

private theorem goalVars_call (args : List Term) (target : Target) (goals : List Goal) :
    goalVars (.call args target :: goals) = varsOf args ∪ goalVars goals := by
  ext v
  constructor
  · rintro ⟨others, found, member, occurs⟩
    rcases List.mem_cons.1 member with same | later
    · cases same
      exact .inl occurs
    · exact .inr ⟨others, found, later, occurs⟩
  · rintro (occurs | ⟨others, found, later, occurs⟩)
    · exact ⟨args, target, List.mem_cons_self, occurs⟩
    · exact ⟨others, found, List.mem_cons_of_mem _ later, occurs⟩

/-- The code of a body is that of the goals before a goal, that of the goal's arguments, the call,
and the rest. -/
theorem exists_bodyCode (slots : Slots) (base : Nat) {goals : List Goal} {index : Nat}
    {args : List Term} {target : Target} (called : .fail ∉ goals.take index)
    (here : goals[index]? = some (.call args target)) (state : State) :
    ∃ before middle after,
      (bodyCode slots base goals state).1 =
        before ++ ((goalArgs slots 0 args { middle with nextTemp := base }).1 ++
          .call target :: after) ∧
      before.countP Instruction.isCall = index ∧ (∀ last ∈ before.getLast?, ¬last.Building) ∧
      Covers state middle (goalVars (goals.take index)) ∧
      (goalArgs slots 0 args { middle with nextTemp := base }).2.used ≤
        (bodyCode slots base goals state).2.used := by
  induction goals generalizing index state with
  | nil => cases here
  | cons goal goals ih =>
    cases index with
    | zero =>
      cases here
      have nothing : goalVars [] = ∅ := by
        ext v
        simp [goalVars]
      rw [bodyCode_call]
      exact ⟨[], state, _, rfl, rfl, nofun, nothing ▸ .refl state, used_bodyCode slots base goals _⟩
    | succ index =>
      rw [List.take_succ_cons, List.mem_cons, not_or] at called
      cases goal with
      | fail => exact absurd rfl called.1
      | call others found =>
        have one := advances_goalArgs slots 0 others { state with nextTemp := base }
        obtain ⟨before, middle, after, code, count, last, covers, used⟩ :=
          ih called.2 here (goalArgs slots 0 others { state with nextTemp := base }).2
        rw [bodyCode_call, List.take_succ_cons, goalVars_call]
        refine ⟨(goalArgs slots 0 others { state with nextTemp := base }).1 ++
          .call found :: before, middle, after, ?_, ?_, ?_, one.covers.trans covers, used⟩
        · simp only [code, List.append_assoc, List.cons_append]
        · have builds := @building_goalArgs slots 0 others { state with nextTemp := base }
          have none_calls :=
            Code.countP_isCall fun instruction member ↦ (builds instruction member).isCall_eq_false
          rw [List.countP_append, none_calls, List.countP_cons, count]
          simp [Instruction.isCall]
        · rw [List.getLast?_append, List.getLast?_cons]
          cases ended : before.getLast? with
          | none => simp [Instruction.Building]
          | some final =>
            rw [ended] at last
            simpa using last

end Emit

namespace Rule

open Emit (varsOf slotNumber)

/-- The variables met before a goal: those of the head and of the goals before it. -/
def varsBefore (rule : Rule) (index : Nat) : List Var :=
  rule.head.occurrences ++ (rule.body.take index).flatMap Term.occurrences

/-- What goals are resolved to: each keeps its arguments, and only `false` fails. -/
theorem forall₂_resolveGoals {signatures : Signatures} {head : Functor} {start : Nat}
    {body : List Term}
    {goals : List Goal} (ended : resolveGoals signatures head start body = .ok goals) :
    List.Forall₂ (fun goal resolved ↦ (∀ v, v ∈ goal.occurrences ↔ v ∈ varsOf goal.args) ∧
      (isFalse signatures.symbols goal = false →
        ∃ target, resolved = .call goal.args target)) body goals := by
  induction body generalizing start goals with
  | nil =>
    cases ended
    exact .nil
  | cons goal body ih =>
    obtain ⟨first, one, ended⟩ := Except.bind_eq_ok.1 ended
    obtain ⟨rest, two, ended⟩ := Except.bind_eq_ok.1 ended
    cases ended
    refine .cons ?_ (ih two)
    unfold resolveGoal at one
    split at one
    · cases one
    · next functor found =>
      refine ⟨(functor?_eq_some found).2, fun possible ↦ ?_⟩
      obtain ⟨-, -, one⟩ := Except.bind_eq_ok.1 one
      rw [if_neg (by simp [possible])] at one
      split at one
      · cases one
        exact ⟨_, rfl⟩
      · split at one
        · cases one
          exact ⟨_, rfl⟩
        · cases one

/-- Goals none of which is `false` are all called, and their variables are those of the calls. -/
theorem called_of_resolveGoals {symbols : SymbolTable} {body : List Term} {goals : List Goal}
    (resolved : List.Forall₂ (fun goal resolved ↦ (∀ v, v ∈ goal.occurrences ↔
      v ∈ varsOf goal.args) ∧
      (isFalse symbols goal = false → ∃ target, resolved = .call goal.args target)) body goals)
    (possible : ∀ goal ∈ body, isFalse symbols goal = false) :
    .fail ∉ goals ∧ ∀ v, v ∈ goalVars goals ↔ ∃ goal ∈ body, v ∈ goal.occurrences := by
  induction resolved with
  | nil => exact ⟨List.not_mem_nil, fun v ↦ by simp [goalVars]⟩
  | @cons goal _ body goals first _ ih =>
    obtain ⟨here, later⟩ := List.forall_mem_cons.1 possible
    obtain ⟨none_fails, vars⟩ := ih later
    obtain ⟨target, rfl⟩ := first.2 here
    refine ⟨by simpa using none_fails, fun v ↦ ?_⟩
    rw [Emit.goalVars_call, List.exists_mem_cons_iff, first.1 v, ← vars v]
    exact Iff.rfl

private theorem mem_varsBefore {rule : Rule} {index : Nat} {v : Var} :
    v ∈ rule.varsBefore index ↔
      v ∈ rule.head.occurrences ∨ ∃ goal ∈ rule.body.take index, v ∈ goal.occurrences := by
  rw [varsBefore, List.mem_append, List.mem_flatMap]

/-- The code of a rule is what comes before a goal, the code of the goal's arguments, the call, and
the rest. -/
theorem exists_goalArgs {rule : Rule} {signatures : Signatures} {head : Functor} {goals : List Goal}
    (found : rule.head.functor? = some head)
    (resolution : resolveGoals signatures head 0 rule.body = .ok goals)
    {index : Nat} {goal : Term} (here : rule.body[index]? = some goal)
    (reached : ∀ other ∈ rule.body.take (index + 1), isFalse signatures.symbols other = false) :
    ∃ before state target after,
      (rule.emit rule.vars.zipIdx goals).1 =
        before ++ ((Emit.goalArgs (.ofList rule.vars.zipIdx) 0 goal.args state).1 ++
          .call target :: after) ∧
      before.countP Instruction.isCall = index ∧ (∀ last ∈ before.getLast?, ¬last.Building) ∧
      (∀ v, v ∈ state.seen ↔ v ∈ rule.varsBefore index) ∧ state.nextTemp = rule.argumentCount ∧
      rule.argumentCount ≤ (Emit.goalArgs (.ofList rule.vars.zipIdx) 0 goal.args state).2.used ∧
      (Emit.goalArgs (.ofList rule.vars.zipIdx) 0 goal.args state).2.used ≤
        (rule.emit rule.vars.zipIdx goals).2 := by
  have resolved := forall₂_resolveGoals resolution
  obtain ⟨lower, same⟩ := List.getElem?_eq_some_iff.1 here
  obtain ⟨none_fails, goal_vars⟩ := called_of_resolveGoals (List.forall₂_take index resolved)
    fun other member ↦ reached other (List.take_subset_take_left _ (Nat.le_succ index) member)
  obtain ⟨target, at_index⟩ : ∃ target, goals[index]? = some (.call goal.args target) := by
    have rest := List.forall₂_drop index resolved
    rw [List.drop_eq_getElem_cons lower, same] at rest
    obtain ⟨_, _, first, -, split⟩ := List.forall₂_cons_left_iff.1 rest
    obtain ⟨target, rfl⟩ :=
      first.2 (reached goal (List.mem_take_iff_getElem.2 ⟨index, by omega, same⟩))
    exact ⟨target, by rw [← List.head?_drop, split]; rfl⟩
  have heads : Emit.Covers
      { nextTemp := rule.argumentCount, used := rule.argumentCount } rule.headEmission.2
      (varsOf rule.head.args) := Emit.covers_headArgs ..
  have matching : ∀ instruction ∈ rule.headEmission.1, instruction.Matching :=
    Emit.matching_headArgs _ _ _ _
  obtain ⟨before, middle, after, code, count, last, covers, used⟩ := Emit.exists_bodyCode
    (.ofList rule.vars.zipIdx) rule.argumentCount none_fails at_index rule.headEmission.2
  have covered := Nat.le_trans (Nat.le_trans heads.used covers.used)
    (Emit.advances_goalArgs (.ofList rule.vars.zipIdx) 0 goal.args
      { middle with nextTemp := rule.argumentCount }).used
  refine ⟨.allocate rule.vars.length :: (rule.headEmission.1 ++ before),
    { middle with nextTemp := rule.argumentCount }, target, after, ?_, ?_, ?_, fun v ↦ ?_, rfl,
      covered, used⟩
  · rw [emit_headEmission, List.cons_append, List.append_assoc, ← code]
  · rw [List.countP_cons, List.countP_append, count,
      Code.countP_isCall fun instruction member ↦ (matching instruction member).isCall_eq_false]
    simp [Instruction.isCall]
  · rw [← List.cons_append, List.getLast?_append]
    cases ended : before.getLast? with
    | some final =>
      rw [ended] at last
      simpa using last
    | none =>
      intro final at_end
      rw [Option.none_or] at at_end
      rcases List.mem_cons.1 (List.mem_of_getLast? at_end) with rfl | member
      · exact id
      · exact (matching final member).not_building
  · rw [covers.seen, heads.seen, goal_vars, mem_varsBefore, (functor?_eq_some found).2]
    simp

end Rule

/-- The places of variables may be told in another way. -/
theorem Machine.BuildsArgs.congr {slotOf slotOf' : Var → Nat} {met : List Var} {args : List Term}
    {number : Nat} {machine later : Machine} {frame last : Frame} {place : Var → Address}
    (builds : machine.BuildsArgs slotOf met args number frame later last place)
    (old : ∀ v ∈ met, slotOf v = slotOf' v)
    (new : ∀ arg ∈ args, ∀ v ∈ arg.occurrences, slotOf v = slotOf' v) :
    machine.BuildsArgs slotOf' met args number frame later last place :=
  { builds with
    old v member := old v member ▸ builds.old v member
    new arg member v occurs fresh :=
      new arg member v occurs ▸ builds.new arg member v occurs fresh }

/-- The code of a rule holds, for each goal of the body before the first `false`, a block of
instructions that build, in front of the call of the goal. On a machine with a well-formed heap that
stands in a frame for the rule, in which the slots of the variables met before hold addresses of the
heap, the block neither fails nor ends in a fault, and it builds the goal's arguments in the
argument registers. -/
theorem goal_code_builds_arguments {rule : Rule} {signatures : Signatures} {registers : Nat}
    {compiled : CompiledRule} (ended : rule.compile signatures registers = .ok compiled)
    (named : registers ≤ Emit.maxRegister) {index : Nat} {goal : Term}
    (here : rule.body[index]? = some goal) (reached : ∀ other ∈ rule.body.take (index + 1),
      Rule.isFalse signatures.symbols other = false) :
    ∃ before block target after,
      compiled.code.toList = before ++ (block ++ .call target :: after) ∧
      before.countP Instruction.isCall = index ∧ (∀ last ∈ before.getLast?, ¬last.Building) ∧
      (∀ instruction ∈ block, instruction.Building) ∧
      ∀ (context : Context) (machine : Machine) (number : Nat) (frame : Frame),
        machine.memory.heap.Formed (fun _ ↦ True) 0 → compiled.registers ≤ machine.registers.size →
        machine.environment = some number → machine.frames[number]? = some frame →
        frame.slots.size = compiled.frameSize →
        (∀ v ∈ rule.varsBefore index, ∃ place : Nat, frame.slots[rule.vars.idxOf v]? =
          some (some place) ∧
          place < machine.memory.heap.size) →
        ∃ later last place, Exec.runAll context compiled block machine = .ok true later ∧
          machine.BuildsArgs rule.vars.idxOf (rule.varsBefore index) goal.args number frame later
            last place := by
  obtain ⟨head, goals, found, resolution, few, rfl⟩ :=
    Rule.tryCompile_eq_ok (Rule.tryCompile_of_compile ended)
  have inside : goal ∈ rule.body := List.mem_of_getElem? here
  obtain ⟨before, state, target, after, code, count, last, seen, temps, covered, used⟩ :=
    Rule.exists_goalArgs found resolution here reached
  refine ⟨before, _, target, after, code, count, last, Emit.building_goalArgs 0 goal.args state,
    fun context machine number frame formed bank current at_number size held ↦ ?_⟩
  have old_vars (v : Var) (old : v ∈ rule.varsBefore index) : v ∈ rule.vars := by
    refine Rule.mem_vars.2 ((Rule.mem_varsBefore.1 old).imp_right ?_)
    rintro ⟨other, member, occurs⟩
    exact ⟨other, List.mem_of_mem_take member, occurs⟩
  have new_vars : Emit.varsOf goal.args ⊆ {v | v ∈ rule.vars} := by
    rintro v ⟨arg, member, occurs⟩
    refine Rule.mem_vars.2 (.inr ⟨goal, inside, ?_⟩)
    cases goal with
    | struct symbol args => exact Term.mem_occurrences_struct.2 ⟨arg, member, occurs⟩
    | atom | var | num => cases member
  have narrow : goal.args.length ≤ rule.argumentCount := (Rule.le_argumentCount rule).2 goal inside
  have slotted : Emit.Slotted (.ofList rule.vars.zipIdx) frame.slots.size
    (Emit.varsOf goal.args) := by
    intro v occurs
    rw [Emit.slotNumber_vars (new_vars occurs), size, CompiledRule.frameSize, List.length_zipIdx]
    exact List.idxOf_lt_length_of_mem (new_vars occurs)
  obtain ⟨later, last, place, run, builds⟩ :=
    @Exec.exists_runAll_goalArgs (.ofList rule.vars.zipIdx)
    {v | v ∈ rule.vars} (rule.varsBefore index) state goal.args context _ machine number frame
    Emit.slotNumber_injOn seen old_vars new_vars formed
    (fun v old ↦ Emit.slotNumber_vars (old_vars v old) ▸ held v old) (temps ▸ narrow)
    (Nat.le_trans used (Nat.le_trans few named)) (Nat.le_trans used bank)
    (Nat.le_trans narrow (Nat.le_trans covered (Nat.le_trans used bank))) slotted current at_number
  exact ⟨later, last, place, run, builds.congr (fun v old ↦ Emit.slotNumber_vars (old_vars v old))
    fun arg member v occurs ↦ Emit.slotNumber_vars (new_vars ⟨arg, member, occurs⟩)⟩

/-- The rule `p(X, Z) :- p(f(Y, g(Y, X)), Z)`, whose variable `Y` is met inside `g` first. -/
def Rule.grouped : Rule where
  head := .struct ⟨0⟩ [.var 0, .var 1]
  body := [.struct ⟨0⟩ [.struct ⟨1⟩ [.var 2, .struct ⟨2⟩ [.var 2, .var 0]], .var 1]]

/-- The rule with its code. -/
def CompiledRule.grouped : CompiledRule where
  rule := .grouped
  head := ⟨⟨0⟩, 2⟩
  code := #[
    .allocate 3, .getVariable (.slot 0) 0, .getVariable (.slot 1) 1, .putStructure ⟨⟨2⟩, 2⟩ 2,
    .setVariable (.slot 2), .setValue (.slot 0), .putStructure ⟨⟨1⟩, 2⟩ 0, .setValue (.slot 2),
    .setValue (.register 2), .putValue (.slot 1) 1, .call (.predicate ⟨⟨0⟩, 2⟩), .deallocate,
    .proceed]
  slots := [(0, 0), (1, 1), (2, 2)]
  registers := 3

private theorem Rule.vars_grouped : Rule.grouped.vars = [0, 1, 2] := rfl

private theorem Rule.compile_grouped (signatures : Signatures) :
    Rule.grouped.compile signatures 3 = .ok .grouped := rfl

/-- A machine in a frame for the rule, with `b` for `X` and a cyclic term for `Z` in the slots. -/
def Machine.grouped : Machine where
  registers := Array.replicate 3 none
  memory := { heap := .nested }
  frames := #[⟨#[some 7, some 4, none], .halt, none⟩]
  environment := some 0

/-- The arguments `f(Y, g(Y, X))` and `Z`, with a cyclic term for `Z`. -/
theorem goal_code_builds_grouped :
    (Rule.grouped.compile ⟨.empty, fun _ ↦ none⟩ 3 = .ok .grouped ∧
      Heap.nested.Formed (fun _ ↦ True) 0) ∧
    ∃ block later first second cell,
      Exec.runAll .nested .grouped block .grouped = .ok true later ∧
      later.registers[0]? = some (some first) ∧ later.registers[1]? = some (some second) ∧
      Heap.nested.size ≤ cell ∧ later.memory.heap.cells[cell]? = some (.ref cell) ∧
      ∀ free : Address → Term,
        later.memory.heap.filled free first = Domain.struct ⟨1⟩ [(free cell).tree,
          Domain.struct ⟨2⟩ [(free cell).tree, Domain.atom ⟨4⟩]] ∧
        later.memory.heap.filled free second = Heap.nested.filled free 4 := by
  have compiled := Rule.compile_grouped ⟨.empty, fun _ ↦ none⟩
  refine ⟨⟨compiled, Heap.formed_nested⟩, ?_⟩
  have met : Rule.grouped.varsBefore 0 = [0, 1] := rfl
  have held : ∀ v ∈ Rule.grouped.varsBefore 0, ∃ place : Nat,
      #[some 7, some 4, none][Rule.grouped.vars.idxOf v]? = some (some place) ∧
        place < Heap.nested.size := by
    rw [met, Rule.vars_grouped]
    exact List.forall_mem_cons.2 ⟨⟨7, rfl, by decide⟩,
      List.forall_mem_singleton.2 ⟨4, rfl, by decide⟩⟩
  obtain ⟨-, block, -, -, -, -, -, -, runs⟩ :=
    @goal_code_builds_arguments .grouped _ 3 .grouped compiled (by decide)
    0 _ rfl (by simp [Rule.grouped, Rule.isFalse])
  obtain ⟨later, last, place, run, builds⟩ :=
    runs .nested .grouped 0 ⟨#[some 7, some 4, none], .halt, none⟩
    Heap.formed_nested (by decide) rfl rfl rfl held
  obtain ⟨-, -, -, -, -, old, new, -, args⟩ := builds
  rw [met] at old new args
  simp only [Rule.vars_grouped] at old new
  have at_x : place 0 = 7 := by simpa using (old 0 (by decide)).1.symm
  have at_z : place 1 = 4 := by simpa using (old 1 (by decide)).1.symm
  obtain ⟨-, added, unbound⟩ := new _ List.mem_cons_self 2 (by simp) (by decide)
  obtain ⟨first, at_first, reads_first⟩ := args 0 _ rfl
  obtain ⟨second, at_second, reads_second⟩ := args 1 _ rfl
  refine ⟨block, later, first, second, place 2, run, at_first, at_second, added, unbound,
    fun free ↦ ⟨?_, ?_⟩⟩
  · have atom : Heap.nested.value 7 = .ok (7, .atom ⟨4⟩) := rfl
    have read := (Heap.formed_nested.solution_filled free).value atom
    simp [reads_first free, at_x, Term.eval_struct, Machine.grouped, read.2, Value.stands]
  · simp [reads_second free, at_z, Machine.grouped]

end HornMachine
