import HornMachine.Proofs.Machine.Restoration

/-!
# Machines that differ in what is not read

Two machines may differ in what no code reads before it fills it: registers above the arguments of a
call, slots that the code has not come to, whether the last structure was matched or built. What
matters of the frames is a set of slots. Main statement: a disciplined instruction that succeeds on
two machines that are otherwise alike gives the same on both and leads to disciplined code, with the
slots that it fills among those that matter.
-/

namespace HornMachine

open Code (Disciplined)

/-! ### Slots that matter -/

/-- What is in a slot of a frame. -/
def Frame.slotAt (frames : Array Frame) (number slot : Nat) : Option (Option Address) :=
  frames[number]?.bind (·.slots[slot]?)

/-- Arrays of frames that differ in what is in the slots only. -/
structure Frame.Shaped (frames others : Array Frame) : Prop where
  size : others.size = frames.size
  frame : ∀ (number : Nat) (frame : Frame), frames[number]? = some frame →
    ∃ slots, slots.size = frame.slots.size ∧ others[number]? = some { frame with slots }

namespace Frame.Shaped

variable {frames others lasts : Array Frame}

theorem refl (frames : Array Frame) : Shaped frames frames :=
  ⟨rfl, fun _ frame here ↦ ⟨frame.slots, rfl, here⟩⟩

theorem trans (one : Shaped frames others) (two : Shaped others lasts) : Shaped frames lasts := by
  refine ⟨two.size.trans one.size, fun number frame here ↦ ?_⟩
  obtain ⟨middle, size, there⟩ := one.frame number frame here
  obtain ⟨slots, same, last⟩ := two.frame number _ there
  exact ⟨slots, same.trans size, last⟩

theorem symm (shaped : Shaped frames others) : Shaped others frames := by
  refine ⟨shaped.size.symm, fun number frame here ↦ ?_⟩
  have inside : number < frames.size := shaped.size ▸ (Array.getElem?_eq_some_iff.1 here).1
  obtain ⟨slots, size, there⟩ := shaped.frame number _ (Array.getElem?_eq_getElem inside)
  cases there.symm.trans here
  exact ⟨_, size.symm, Array.getElem?_eq_getElem inside⟩

theorem modify (frames : Array Frame) (number index : Nat) (address : Address) :
    Shaped frames (frames.modify number (·.setSlot index address)) := by
  refine ⟨by simp, fun other frame here ↦ ?_⟩
  rw [Array.getElem?_modify]
  split
  · exact ⟨_, Array.size_setIfInBounds, by rw [here]; rfl⟩
  · exact ⟨frame.slots, rfl, here⟩

end Frame.Shaped

/-- What is in the slots once one of them is filled. -/
theorem Frame.slotAt_modify {frames : Array Frame} {number index : Nat} {address : Address}
    {frame : Frame}
    (here : frames[number]? = some frame) (room : index < frame.slots.size) (other slot : Nat) :
    slotAt (frames.modify number (·.setSlot index address)) other slot =
      if (other, slot) = (number, index) then some (some address)
        else slotAt frames other slot := by
  have inside : index < (frame.slots.setIfInBounds index (some address)).size := by
    rwa [Array.size_setIfInBounds]
  unfold slotAt
  rw [Array.getElem?_modify]
  by_cases same : number = other
  · subst same
    rw [if_pos rfl, here]
    by_cases here_too : index = slot
    · subst here_too
      simp [setSlot, room]
    · simp [setSlot, Array.getElem?_setIfInBounds_ne here_too, Ne.symm here_too]
  · rw [if_neg same, if_neg fun pair ↦ same (Prod.ext_iff.1 pair).1.symm]

/-- Arrays of frames that hold the same in the slots that matter. -/
structure Frame.Matches (live : Set (Nat × Nat)) (frames others : Array Frame) : Prop extends
    Frame.Shaped frames others where
  slots : ∀ number slot, (number, slot) ∈ live →
    slotAt others number slot = slotAt frames number slot

namespace Frame.Matches

variable {live : Set (Nat × Nat)} {frames others : Array Frame}

/-- Both are given one more frame. -/
theorem push (matched : Matches live frames others) (frame : Frame) :
    Matches live (frames.push frame) (others.push frame) := by
  have size := matched.size
  refine ⟨⟨by simp [size], fun number found here ↦ ?_⟩, fun number slot member ↦ ?_⟩
  · rw [Array.getElem?_push] at here ⊢
    split at here
    · next last =>
      cases here
      exact ⟨_, rfl, by rw [if_pos (last.trans size.symm)]⟩
    · next older =>
      rw [if_neg (size ▸ older)]
      exact matched.frame number found here
  · have kept := matched.slots number slot member
    unfold slotAt at kept ⊢
    rw [Array.getElem?_push, Array.getElem?_push, size]
    split
    · rfl
    · exact kept

/-- In both a slot is given the same address. -/
theorem modify (matched : Matches live frames others) {number index : Nat} {address : Address}
    {frame : Frame} (here : frames[number]? = some frame) (room : index < frame.slots.size) :
    Matches (insert (number, index) live) (frames.modify number (·.setSlot index address))
      (others.modify number (·.setSlot index address)) := by
  obtain ⟨slots, size, there⟩ := matched.frame number frame here
  refine ⟨((Shaped.modify ..).symm.trans matched.toShaped).trans (Shaped.modify ..),
    fun other slot member ↦ ?_⟩
  rw [slotAt_modify here room, slotAt_modify there (size ▸ room)]
  split
  · rfl
  · next apart => exact matched.slots other slot (member.resolve_left apart)

end Frame.Matches

/-- The slots that a rule's code fills before an offset. -/
def CompiledRule.filledBefore (compiled : CompiledRule) (offset : Nat) : Set Nat :=
  {slot | ∃ index < offset, ∃ instruction ∈ compiled.code[index]?, slot ∈ instruction.slot?}

theorem CompiledRule.filledBefore_succ {compiled : CompiledRule} {offset : Nat}
    {instruction : Instruction} (here : compiled.code[offset]? = some instruction) :
    compiled.filledBefore (offset + 1) =
      {slot | slot ∈ instruction.slot?} ∪ compiled.filledBefore offset := by
  ext slot
  constructor
  · rintro ⟨index, lower, found, there, filled⟩
    obtain earlier | rfl := Nat.lt_succ_iff_lt_or_eq.1 lower
    · exact .inr ⟨index, earlier, found, there, filled⟩
    · cases here.symm.trans there
      exact .inl filled
  · rintro (filled | ⟨index, lower, found, there, filled⟩)
    · exact ⟨offset, Nat.lt_succ_self _, instruction, here, filled⟩
    · exact ⟨index, Nat.lt_succ_of_lt lower, found, there, filled⟩

/-- The slots filled once a place is. -/
theorem Place.slotsWith_eq (place : Place) (slots : Set Nat) :
    place.slotsWith slots = {slot | slot ∈ place.slot?} ∪ slots := by
  cases place with
  | register index => simp [slot?, slotsWith]
  | slot index =>
    ext slot
    simp [slot?, slotsWith, eq_comm]

/-- The slots that matter once a place is filled. -/
def Place.liveWith (number : Nat) (live : Set (Nat × Nat)) : Place → Set (Nat × Nat)
  | .register _ => live
  | .slot index => insert (number, index) live

private theorem Place.subset_liveWith {number : Nat} {live : Set (Nat × Nat)} (place : Place) :
    live ⊆ place.liveWith number live := by
  cases place with
  | register index => exact subset_rfl
  | slot index => exact Set.subset_insert _ _

/-- The slots of a frame that matter. -/
def Frame.liveIn (live : Set (Nat × Nat)) (number : Nat) : Set Nat := {slot | (number, slot) ∈ live}

private theorem Place.slotsWith_subset {number : Nat} {live : Set (Nat × Nat)} {slots : Set Nat}
    (own : slots ⊆ Frame.liveIn live number) (place : Place) :
    place.slotsWith slots ⊆ Frame.liveIn (place.liveWith number live) number := by
  cases place with
  | register index => exact own
  | slot index => exact Set.insert_subset (Set.mem_insert _ _) fun slot member ↦ .inr (own member)

/-- The rules that wait for a rule to be done can go on, and what they read matters. -/
inductive Program.Waiting (program : Program) (frames : Array Frame) (live : Set (Nat × Nat)) :
    Continuation → Option Nat → Prop
  | halt {environment : Option Nat} : Waiting program frames live .halt environment
  | goTo {rule : RuleId} {compiled : CompiledRule} {offset number : Nat} {frame : Frame}
    (found : program.rule? rule = some compiled) (here : frames[number]? = some frame)
    (sized : frame.slots.size = compiled.frameSize)
    (disciplined : Disciplined (program.shape fun _ ↦ True) compiled.frameSize
      (compiled.code.toList.drop offset) ∅ (compiled.filledBefore offset) false 0)
    (read : compiled.filledBefore offset ⊆ Frame.liveIn live number)
    (below : Waiting program frames live frame.continuation frame.previous) :
    Waiting program frames live (.goTo rule offset) (some number)

namespace Program.Waiting

variable {program : Program} {frames later : Array Frame} {live more : Set (Nat × Nat)}
  {continuation : Continuation} {environment : Option Nat}

/-- What a rule that waits reads is among the slots that matter. -/
theorem mem_live (waits : program.Waiting frames live continuation environment) {rule : RuleId}
    {offset number : Nat} (awaits : Frame.Awaits frames continuation environment rule offset number)
    {compiled : CompiledRule} (found : program.rule? rule = some compiled) :
    compiled.filledBefore offset ⊆ Frame.liveIn live number := by
  induction waits with
  | halt => cases awaits
  | goTo at_rule here sized disciplined read below ih =>
    cases awaits with
    | caller =>
      cases at_rule.symm.trans found
      exact read
    | above there awaits =>
      cases here.symm.trans there
      exact ih awaits

/-- What is in the slots does not matter to that, nor do slots that no rule that waits reads. -/
theorem restrict (waits : program.Waiting frames live continuation environment)
    (shaped : Frame.Shaped frames later) (covered : ∀ (rule : RuleId) (offset number : Nat)
      (compiled : CompiledRule), Frame.Awaits frames continuation environment rule offset number →
      program.rule? rule = some compiled →
        compiled.filledBefore offset ⊆ Frame.liveIn more number) :
    program.Waiting later more continuation environment := by
  induction waits with
  | halt => exact .halt
  | goTo found here sized disciplined read _ ih =>
    obtain ⟨slots, size, there⟩ := shaped.frame _ _ here
    exact .goTo found there (size.trans sized) disciplined (covered _ _ _ _ .caller found)
      (ih fun rule offset number compiled awaits ↦
        covered rule offset number compiled (.above here awaits))

theorem congr (waits : program.Waiting frames live continuation environment)
    (shaped : Frame.Shaped frames later) (larger : live ⊆ more) :
    program.Waiting later more continuation environment :=
  waits.restrict shaped fun _ _ _ _ awaits found _ member ↦
    larger (waits.mem_live awaits found member)

/-- Nor do frames that were opened since. -/
theorem push (waits : program.Waiting frames live continuation environment) (frame : Frame) :
    program.Waiting (frames.push frame) live continuation environment := by
  induction waits with
  | halt => exact .halt
  | goTo found here sized disciplined read _ ih =>
    refine .goTo found ?_ sized disciplined read ih
    rw [Array.getElem?_push_lt (Array.getElem?_eq_some_iff.1 here).1,
      ← Array.getElem?_eq_getElem, here]

end Program.Waiting

/-! ### Machines that differ in what is not read -/

namespace Machine

/-- Two machines that hold the same in the registers and slots that matter. While arguments of a
structure are to come they are `tied`: both match it or both build it. -/
structure Alike (live : Set (Nat × Nat)) (registers : Set Nat) (tied : Prop)
    (machine other : Machine) :
    Prop where
  memory : other.memory = machine.memory
  environment : other.environment = machine.environment
  continuation : other.continuation = machine.continuation
  frames : Frame.Matches live machine.frames other.frames
  registers : ∀ index ∈ registers, other.registers[index]? = machine.registers[index]?
  mode : tied → other.mode = machine.mode

theorem Alike.refl (live : Set (Nat × Nat)) (registers : Set Nat) (tied : Prop)
    (machine : Machine) :
    machine.Alike live registers tied machine :=
  ⟨rfl, rfl, rfl, ⟨.refl _, fun _ _ _ ↦ rfl⟩, fun _ _ ↦ rfl, fun _ ↦ rfl⟩

/-- A machine that differs from an earlier one only in its data: memory, registers, slots, the
treatment of the structure at hand, and what is counted. -/
structure Moved (base machine : Machine) : Prop where
  rest : machine = { base with
    memory := machine.memory, registers := machine.registers, frames := machine.frames,
    mode := machine.mode
    stats := machine.stats }
  shaped : Frame.Shaped base.frames machine.frames

theorem Moved.refl (machine : Machine) : machine.Moved machine := ⟨rfl, .refl _⟩

theorem Moved.field {base machine : Machine} (moved : base.Moved machine) {α : Type}
    (field : Machine → α) :
    field machine = field { base with
      memory := machine.memory, registers := machine.registers, frames := machine.frames,
      mode := machine.mode
      stats := machine.stats } :=
  congrArg field moved.rest

private theorem Moved.data {base machine : Machine} (moved : base.Moved machine) (memory : Memory)
    (registers : Bank) (mode : Mode) (stats : Statistics) :
    base.Moved { machine with memory, registers, mode, stats } :=
  ⟨congrArg (fun machine : Machine ↦ { machine with memory, registers, mode, stats }) moved.rest,
    moved.shaped⟩

theorem Moved.slots {base machine : Machine} (moved : base.Moved machine) {frames : Array Frame}
    (shaped : Frame.Shaped machine.frames frames) : base.Moved { machine with frames } :=
  ⟨congrArg (fun machine : Machine ↦ { machine with frames }) moved.rest, moved.shaped.trans shaped⟩

/-- Two machines that hold the same where it matters, on their way from two earlier ones. -/
structure Along (base twin : Machine) (live : Set (Nat × Nat)) (registers : Set Nat) (tied : Prop)
    (machine other : Machine) : Prop extends Alike live registers tied machine other where
  left : base.Moved machine
  right : twin.Moved other

end Machine

/-! ### Operations -/

namespace Exec

open Machine (Along)

variable {base twin : Machine} {live : Set (Nat × Nat)} {registers : Set Nat} {tied : Prop}
    {number : Nat}

private theorem parallel_register {index : Nat} (member : index ∈ registers) :
    Parallel (Along base twin live registers tied) (register index) fun _ ↦
      Along base twin live registers tied := by
  intro machine other along _ _ _ _ ended ended'
  obtain ⟨here, rfl⟩ := register_eq_ok.1 ended
  obtain ⟨there, rfl⟩ := register_eq_ok.1 ended'
  rw [along.registers index member, here] at there
  cases there
  exact ⟨rfl, along⟩

private theorem parallel_setRegister (index : Nat) (address : Address) :
    Parallel (Along base twin live registers tied) (setRegister index address) fun _ ↦
      Along base twin live (insert index registers) tied := by
  intro machine other along _ _ _ _ ended ended'
  obtain ⟨room, rfl⟩ := setRegister_eq_ok.1 ended
  obtain ⟨room', rfl⟩ := setRegister_eq_ok.1 ended'
  refine ⟨rfl, { along with
    registers := fun held member ↦ ?_
    left := along.left.data _ _ _ _
    right := along.right.data _ _ _ _ }⟩
  rw [Bank.getElem?_fill room, Bank.getElem?_fill room']
  split
  · rfl
  · next apart => exact along.registers held (member.resolve_left (Ne.symm apart))

private theorem store_slot_eq_ok {index : Nat} {address : Address} {machine later : Machine}
    {done : Unit} :
    store (.slot index) address machine = .ok done later ↔
      ∃ number frame, machine.environment = some number ∧ machine.frames[number]? = some frame ∧
        index < frame.slots.size ∧ later =
          { machine with frames := machine.frames.modify number (·.setSlot index address) } := by
  constructor
  · intro ended
    obtain ⟨⟨number, frame⟩, middle, first, second⟩ := bind_eq_ok.1 ended
    obtain ⟨environment, here, rfl⟩ := frame_eq_ok.1 first
    dsimp only at second
    split at second
    · next room =>
      cases second
      exact ⟨number, frame, environment, here, room, rfl⟩
    · cases second
  · rintro ⟨number, frame, environment, here, room, rfl⟩
    refine bind_eq_ok.2 ⟨(number, frame), machine, frame_eq_ok.2 ⟨environment, here, rfl⟩, ?_⟩
    dsimp only
    rw [if_pos room]
    rfl

private theorem parallel_store (here : base.environment = some number) (place : Place)
    (address : Address) :
    Parallel (Along base twin live registers tied) (store place address) fun _ ↦
      Along base twin (place.liveWith number live) (place.registersWith registers) tied := by
  cases place with
  | register index => exact parallel_setRegister index address
  | slot index =>
    intro machine other along _ _ _ _ ended ended'
    obtain ⟨at_number, frame, environment, at_frame, room, rfl⟩ := store_slot_eq_ok.1 ended
    obtain ⟨at_number', frame', environment', -, -, rfl⟩ := store_slot_eq_ok.1 ended'
    cases ((along.left.field Machine.environment).trans here).symm.trans environment
    cases (along.environment.trans environment).symm.trans environment'
    exact ⟨rfl, { along with
      frames := along.frames.modify at_frame room
      left := along.left.slots (.modify ..)
      right := along.right.slots (.modify ..) }⟩

private theorem parallel_load (here : base.environment = some number) {place : Place}
    (filled : place.Filled registers (Frame.liveIn live number)) :
    Parallel (Along base twin live registers tied) (load place) fun _ ↦
      Along base twin live registers tied := by
  cases place with
  | register index => exact parallel_register filled
  | slot index =>
    intro machine other along _ _ _ _ ended ended'
    obtain ⟨⟨at_number, frame⟩, _, first, second⟩ := bind_eq_ok.1 ended
    obtain ⟨⟨at_number', frame'⟩, _, first', second'⟩ := bind_eq_ok.1 ended'
    obtain ⟨environment, at_frame, rfl⟩ := frame_eq_ok.1 first
    obtain ⟨environment', at_frame', rfl⟩ := frame_eq_ok.1 first'
    cases ((along.left.field Machine.environment).trans here).symm.trans environment
    cases (along.environment.trans environment).symm.trans environment'
    have same := along.frames.slots number index filled
    simp only [Frame.slotAt, at_frame, at_frame', Option.bind_some] at same
    simp only [same] at second'
    rcases held : frame.slots[index]? with _ | _ | address
    · simp [held, throw_apply] at second
    · simp [held, throw_apply] at second
    · simp only [held, pure_apply] at second second'
      cases second
      cases second'
      exact ⟨rfl, along⟩

private theorem parallel_onMemory {α : Type} (operation : Memory → Except Fault α × Memory) :
    Parallel (Along base twin live registers tied) (onMemory operation) fun _ ↦
      Along base twin live registers tied := by
  intro machine other along _ _ _ _ ended ended'
  obtain ⟨memory, run, rfl⟩ := onMemory_eq_ok.1 ended
  obtain ⟨memory', run', rfl⟩ := onMemory_eq_ok.1 ended'
  rw [along.memory, run] at run'
  cases run'
  exact ⟨rfl, { along with
    memory := rfl
    left := along.left.data _ _ _ _
    right := along.right.data _ _ _ _ }⟩

private theorem parallel_extend (operation : Heap → Heap) :
    Parallel (Along base twin live registers tied) (extend operation) fun _ ↦
      Along base twin live registers tied := by
  intro machine other along _ _ _ _ ended ended'
  obtain ⟨rfl, rfl⟩ := extend_eq_ok.1 ended
  obtain ⟨rfl, rfl⟩ := extend_eq_ok.1 ended'
  rw [along.memory]
  exact ⟨rfl, { along with
    memory := rfl
    left := along.left.data _ _ _ _
    right := along.right.data _ _ _ _ }⟩

private theorem parallel_value (address : Address) :
    Parallel (Along base twin live registers tied) (Exec.value address) fun _ ↦
      Along base twin live registers tied := by
  rintro machine other along ⟨_, _⟩ _ ⟨_, _⟩ _ ended ended'
  obtain ⟨read, rfl⟩ := value_eq_ok.1 ended
  obtain ⟨read', rfl⟩ := value_eq_ok.1 ended'
  rw [along.memory, read] at read'
  cases read'
  exact ⟨rfl, along⟩

private theorem parallel_bind (address target : Address) :
    Parallel (Along base twin live registers tied) (Exec.bind address target) fun _ ↦
      Along base twin live registers tied := by
  intro machine other along _ _ _ _ ended ended'
  obtain ⟨-, rfl⟩ := bind_eq_ok_assign.1 ended
  obtain ⟨-, rfl⟩ := bind_eq_ok_assign.1 ended'
  exact ⟨rfl, { along with
    memory := by rw [along.memory]
    left := along.left.data _ _ _ _
    right := along.right.data _ _ _ _ }⟩

private theorem parallel_mode (mode : Mode) {now : Prop} :
    Parallel (Along base twin live registers tied) (modify ({ · with mode }) : Exec Unit) fun _ ↦
      Along base twin live registers now :=
  parallel_modify fun _ _ along ↦ { along with
    mode := fun _ ↦ rfl
    left := along.left.data _ _ _ _
    right := along.right.data _ _ _ _ }

private theorem parallel_matchConstant (address : Address) (constant : Constant) :
    Parallel (Along base twin live registers tied) (matchConstant address constant) fun _ ↦
      Along base twin live registers tied := by
  refine (parallel_value address).bind fun ⟨found, value⟩ ↦ ?_
  cases value with
  | unbound =>
    exact (parallel_extend _).bind fun target ↦ (parallel_bind found target).bind fun _ ↦
      parallel_pure fun _ _ along ↦ along
  | compound | atom | num => exact parallel_pure fun _ _ along ↦ along

private theorem parallel_getStructure (functor : Functor) {arg : Nat} (member : arg ∈ registers) :
    Parallel (Along base twin live registers tied) (getStructure functor arg)
      fun success machine other ↦
      success = true → Along base twin live registers True machine other := by
  refine (parallel_register member).bind fun address ↦
    (parallel_value address).bind fun ⟨found, value⟩ ↦ ?_
  cases value with
  | unbound =>
    exact (parallel_extend _).bind fun target ↦ (parallel_bind found target).bind fun _ ↦
      (parallel_mode _).bind fun _ ↦ parallel_pure fun _ _ along _ ↦ along
  | compound other header =>
    dsimp only
    split
    · exact (parallel_mode _).bind fun _ ↦ parallel_pure fun _ _ along _ ↦ along
    · exact parallel_pure fun _ _ _ ↦ nofun
  | atom | num => exact parallel_pure fun _ _ _ ↦ nofun

/-- What is done next depends on how the structure at hand is treated. -/
theorem parallel_get_mode {α : Type} {next : Machine → Exec α}
    {after : α → Machine → Machine → Prop}
    (tie : tied) (each : ∀ machine other : Machine, other.mode = machine.mode →
      next other = next machine ∧
      Parallel (Along base twin live registers tied) (next machine) after) :
    Parallel (Along base twin live registers tied) (get >>= next) after := by
  intro machine other along value last value' last' ended ended'
  obtain ⟨same, parallel⟩ := each machine other (along.mode tie)
  rw [bind_apply, get_apply] at ended ended'
  dsimp only at ended ended'
  rw [same] at ended'
  exact parallel along ended ended'

/-! ### Instructions -/

section Instructions

variable {context : Context} {compiled : CompiledRule} {shape : Code.Shape} {size : Nat}
    {code : Code}
  {slots kept : Set Nat} {building built : Bool} {missing left : Nat}
  {before : Machine → Machine → Prop} {run : Exec Bool}

/-- A computation that succeeds on both leads to disciplined code, with the given slots filled. -/
def Continues (base twin : Machine) (number : Nat) (shape : Code.Shape) (size : Nat) (code : Code)
    (live : Set (Nat × Nat)) (slots : Set Nat) (before : Machine → Machine → Prop)
    (run : Exec Bool) : Prop :=
  ∃ more kept built left, slots ⊆ Frame.liveIn more number ∧ live ⊆ more ∧
    Disciplined shape size code kept slots built left ∧
    Parallel before run fun success machine other ↦
      success = true → Along base twin more kept (left ≠ 0) machine other

/-- The structure at hand does not matter where none is. -/
theorem along_loose {machine other : Machine} {now : Prop} (weaker : now → tied)
    (along : Along base twin live registers tied machine other) :
    Along base twin live registers now machine other :=
  { along with mode := fun held ↦ along.mode (weaker held) }

private theorem continues_plain (own : slots ⊆ Frame.liveIn live number)
    (disciplined : Disciplined shape size code kept slots built left)
    (parallel : Parallel before run fun success machine other ↦
      success = true → Along base twin live kept (left ≠ 0) machine other) :
    Continues base twin number shape size code live ({slot | slot ∈ (none : Option Nat)} ∪ slots)
      before run := by
  rw [show ({slot | slot ∈ (none : Option Nat)} ∪ slots) = slots by simp]
  exact ⟨live, kept, built, left, own, subset_rfl, disciplined, parallel⟩

private theorem continues_place (own : slots ⊆ Frame.liveIn live number) (place : Place)
    (disciplined : Disciplined shape size code kept (place.slotsWith slots) built left)
    (parallel : Parallel before run fun success machine other ↦
      success = true → Along base twin (place.liveWith number live) kept (left ≠ 0) machine other) :
    Continues base twin number shape size code live ({slot | slot ∈ place.slot?} ∪ slots)
      before run := by
  rw [← place.slotsWith_eq]
  exact ⟨_, kept, built, left, place.slotsWith_subset own, place.subset_liveWith,
    disciplined, parallel⟩

variable (here : base.environment = some number) (own : slots ⊆ Frame.liveIn live number)

include own in
private theorem filled_of_own {place : Place} (filled : place.Filled registers slots) :
    place.Filled registers (Frame.liveIn live number) := by
  cases place with
  | register index => exact filled
  | slot index => exact own filled

include here own

private theorem continues_getVariable {place : Place} {arg : Nat}
    (disciplined : Disciplined shape size (.getVariable place arg :: code) registers slots
      building missing) :
    Continues base twin number shape size code live ({slot | slot ∈ place.slot?} ∪ slots)
      (Along base twin live registers (missing ≠ 0))
      (execute context compiled (.getVariable place arg)) := by
  obtain ⟨-, read, -, later⟩ := disciplined
  refine continues_place own place later ?_
  exact (parallel_register read).bind fun address ↦ (parallel_store here place address).bind fun _ ↦
    parallel_pure fun _ _ along _ ↦ along_loose (by simp) along

private theorem continues_getValue {place : Place} {arg : Nat}
    (disciplined : Disciplined shape size (.getValue place arg :: code) registers slots
      building missing) :
    Continues base twin number shape size code live ({slot | slot ∈ (none : Option Nat)} ∪ slots)
      (Along base twin live registers (missing ≠ 0))
      (execute context compiled (.getValue place arg)) := by
  obtain ⟨-, read, filled, later⟩ := disciplined
  refine continues_plain own later ?_
  exact (parallel_load here (filled_of_own own filled)).bind fun _ ↦
    (parallel_register read).bind fun _ ↦
    (parallel_onMemory _).mono fun _ _ _ along _ ↦ along_loose (by simp) along

omit here in
private theorem continues_getConstant {constant : Constant} {arg : Nat}
    (disciplined : Disciplined shape size (.getConstant constant arg :: code) registers slots
      building missing) :
    Continues base twin number shape size code live ({slot | slot ∈ (none : Option Nat)} ∪ slots)
      (Along base twin live registers (missing ≠ 0))
      (execute context compiled (.getConstant constant arg)) := by
  obtain ⟨-, read, later⟩ := disciplined
  refine continues_plain own later ?_
  exact (parallel_register read).bind fun address ↦
    (parallel_matchConstant address constant).mono fun _ _ _ along _ ↦ along_loose (by simp) along

omit here in
private theorem continues_getStructure {functor : Functor} {arg : Nat}
    (disciplined : Disciplined shape size (.getStructure functor arg :: code) registers slots
      building missing) :
    Continues base twin number shape size code live ({slot | slot ∈ (none : Option Nat)} ∪ slots)
      (Along base twin live registers (missing ≠ 0))
      (execute context compiled (.getStructure functor arg)) := by
  obtain ⟨-, read, -, later⟩ := disciplined
  refine continues_plain own later ?_
  exact (parallel_getStructure functor read).mono fun _ _ _ along found ↦
    along_loose (fun _ ↦ trivial) (along found)

private theorem continues_unifyVariable {place : Place}
    (disciplined : Disciplined shape size (.unifyVariable place :: code) registers slots
      building missing) :
    Continues base twin number shape size code live ({slot | slot ∈ place.slot?} ∪ slots)
      (Along base twin live registers (missing ≠ 0))
      (execute context compiled (.unifyVariable place)) := by
  obtain ⟨-, rest, rfl, -, later⟩ := disciplined
  have tie := Nat.succ_ne_zero rest
  refine continues_place own place later (parallel_get_mode tie fun machine other same ↦
    ⟨by simp only [same], ?_⟩)
  cases machine.mode with
  | read next =>
    exact (parallel_store here place next).bind fun _ ↦ (parallel_mode _).bind fun _ ↦
      parallel_pure fun _ _ along _ ↦ along
  | write =>
    exact (parallel_extend _).bind fun address ↦ (parallel_store here place address).bind fun _ ↦
      parallel_pure fun _ _ along _ ↦ along_loose (fun _ ↦ tie) along

private theorem continues_unifyValue {place : Place}
    (disciplined : Disciplined shape size (.unifyValue place :: code) registers slots
      building missing) :
    Continues base twin number shape size code live ({slot | slot ∈ (none : Option Nat)} ∪ slots)
      (Along base twin live registers (missing ≠ 0))
      (execute context compiled (.unifyValue place)) := by
  obtain ⟨-, rest, rfl, filled, later⟩ := disciplined
  have tie := Nat.succ_ne_zero rest
  refine continues_plain own later ((parallel_load here (filled_of_own own filled)).bind
    fun address ↦
    parallel_get_mode tie fun machine other same ↦ ⟨by simp only [same], ?_⟩)
  cases machine.mode with
  | read next =>
    exact (parallel_mode _).bind fun _ ↦ (parallel_onMemory _).mono fun _ _ _ along _ ↦ along
  | write =>
    exact (parallel_extend _).bind fun _ ↦ parallel_pure fun _ _ along _ ↦
      along_loose (fun _ ↦ tie) along

omit here in
private theorem continues_unifyConstant {constant : Constant}
    (disciplined : Disciplined shape size (.unifyConstant constant :: code) registers slots
      building missing) :
    Continues base twin number shape size code live ({slot | slot ∈ (none : Option Nat)} ∪ slots)
      (Along base twin live registers (missing ≠ 0))
      (execute context compiled (.unifyConstant constant)) := by
  obtain ⟨-, rest, rfl, later⟩ := disciplined
  have tie := Nat.succ_ne_zero rest
  refine continues_plain own later (parallel_get_mode tie fun machine other same ↦
    ⟨by simp only [same], ?_⟩)
  cases machine.mode with
  | read next =>
    exact (parallel_mode _).bind fun _ ↦
      (parallel_matchConstant next constant).mono fun _ _ _ along _ ↦ along
  | write =>
    exact (parallel_extend _).bind fun _ ↦ parallel_pure fun _ _ along _ ↦
      along_loose (fun _ ↦ tie) along

private theorem continues_putVariable {place : Place} {arg : Nat}
    (disciplined : Disciplined shape size (.putVariable place arg :: code) registers slots
      building missing) :
    Continues base twin number shape size code live ({slot | slot ∈ place.slot?} ∪ slots)
      (Along base twin live registers (missing ≠ 0))
      (execute context compiled (.putVariable place arg)) := by
  obtain ⟨-, -, later⟩ := disciplined
  refine continues_place own place later ?_
  exact (parallel_extend _).bind fun address ↦ (parallel_store here place address).bind fun _ ↦
    (parallel_setRegister arg address).bind fun _ ↦ parallel_pure fun _ _ along _ ↦
      along_loose (by simp) along

private theorem continues_putValue {place : Place} {arg : Nat}
    (disciplined : Disciplined shape size (.putValue place arg :: code) registers slots
      building missing) :
    Continues base twin number shape size code live ({slot | slot ∈ (none : Option Nat)} ∪ slots)
      (Along base twin live registers (missing ≠ 0))
      (execute context compiled (.putValue place arg)) := by
  obtain ⟨-, filled, later⟩ := disciplined
  refine continues_plain own later ?_
  exact (parallel_load here (filled_of_own own filled)).bind fun address ↦
    (parallel_setRegister arg address).bind fun _ ↦ parallel_pure fun _ _ along _ ↦
      along_loose (by simp) along

omit here in
private theorem continues_putConstant {constant : Constant} {arg : Nat}
    (disciplined : Disciplined shape size (.putConstant constant arg :: code) registers slots
      building missing) :
    Continues base twin number shape size code live ({slot | slot ∈ (none : Option Nat)} ∪ slots)
      (Along base twin live registers (missing ≠ 0))
      (execute context compiled (.putConstant constant arg)) := by
  obtain ⟨-, later⟩ := disciplined
  refine continues_plain own later ?_
  exact (parallel_extend _).bind fun address ↦ (parallel_setRegister arg address).bind fun _ ↦
    parallel_pure fun _ _ along _ ↦ along_loose (by simp) along

omit here in
private theorem continues_putStructure {functor : Functor} {arg : Nat}
    (disciplined : Disciplined shape size (.putStructure functor arg :: code) registers slots
      building missing) :
    Continues base twin number shape size code live ({slot | slot ∈ (none : Option Nat)} ∪ slots)
      (Along base twin live registers (missing ≠ 0))
      (execute context compiled (.putStructure functor arg)) := by
  obtain ⟨-, -, later⟩ := disciplined
  refine continues_plain own later ?_
  exact (parallel_extend _).bind fun address ↦ (parallel_setRegister arg address).bind fun _ ↦
    (parallel_mode _).bind fun _ ↦ parallel_pure fun _ _ along _ ↦ along

private theorem continues_setVariable {place : Place}
    (disciplined : Disciplined shape size (.setVariable place :: code) registers slots
      building missing) :
    Continues base twin number shape size code live ({slot | slot ∈ place.slot?} ∪ slots)
      (Along base twin live registers (missing ≠ 0))
      (execute context compiled (.setVariable place)) := by
  obtain ⟨-, rest, rfl, -, later⟩ := disciplined
  refine continues_place own place later ?_
  exact (parallel_extend _).bind fun address ↦ (parallel_store here place address).bind fun _ ↦
    parallel_pure fun _ _ along _ ↦ along_loose (fun _ ↦ Nat.succ_ne_zero rest) along

private theorem continues_setValue {place : Place}
    (disciplined : Disciplined shape size (.setValue place :: code) registers slots
      building missing) :
    Continues base twin number shape size code live ({slot | slot ∈ (none : Option Nat)} ∪ slots)
      (Along base twin live registers (missing ≠ 0))
      (execute context compiled (.setValue place)) := by
  obtain ⟨-, rest, rfl, filled, later⟩ := disciplined
  refine continues_plain own later ?_
  exact (parallel_load here (filled_of_own own filled)).bind fun _ ↦
    (parallel_extend _).bind fun _ ↦
    parallel_pure fun _ _ along _ ↦ along_loose (fun _ ↦ Nat.succ_ne_zero rest) along

omit here in
private theorem continues_setConstant {constant : Constant}
    (disciplined : Disciplined shape size (.setConstant constant :: code) registers slots
      building missing) :
    Continues base twin number shape size code live ({slot | slot ∈ (none : Option Nat)} ∪ slots)
      (Along base twin live registers (missing ≠ 0))
      (execute context compiled (.setConstant constant)) := by
  obtain ⟨-, rest, rfl, later⟩ := disciplined
  refine continues_plain own later ?_
  exact (parallel_extend _).bind fun _ ↦
    parallel_pure fun _ _ along _ ↦ along_loose (fun _ ↦ Nat.succ_ne_zero rest) along

omit here in
/-- A builtin is run on what is the same on both. -/
theorem continues_builtin {builtin : Builtin} {arity : Nat}
    (disciplined : Disciplined shape size (.call (.builtin builtin arity) :: code) registers
      slots building
      missing) :
    Continues base twin number shape size code live ({slot | slot ∈ (none : Option Nat)} ∪ slots)
      (Along base twin live registers (missing ≠ 0))
      (execute context compiled (.call (.builtin builtin arity))) := by
  obtain ⟨-, read, -, later⟩ := disciplined
  refine continues_plain own later ?_
  have counted : Parallel (Along base twin live registers (missing ≠ 0))
      (modify fun machine ↦
        { machine with stats := { machine.stats with calls := machine.stats.calls + 1 } } :
        Exec Unit) fun _ ↦ Along base twin live registers (missing ≠ 0) :=
    parallel_modify fun _ _ along ↦ { along with
      left := along.left.data _ _ _ _
      right := along.right.data _ _ _ _ }
  refine counted.bind fun _ ↦ (parallel_mapM fun index member ↦
    parallel_register (read index (List.mem_range.1 member))).bind fun args ↦
      (parallel_onMemory _).mono fun _ _ _ along _ ↦ ?_
  exact { along with registers := nofun, mode := by simp }

/-- A disciplined instruction that stays in its rule does the same on both. -/
theorem continues_execute {instruction : Instruction} (straight : Straight instruction)
    (disciplined : Disciplined shape size (instruction :: code) registers slots building missing) :
    Continues base twin number shape size code live ({slot | slot ∈ instruction.slot?} ∪ slots)
      (Along base twin live registers (missing ≠ 0)) (execute context compiled instruction) := by
  cases instruction with
  | getVariable => exact continues_getVariable here own disciplined
  | getValue => exact continues_getValue here own disciplined
  | getConstant => exact continues_getConstant own disciplined
  | getStructure => exact continues_getStructure own disciplined
  | unifyVariable => exact continues_unifyVariable here own disciplined
  | unifyValue => exact continues_unifyValue here own disciplined
  | unifyConstant => exact continues_unifyConstant own disciplined
  | putVariable => exact continues_putVariable here own disciplined
  | putValue => exact continues_putValue here own disciplined
  | putConstant => exact continues_putConstant own disciplined
  | putStructure => exact continues_putStructure own disciplined
  | setVariable => exact continues_setVariable here own disciplined
  | setValue => exact continues_setValue here own disciplined
  | setConstant => exact continues_setConstant own disciplined
  | allocate | deallocate | call | proceed | fail => exact straight.elim

end Instructions

/-! ### Facts -/

private theorem parallel_unifyArguments (check : OccursCheck) (header : Address)
    {indices : List Nat} (read : ∀ index ∈ indices, index ∈ registers) :
    Parallel (Along base twin live registers tied) (unifyArguments check header indices) fun _ ↦
      Along base twin live registers tied := by
  induction indices with
  | nil => exact parallel_pure fun _ _ along ↦ along
  | cons index indices ih =>
    obtain ⟨first, others⟩ := List.forall_mem_cons.1 read
    refine (parallel_register first).bind fun address ↦ (parallel_onMemory _).bind fun unified ↦ ?_
    split
    · exact ih others
    · exact parallel_pure fun _ _ along ↦ along

/-- A fact answers both calls or neither. -/
theorem parallel_unifyFact (check : OccursCheck) (goal : Functor) (fact : Fact) :
    Parallel (Along base twin live {index | index < goal.arity} tied)
      (unifyFact check goal fact) fun _ ↦
      Along base twin live {index | index < goal.arity} tied := by
  unfold unifyFact
  split
  · exact parallel_pure fun _ _ along ↦ along
  · refine (parallel_onMemory _).bind fun address ↦
      (parallel_value address).bind fun ⟨found, value⟩ ↦ ?_
    cases value with
    | compound functor header =>
      dsimp only
      split
      · exact parallel_unifyArguments check header fun index member ↦ List.mem_range.1 member
      · exact parallel_pure fun _ _ along ↦ along
    | unbound | atom | num => exact parallel_pure fun _ _ along ↦ along

end Exec
end HornMachine
