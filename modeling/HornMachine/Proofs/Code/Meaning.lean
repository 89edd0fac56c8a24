import HornMachine.Code.Compile
import HornMachine.Proofs.Term.Domain
import Mathlib.Data.Set.Insert
import Mathlib.Logic.Function.Basic

/-!
# What code says

The code of a rule is read as a relation between values: those in the registers (`ρ`), those in the
slots of the rule's frame (`η`), those of the structure arguments still to be met, and the tasks
that the code has from there on. Matching an argument and building one are the same equation, and
the slots have their values from the beginning; only registers change as the code goes on.

A piece of code is disciplined when it reads only registers and slots that were filled before, fills
each slot once, and meets the arguments of a structure right after the structure. Main statement:
the meaning of disciplined code depends on the registers it may read and on no others.
-/

namespace HornMachine

/-- A goal as it is met by a run: to fail, or to call something with values. -/
inductive Task (D : Type) where
  | fail
  | call (args : List D) (target : Target)

variable {D : Type} [Domain D]

/-- The task that a goal is when its variables have values. -/
def Rule.Goal.eval (β : Var → D) : Rule.Goal → Task D
  | .fail => .fail
  | .call args target => .call (args.map (Term.eval β)) target

/-- The value a constant is. -/
def Constant.value : Constant → D
  | .atom symbol => Domain.atom symbol
  | .num number => Domain.num number

/-- Number of registers a call reads. -/
def Target.arity : Target → Nat
  | .builtin _ arity => arity
  | .predicate functor => functor.arity

namespace Place

/-- The value in a place. -/
def value (ρ η : Nat → D) : Place → D
  | .register index => ρ index
  | .slot index => η index

/-- A value is put in a place: a register is changed, and a slot has that value. -/
def Receives (ρ η : Nat → D) (value : D) (rest : (Nat → D) → Prop) : Place → Prop
  | .register index => rest (Function.update ρ index value)
  | .slot index => η index = value ∧ rest ρ

/-- A place that may be read. -/
def Filled (registers slots : Set Nat) : Place → Prop
  | .register index => index ∈ registers
  | .slot index => index ∈ slots

/-- A place that may be filled. -/
def Fillable (slots : Set Nat) : Place → Prop
  | .register _ => True
  | .slot index => index ∉ slots

/-- The registers that may be read once a place is filled. -/
def registersWith (registers : Set Nat) : Place → Set Nat
  | .register index => insert index registers
  | .slot _ => registers

/-- The slots that may be read once a place is filled. -/
def slotsWith (slots : Set Nat) : Place → Set Nat
  | .register _ => slots
  | .slot index => insert index slots

/-- The slot that a place is. -/
def slot? : Place → Option Nat
  | .register _ => none
  | .slot index => some index

theorem Filled.mono {registers more slots : Set Nat} (kept : registers ⊆ more)
    {place : Place} (filled : place.Filled registers slots) : place.Filled more slots := by
  cases place with
  | register index => exact kept filled
  | slot index => exact filled

private theorem registersWith_subset {registers more : Set Nat} (kept : registers ⊆ more)
    (place : Place) : place.registersWith registers ⊆ place.registersWith more := by
  cases place with
  | register index => exact Set.insert_subset_insert kept
  | slot index => exact kept

end Place

/-- The slot that an instruction fills. -/
def Instruction.slot? : Instruction → Option Nat
  | .getVariable place _ | .unifyVariable place | .putVariable place _ | .setVariable place =>
    place.slot?
  | _ => none

namespace Code

open Function (update)

/-- What code says about the values in registers, the structure arguments still to be met and the
tasks it has, given the values in the slots. -/
def Meaning (η : Nat → D) : Code → (Nat → D) → List D → List (Task D) → Prop
  | .getVariable place arg :: code, ρ, _, goals =>
    place.Receives ρ η (ρ arg) fun ρ ↦ Meaning η code ρ [] goals
  | .getValue place arg :: code, ρ, _, goals =>
    place.value ρ η = ρ arg ∧ Meaning η code ρ [] goals
  | .getConstant constant arg :: code, ρ, _, goals =>
    ρ arg = constant.value ∧ Meaning η code ρ [] goals
  | .getStructure functor arg :: code, ρ, _, goals =>
    ∃ args, args.length = functor.arity ∧ ρ arg = Domain.struct functor.symbol args ∧
      Meaning η code ρ args goals
  | .unifyVariable place :: code, ρ, args, goals | .setVariable place :: code, ρ, args, goals =>
    ∃ value rest, args = value :: rest ∧
      place.Receives ρ η value fun ρ ↦ Meaning η code ρ rest goals
  | .unifyValue place :: code, ρ, args, goals | .setValue place :: code, ρ, args, goals =>
    ∃ value rest, args = value :: rest ∧ place.value ρ η = value ∧ Meaning η code ρ rest goals
  | .unifyConstant constant :: code, ρ, args, goals
  | .setConstant constant :: code, ρ, args, goals =>
    ∃ value rest, args = value :: rest ∧ value = constant.value ∧ Meaning η code ρ rest goals
  | .putVariable place arg :: code, ρ, _, goals =>
    ∃ value, place.Receives ρ η value fun ρ ↦ Meaning η code (update ρ arg value) [] goals
  | .putValue place arg :: code, ρ, _, goals =>
    Meaning η code (update ρ arg (place.value ρ η)) [] goals
  | .putConstant constant arg :: code, ρ, _, goals =>
    Meaning η code (update ρ arg constant.value) [] goals
  | .putStructure functor register :: code, ρ, _, goals =>
    ∃ args, args.length = functor.arity ∧
      Meaning η code (update ρ register (Domain.struct functor.symbol args)) args goals
  | .call target :: code, ρ, _, goals =>
    ∃ later, goals = .call ((List.range target.arity).map ρ) target :: later ∧
      ∃ ρ, Meaning η code ρ [] later
  | .deallocate :: _, _, _, goals => goals = []
  | .fail :: _, _, _, goals => goals = [.fail]
  | .allocate _ :: _, _, _, _ | .proceed :: _, _, _, _ | [], _, _, _ => False

omit [Domain D] in
/-- What is asked of the first argument to come and of the others. -/
theorem exists_cons_eq_iff {first : D} {others : List D} {own : D → Prop} {later : List D → Prop} :
    (∃ value rest, first :: others = value :: rest ∧ own value ∧ later rest) ↔ own first ∧
    later others := by
  constructor
  · rintro ⟨value, rest, split, said, meaning⟩
    cases split
    exact ⟨said, meaning⟩
  · rintro ⟨said, meaning⟩
    exact ⟨_, _, rfl, said, meaning⟩

/-- Whatever its slots hold, the code goes on to some tasks. -/
def Total (code : Code) : Prop :=
  ∀ {D : Type} [Domain D] (η : Nat → D), ∃ goals, ∀ ρ, Meaning η code ρ [] goals

/-- What is asked of the code of a rule beside its discipline. -/
structure Shape where
  admits : Functor → Prop
  resumes : Code → Prop

/-- Code that reads and fills as it should, given the registers and slots filled so far, whether the
structure at hand is built (or matched), and how many of its arguments are still to come. All `size`
slots are filled when the frame is left. -/
def Disciplined (shape : Shape) (size : Nat) : Code → Set Nat → Set Nat → Bool → Nat → Prop
  | .getVariable place arg :: code, registers, slots, _, missing =>
    missing = 0 ∧ arg ∈ registers ∧ place.Fillable slots ∧
      Disciplined shape size code (place.registersWith registers) (place.slotsWith slots)
        false 0
  | .getValue place arg :: code, registers, slots, _, missing =>
    missing = 0 ∧ arg ∈ registers ∧ place.Filled registers slots ∧
      Disciplined shape size code registers slots false 0
  | .getConstant _ arg :: code, registers, slots, _, missing =>
    missing = 0 ∧ arg ∈ registers ∧ Disciplined shape size code registers slots false 0
  | .getStructure functor arg :: code, registers, slots, _, missing =>
    missing = 0 ∧ arg ∈ registers ∧ shape.admits functor ∧
      Disciplined shape size code registers slots false functor.arity
  | .unifyVariable place :: code, registers, slots, building, missing =>
    building = false ∧ ∃ rest, missing = rest + 1 ∧ place.Fillable slots ∧
      Disciplined shape size code (place.registersWith registers) (place.slotsWith slots)
        building rest
  | .unifyValue place :: code, registers, slots, building, missing =>
    building = false ∧ ∃ rest, missing = rest + 1 ∧ place.Filled registers slots ∧
      Disciplined shape size code registers slots building rest
  | .unifyConstant _ :: code, registers, slots, building, missing =>
    building = false ∧ ∃ rest, missing = rest + 1 ∧
      Disciplined shape size code registers slots building rest
  | .putVariable place arg :: code, registers, slots, _, missing =>
    missing = 0 ∧ place.Fillable slots ∧
      Disciplined shape size code (insert arg (place.registersWith registers))
        (place.slotsWith slots) false 0
  | .putValue place arg :: code, registers, slots, _, missing =>
    missing = 0 ∧ place.Filled registers slots ∧
      Disciplined shape size code (insert arg registers) slots false 0
  | .putConstant _ arg :: code, registers, slots, _, missing =>
    missing = 0 ∧ Disciplined shape size code (insert arg registers) slots false 0
  | .putStructure functor register :: code, registers, slots, _, missing =>
    missing = 0 ∧ shape.admits functor ∧
      Disciplined shape size code (insert register registers) slots true functor.arity
  | .setVariable place :: code, registers, slots, building, missing =>
    building = true ∧ ∃ rest, missing = rest + 1 ∧ place.Fillable slots ∧
      Disciplined shape size code (place.registersWith registers) (place.slotsWith slots)
        building rest
  | .setValue place :: code, registers, slots, building, missing =>
    building = true ∧ ∃ rest, missing = rest + 1 ∧ place.Filled registers slots ∧
      Disciplined shape size code registers slots building rest
  | .setConstant _ :: code, registers, slots, building, missing =>
    building = true ∧ ∃ rest, missing = rest + 1 ∧
      Disciplined shape size code registers slots building rest
  | .call target :: code, registers, slots, _, missing =>
    missing = 0 ∧ (∀ index < target.arity, index ∈ registers) ∧ shape.resumes code ∧
      Disciplined shape size code ∅ slots false 0
  | .deallocate :: code, _, slots, _, missing =>
    missing = 0 ∧ (∀ index < size, index ∈ slots) ∧ code = [.proceed]
  | .fail :: _, _, _, _, missing => missing = 0
  | .allocate _ :: _, _, _, _, _ | .proceed :: _, _, _, _, _ | [], _, _, _, _ => False

variable {shape : Shape} {size : Nat} {code : Code} {registers slots : Set Nat}
  {building : Bool} {missing : Nat}

/-- Between structures it does not matter whether the last one was built or matched. -/
theorem Disciplined.between (disciplined : Disciplined shape size code registers slots building 0)
    (other : Bool) : Disciplined shape size code registers slots other 0 := by
  cases code with
  | nil => exact disciplined
  | cons instruction code =>
    cases instruction with
    | unifyVariable | unifyValue | unifyConstant | setVariable | setValue | setConstant =>
      obtain ⟨-, rest, none_missing, -⟩ := disciplined
      cases none_missing
    | _ => exact disciplined

/-- Code may read more registers than it does. -/
theorem Disciplined.mono
    (disciplined : Disciplined shape size code registers slots building missing)
    {more : Set Nat} (kept : registers ⊆ more) :
    Disciplined shape size code more slots building missing := by
  induction code generalizing registers more slots building missing with
  | nil => exact disciplined
  | cons instruction code ih =>
    cases instruction with
    | getVariable place arg =>
      obtain ⟨between, read, fillable, later⟩ := disciplined
      exact ⟨between, kept read, fillable, ih later (place.registersWith_subset kept)⟩
    | getValue place arg =>
      obtain ⟨between, read, filled, later⟩ := disciplined
      exact ⟨between, kept read, Place.Filled.mono kept filled, ih later kept⟩
    | getConstant constant arg =>
      obtain ⟨between, read, later⟩ := disciplined
      exact ⟨between, kept read, ih later kept⟩
    | getStructure functor arg =>
      obtain ⟨between, read, kind, later⟩ := disciplined
      exact ⟨between, kept read, kind, ih later kept⟩
    | unifyVariable place | setVariable place =>
      obtain ⟨mode, rest, more_missing, fillable, later⟩ := disciplined
      exact ⟨mode, rest, more_missing, fillable, ih later (place.registersWith_subset kept)⟩
    | unifyValue place | setValue place =>
      obtain ⟨mode, rest, more_missing, filled, later⟩ := disciplined
      exact ⟨mode, rest, more_missing, Place.Filled.mono kept filled, ih later kept⟩
    | unifyConstant constant | setConstant constant =>
      obtain ⟨mode, rest, more_missing, later⟩ := disciplined
      exact ⟨mode, rest, more_missing, ih later kept⟩
    | putVariable place arg =>
      obtain ⟨between, fillable, later⟩ := disciplined
      exact ⟨between, fillable,
        ih later (Set.insert_subset_insert (place.registersWith_subset kept))⟩
    | putValue place arg =>
      obtain ⟨between, filled, later⟩ := disciplined
      exact ⟨between, Place.Filled.mono kept filled, ih later (Set.insert_subset_insert kept)⟩
    | putConstant constant arg =>
      obtain ⟨between, later⟩ := disciplined
      exact ⟨between, ih later (Set.insert_subset_insert kept)⟩
    | putStructure functor register =>
      obtain ⟨between, kind, later⟩ := disciplined
      exact ⟨between, kind, ih later (Set.insert_subset_insert kept)⟩
    | call target =>
      obtain ⟨between, read, resumes, later⟩ := disciplined
      exact ⟨between, fun index inside ↦ kept (read index inside), resumes, later⟩
    | deallocate | fail | allocate | proceed => exact disciplined

/-! ### What the meaning depends on -/

/-- Registers that hold the same values as far as they may be read. -/
def Alike (registers : Set Nat) (ρ ρ' : Nat → D) : Prop := ∀ index ∈ registers, ρ index = ρ' index

omit [Domain D] in
theorem Alike.update {ρ ρ' : Nat → D} (alike : Alike registers ρ ρ') (index : Nat)
    (value : D) :
    Alike (insert index registers) (update ρ index value) (update ρ' index value) := by
  intro other member
  by_cases same : other = index
  · subst same
    simp
  · rw [Function.update_of_ne same, Function.update_of_ne same]
    exact alike other (member.resolve_left same)

omit [Domain D] in
theorem Alike.value {ρ ρ' η : Nat → D} (alike : Alike registers ρ ρ') {place : Place}
    (filled : place.Filled registers slots) : place.value ρ η = place.value ρ' η := by
  cases place with
  | register index => exact alike index filled
  | slot index => rfl

omit [Domain D] in
theorem Alike.receives {ρ ρ' η : Nat → D} (alike : Alike registers ρ ρ') {place : Place}
    {value : D} {rest rest' : (Nat → D) → Prop}
    (later : ∀ ρ ρ', Alike (place.registersWith registers) ρ ρ' → rest ρ → rest' ρ')
    (received : place.Receives ρ η value rest) : place.Receives ρ' η value rest' := by
  cases place with
  | register index => exact later _ _ (alike.update index value) received
  | slot index => exact ⟨received.1, later _ _ alike received.2⟩

/-- The meaning of disciplined code depends on the registers it may read. -/
theorem Meaning.congr {η ρ ρ' : Nat → D} {args : List D} {goals : List (Task D)}
    (disciplined : Disciplined shape size code registers slots building missing)
    (alike : Alike registers ρ ρ') (meaning : Meaning η code ρ args goals) :
    Meaning η code ρ' args goals := by
  induction code generalizing registers slots building missing ρ ρ' args goals with
  | nil => exact meaning
  | cons instruction code ih =>
    cases instruction with
    | getVariable place arg =>
      obtain ⟨-, read, -, later⟩ := disciplined
      rw [Meaning, alike arg read] at meaning
      exact alike.receives (fun _ _ alike ↦ ih later alike) meaning
    | getValue place arg =>
      obtain ⟨-, read, filled, later⟩ := disciplined
      obtain ⟨same, meaning⟩ := meaning
      exact ⟨by rw [← alike.value filled, same, alike arg read], ih later alike meaning⟩
    | getConstant constant arg =>
      obtain ⟨-, read, later⟩ := disciplined
      exact ⟨(alike arg read).symm.trans meaning.1, ih later alike meaning.2⟩
    | getStructure functor arg =>
      obtain ⟨-, read, -, later⟩ := disciplined
      obtain ⟨args, count, same, meaning⟩ := meaning
      exact ⟨args, count, (alike arg read).symm.trans same, ih later alike meaning⟩
    | unifyVariable place | setVariable place =>
      obtain ⟨-, _, -, -, later⟩ := disciplined
      obtain ⟨value, rest, split, received⟩ := meaning
      exact ⟨value, rest, split, alike.receives (fun _ _ alike ↦ ih later alike) received⟩
    | unifyValue place | setValue place =>
      obtain ⟨-, _, -, filled, later⟩ := disciplined
      obtain ⟨value, rest, split, same, meaning⟩ := meaning
      exact ⟨value, rest, split, (alike.value filled).symm.trans same, ih later alike meaning⟩
    | unifyConstant constant | setConstant constant =>
      obtain ⟨-, _, -, later⟩ := disciplined
      obtain ⟨value, rest, split, same, meaning⟩ := meaning
      exact ⟨value, rest, split, same, ih later alike meaning⟩
    | putVariable place arg =>
      obtain ⟨-, -, later⟩ := disciplined
      obtain ⟨value, received⟩ := meaning
      exact ⟨value, alike.receives (fun _ _ alike ↦ ih later (alike.update arg value)) received⟩
    | putValue place arg =>
      obtain ⟨-, filled, later⟩ := disciplined
      rw [Meaning, alike.value filled] at meaning
      exact ih later (alike.update arg _) meaning
    | putConstant constant arg =>
      obtain ⟨-, later⟩ := disciplined
      exact ih later (alike.update arg _) meaning
    | putStructure functor register =>
      obtain ⟨-, -, later⟩ := disciplined
      obtain ⟨args, count, meaning⟩ := meaning
      exact ⟨args, count, ih later (alike.update register _) meaning⟩
    | call target =>
      obtain ⟨-, read, -, -⟩ := disciplined
      obtain ⟨later, called, rest⟩ := meaning
      refine ⟨later, ?_, rest⟩
      rw [called, List.map_congr_left fun index inside ↦
        alike index (read index (List.mem_range.1 inside))]
    | deallocate | fail | allocate | proceed => exact meaning

end Code
end HornMachine
