import HornMachine.Machine.State
import HornMachine.Proofs.Code.Meaning
import HornMachine.Proofs.Heap.Formed
import HornMachine.Proofs.Heap.Rewind

/-!
# A point of a run

At a point of a run the machine has code in front of it, a memory, registers, the slots of the
rule's frame, and a structure some of whose arguments may still be missing. A point says something
about a valuation of the heap and the values of the rule's variables: that the valuation solves the
heap and that the code in front has a meaning for it. Running an instruction leads from one point to
the next. Main statements: for each way to change a point, the later point says what the earlier one
said, up to values for the cells that were added.
-/

namespace HornMachine

/-! ### Banks of cells -/

/-- Registers, or slots of a frame. -/
abbrev Bank := Array (Option Address)

variable {D : Type} [Domain D]

namespace Bank

/-- The values in a bank; an empty place holds none in particular. -/
def values (bank : Bank) (θ : Valuation D) (index : Nat) : D :=
  match bank[index]? with
  | some (some address) => θ address
  | _ => default

/-- The places of a bank that are filled. -/
def filled (bank : Bank) : Set Nat := {index | ∃ address, bank[index]? = some (some address)}

/-- What is in the bank lies below `size`. -/
def Bounded (bank : Bank) (size : Nat) : Prop :=
  ∀ (index address : Nat), bank[index]? = some (some address) → address < size

/-- The variables have the values that are in the bank. -/
def Agrees (bank : Bank) (θ : Valuation D) (η : Nat → D) : Prop :=
  ∀ index address : Nat, bank[index]? = some (some address) → η index = θ address

/-- A bank of the same size that holds at least as much. -/
structure Extends (larger smaller : Bank) : Prop where
  size : larger.size = smaller.size
  kept : ∀ index address : Nat, smaller[index]? = some (some address) →
    larger[index]? = some (some address)

theorem Extends.refl (bank : Bank) : bank.Extends bank := ⟨rfl, fun _ _ here ↦ here⟩

theorem Extends.trans {first second third : Bank} (one : third.Extends second)
    (two : second.Extends first) : third.Extends first :=
  ⟨one.size.trans two.size, fun index address here ↦ one.kept index address
    (two.kept index address here)⟩

/-- Fill a place. -/
def fill (bank : Bank) (index : Nat) (address : Address) : Bank :=
  bank.setIfInBounds index (some address)

variable {bank : Bank} {index : Nat} {address : Address} {θ : Valuation D} {η : Nat → D}

theorem getElem?_fill (room : index < bank.size) (other : Nat) :
    (bank.fill index address)[other]? =
      if index = other then some (some address) else bank[other]? := by
  rw [fill, Array.getElem?_setIfInBounds]
  split
  · next same =>
    subst same
    simp
  · rfl

theorem values_of_getElem? (here : bank[index]? = some (some address)) :
    bank.values θ index = θ address := by
  simp [values, here]

theorem values_fill (room : index < bank.size) :
    (bank.fill index address).values θ = Function.update (bank.values θ) index (θ address) := by
  funext other
  by_cases same : index = other
  · subst same
    simp [values, getElem?_fill room]
  · rw [Function.update_of_ne (Ne.symm same)]
    simp [values, getElem?_fill room, same]

private theorem filled_fill (room : index < bank.size) :
    (bank.fill index address).filled = insert index bank.filled := by
  ext other
  simp only [filled, Set.mem_ofPred_eq, Set.mem_insert_iff, getElem?_fill room]
  by_cases same : index = other
  · simp [same]
  · simp [same, Ne.symm same]

omit [Domain D] in
private theorem agrees_fill (room : index < bank.size) (fresh : index ∉ bank.filled) :
    (bank.fill index address).Agrees θ η ↔ bank.Agrees θ η ∧ η index = θ address := by
  constructor
  · intro agrees
    refine ⟨fun other held here ↦ agrees other held ?_, agrees index address ?_⟩
    · rw [getElem?_fill room, if_neg, here]
      rintro rfl
      exact fresh ⟨held, here⟩
    · rw [getElem?_fill room, if_pos rfl]
  · rintro ⟨agrees, same⟩ other held here
    rw [getElem?_fill room] at here
    split at here
    · next place =>
      cases here
      rw [← place, same]
    · exact agrees other held here

theorem Extends.fill {larger smaller : Bank} (wider : larger.Extends smaller) (index : Nat)
    (address : Address) : (larger.fill index address).Extends (smaller.fill index address) := by
  refine ⟨by simp [Bank.fill, wider.size], fun other held here ↦ ?_⟩
  by_cases room : index < smaller.size
  · rw [getElem?_fill room] at here
    rw [getElem?_fill (wider.size ▸ room)]
    split
    · next same => rwa [if_pos same] at here
    · next apart =>
      rw [if_neg apart] at here
      exact wider.kept other held here
  · rw [Bank.fill, Array.setIfInBounds_eq_of_size_le (Nat.le_of_not_lt room)] at here
    rw [Bank.fill, Array.setIfInBounds_eq_of_size_le (wider.size ▸ Nat.le_of_not_lt room)]
    exact wider.kept other held here

private theorem extends_fill (fresh : index ∉ bank.filled) (address : Address) :
    (bank.fill index address).Extends bank := by
  refine ⟨by simp [fill], fun other held here ↦ ?_⟩
  rw [fill, Array.getElem?_setIfInBounds_ne, here]
  rintro rfl
  exact fresh ⟨held, here⟩

theorem Bounded.mono {size larger : Nat} (bounded : bank.Bounded size) (grown : size ≤ larger) :
    bank.Bounded larger :=
  fun index address here ↦ Nat.lt_of_lt_of_le (bounded index address here) grown

theorem Bounded.fill {size index address : Nat} (bounded : bank.Bounded size)
    (inside : address < size) : (bank.fill index address).Bounded size := by
  intro other held here
  by_cases room : index < bank.size
  · rw [getElem?_fill room] at here
    split at here
    · cases here
      exact inside
    · exact bounded other held here
  · rw [Bank.fill, Array.setIfInBounds_eq_of_size_le (Nat.le_of_not_lt room)] at here
    exact bounded other held here

omit [Domain D] in
/-- Valuations that agree on the heap agree on what a bounded bank holds. -/
theorem Agrees.congr {size : Nat} {θ' : Valuation D} (bounded : bank.Bounded size)
    (same : ∀ address : Nat, address < size → θ' address = θ address) (agrees : bank.Agrees θ η) :
    bank.Agrees θ' η := by
  intro index address here
  rw [same address (bounded index address here), agrees index address here]

end Bank

/-! ### Points -/

/-- A point of a run inside a rule. -/
structure Point where
  memory : Memory
  code : Code
  registers : Bank
  slots : Bank
  mode : Mode
  missing : Nat

namespace Point

open Code (Meaning Disciplined Shape Alike)

/-- Where the next argument of the structure at hand is, or will be. -/
def start (point : Point) : Address :=
  match point.mode with
  | .read next => next
  | .write => point.memory.heap.size

/-- Where the arguments still to come are, or will be. -/
def pending (point : Point) : List Address := addresses point.start point.missing

/-- A valuation and values for the rule's variables that fit the point, with the tasks that the code
in front has then. -/
structure Says (point : Point) (θ : Valuation D) (η : Nat → D) (goals : List (Task D)) : Prop where
  solution : point.memory.heap.Solution θ
  agrees : point.slots.Agrees θ η
  meaning : Meaning η point.code (point.registers.values θ) (point.pending.map θ) goals

/-- Registers that hold cells of a heap of the given size. -/
def Holds (bank : Bank) (registers : Set Nat) (size : Nat) : Prop :=
  ∀ index ∈ registers, ∃ address : Nat, bank[index]? = some (some address) ∧ address < size

/-- A point that the machine can be at. -/
structure Valid (shape : Shape) (point : Point) (registers : Set Nat) (building : Bool) : Prop where
  disciplined : Disciplined shape point.slots.size point.code registers point.slots.filled building
    point.missing
  /-- The heap is well formed but for arguments still to be added. -/
  formed : point.memory.heap.Formed shape.admits
    (match point.mode with | .read _ => 0 | .write => point.missing)
  registers : Holds point.registers registers point.memory.heap.size
  slots : point.slots.Bounded point.memory.heap.size
  matching : ∀ next : Nat, point.mode = .read next → point.missing ≠ 0 →
    next + point.missing ≤ point.memory.heap.size
  building : building = true → point.missing ≠ 0 → point.mode = .write

/-- The first instruction of the code in front, and the rest of it, go on from what is filled. -/
theorem Valid.disciplined_of_front {shape : Shape} {point : Point} {registers : Set Nat}
    {building : Bool}
    (valid : point.Valid shape registers building) {instruction : Instruction} {code : Code}
    (front : point.code = instruction :: code) :
    Disciplined shape point.slots.size (instruction :: code) registers point.slots.filled building
      point.missing :=
  front ▸ valid.disciplined

/-- Two points that say the same, but for values of cells that were added between them. -/
structure Same (D : Type) [Domain D] (point later : Point) : Prop where
  back : ∀ (θ : Valuation D) η goals, later.Says θ η goals → point.Says θ η goals
  forth : ∀ (θ : Valuation D) η goals, point.Says θ η goals →
    ∃ θ', (∀ address : Nat, address < point.memory.heap.size → θ' address = θ address) ∧
      later.Says θ' η goals

/-- A point that comes after another in the same rule: nothing said is lost or added, the memory can
be taken back, and filled slots are kept. -/
structure Leads (D : Type) [Domain D] (shape : Shape) (point later : Point) : Prop where
  valid : ∃ registers building, later.Valid shape registers building
  same : point.Same D later
  rewinds : later.memory.Rewinds point.memory
  slots : later.slots.Extends point.slots

/-- A solution of the heap stays one when new cells are given values. -/
theorem solution_congr {heap : Heap} {admits : Functor → Prop} (formed : heap.Formed admits 0)
    {θ θ' : Valuation D} (same : ∀ address : Nat, address < heap.size → θ' address = θ address)
    (solution : heap.Solution θ) : heap.Solution θ' := by
  intro address cell here
  have inside := Heap.lt_size_of_getElem? here
  have holds := solution address cell here
  cases cell with
  | ref target =>
    rw [Cell.Holds, same address inside, same target (formed.ref _ _ here)]
    exact holds
  | str header =>
    obtain ⟨functor, at_header⟩ := formed.str address header here
    rw [Cell.Holds, same address inside, same header (Heap.lt_size_of_getElem? at_header)]
    exact holds
  | functor functor =>
    obtain ⟨-, bound⟩ := formed.functor address functor here
    rw [Cell.Holds] at holds ⊢
    rw [same address inside, holds]
    refine congrArg _ (List.map_congr_left fun argument member ↦ ?_)
    obtain ⟨-, below⟩ := Heap.mem_arguments_iff.1 member
    exact (same _ (by omega)).symm
  | atom symbol | num value =>
    rw [Cell.Holds, same address inside]
    exact holds

/-- A constant stands for itself. -/
theorem holds_constant (constant : Constant) (θ : Valuation D) (address : Address) :
    constant.cell.Holds θ address ↔ θ address = constant.value := by
  cases constant <;> exact Iff.rfl

theorem simple_constant (heap : Heap) (constant : Constant) :
    Heap.Formed.Simple heap constant.cell := by
  cases constant <;> exact trivial

/-- The registers hold the same values when new cells are given values. -/
theorem Valid.alike {shape : Shape} {point : Point} {registers : Set Nat} {building : Bool}
    (valid : point.Valid shape registers building) {θ θ' : Valuation D}
    (same : ∀ address : Nat, address < point.memory.heap.size → θ' address = θ address) :
    Alike registers (point.registers.values θ) (point.registers.values θ') := by
  intro index member
  obtain ⟨address, here, inside⟩ := valid.registers index member
  rw [Bank.values_of_getElem? here, Bank.values_of_getElem? here, same address inside]

/-! ### Filling places -/

/-- A place of a point holds an address. -/
def Has (point : Point) (address : Address) : Place → Prop
  | .register index => point.registers[index]? = some (some address)
  | .slot index => point.slots[index]? = some (some address)

/-- Registers once a place is filled. -/
def registersAfter (bank : Bank) (address : Address) : Place → Bank
  | .register index => bank.fill index address
  | .slot _ => bank

/-- Slots once a place is filled. -/
def slotsAfter (bank : Bank) (address : Address) : Place → Bank
  | .register _ => bank
  | .slot index => bank.fill index address

/-- The point with an address in a place. -/
def put (point : Point) (address : Address) (place : Place) : Point :=
  { point with
    registers := registersAfter point.registers address place
    slots := slotsAfter point.slots address place }

/-- A place of a point that exists. -/
def Room (point : Point) : Place → Prop
  | .register index => index < point.registers.size
  | .slot index => index < point.slots.size

section Put

variable {point : Point} {place : Place} {address : Address} {θ : Valuation D} {η : Nat → D}
  {size : Nat} {registers : Set Nat}

/-- What a place holds stands for the place's value. -/
theorem Has.value (has : point.Has address place) (agrees : point.slots.Agrees θ η) :
    place.value (point.registers.values θ) η = θ address := by
  cases place with
  | register index => exact Bank.values_of_getElem? has
  | slot index => exact agrees index address has

theorem Has.lt {shape : Shape} {building : Bool} (has : point.Has address place)
    (valid : point.Valid shape registers building)
    (filled : place.Filled registers point.slots.filled) : address < point.memory.heap.size := by
  cases place with
  | register index =>
    obtain ⟨held, here, inside⟩ := valid.registers index filled
    cases here.symm.trans has
    exact inside
  | slot index => exact valid.slots index address has

/-- A place receives a value when it is filled with a cell that stands for it. -/
theorem agrees_put (room : point.Room place) (fillable : place.Fillable point.slots.filled)
    (rest : (Nat → D) → Prop) :
    (point.put address place).slots.Agrees θ η ∧
    rest ((point.put address place).registers.values θ) ↔
      point.slots.Agrees θ η ∧
        place.Receives (point.registers.values θ) η (θ address) rest := by
  cases place with
  | register index =>
    simp only [put, registersAfter, slotsAfter, Place.Receives]
    rw [Bank.values_fill room]
  | slot index =>
    simp only [put, registersAfter, slotsAfter, Place.Receives]
    rw [Bank.agrees_fill room fillable, and_assoc]

theorem size_put : (point.put address place).slots.size = point.slots.size := by
  cases place with
  | register index => rfl
  | slot index => simp [put, slotsAfter, Bank.fill]

theorem filled_put (room : point.Room place) :
    (point.put address place).slots.filled = place.slotsWith point.slots.filled := by
  cases place with
  | register index => rfl
  | slot index => exact Bank.filled_fill room

theorem extends_put (fillable : place.Fillable point.slots.filled) :
    (point.put address place).slots.Extends point.slots := by
  cases place with
  | register index => exact .refl _
  | slot index => exact Bank.extends_fill fillable address

theorem bounded_put {address : Nat} (bounded : point.slots.Bounded size) (inside : address < size) :
    (point.put address place).slots.Bounded size := by
  cases place with
  | register index => exact bounded
  | slot index => exact bounded.fill inside

theorem Holds.mono {bank : Bank} {larger : Nat} (holds : Holds bank registers size)
    (grown : size ≤ larger) : Holds bank registers larger := by
  intro index member
  obtain ⟨address, here, inside⟩ := holds index member
  exact ⟨address, here, Nat.lt_of_lt_of_le inside grown⟩

theorem Holds.le_size {bank : Bank} {count : Nat}
    (holds : Holds bank {index | index < count} size) :
    count ≤ bank.size := by
  by_contra few
  obtain ⟨address, here, -⟩ := holds bank.size (Nat.lt_of_not_le few)
  rw [Array.getElem?_eq_none (Nat.le_refl _)] at here
  cases here

theorem Holds.fill {bank : Bank} (holds : Holds bank registers size) {index address : Nat}
    (room : index < bank.size) (inside : address < size) :
    Holds (bank.fill index address) (insert index registers) size := by
  intro other member
  rw [Bank.getElem?_fill room]
  by_cases same : index = other
  · exact ⟨address, if_pos same, inside⟩
  · rw [if_neg same]
    exact holds other (member.resolve_left (Ne.symm same))

theorem holds_put {address : Nat} (holds : Holds point.registers registers size)
    (room : point.Room place) (inside : address < size) :
    Holds (point.put address place).registers (place.registersWith registers) size := by
  cases place with
  | register index => exact holds.fill room inside
  | slot index => exact holds

end Put

end Point
end HornMachine
