import HornMachine.Heap.Basic
import HornMachine.Proofs.Term.Domain

/-!
# What a heap says

A heap is read as a set of equations, one for each cell: a reference and its target stand for the
same, and a header stands for the structure whose arguments are the cells after it. A valuation
gives every address a value of some domain, and it solves a heap when it meets all equations.
Binding a variable and adding cells add equations; an unbound variable has none of its own. Main
statements: following references keeps what an address stands for, and so does reading off what it
refers to.
-/

namespace HornMachine

/-- A value for every address, inside the heap or not. -/
abbrev Valuation (D : Type) := Address → D

variable {D : Type} [Domain D]

/-- The equation of a cell at an address. -/
def Cell.Holds (θ : Valuation D) (address : Address) : Cell → Prop
  | .ref target => θ address = θ target
  | .str header => θ address = θ header
  | .functor header =>
    θ address = Domain.struct header.symbol ((Heap.arguments header address).map θ)
  | .atom symbol => θ address = Domain.atom symbol
  | .num value => θ address = Domain.num value

/-- What is found at an address stands for. -/
def Value.stands (θ : Valuation D) (found : Address) : Value → D
  | .unbound => θ found
  | .compound functor header =>
    Domain.struct functor.symbol ((Heap.arguments functor header).map θ)
  | .atom symbol => Domain.atom symbol
  | .num value => Domain.num value

/-- Consecutive addresses. -/
def addresses (start : Address) (count : Nat) : List Address := (List.range count).map (start + ·)

theorem addresses_succ (start : Address) (count : Nat) :
    addresses start (count + 1) = start :: addresses (start + 1) count := by
  rw [addresses, List.range_succ_eq_map, List.map_cons, List.map_map]
  refine congrArg _ (List.map_congr_left fun index _ ↦ ?_)
  simp only [Function.comp_apply]
  exact Nat.add_right_comm start index 1

@[simp]
theorem addresses_zero (start : Address) : addresses start 0 = [] := rfl

theorem mem_addresses {start count address : Nat} :
    address ∈ addresses start count ↔ start ≤ address ∧ address < start + count := by
  simp only [addresses, List.mem_map, List.mem_range]
  constructor
  · rintro ⟨index, lower, rfl⟩
    exact ⟨Nat.le_add_right start index, Nat.add_lt_add_left lower start⟩
  · rintro ⟨first, last⟩
    exact ⟨address - start, by omega, by omega⟩

namespace Heap

/-- A valuation that meets the equations of all cells. -/
def Solution (heap : Heap) (θ : Valuation D) : Prop :=
  ∀ (address : Address) (cell : Cell), heap.cells[address]? = some cell → cell.Holds θ address

/-! ### Cells after a change -/

theorem getElem?_push (heap : Heap) (cell : Cell) (address : Address) :
    (heap.push cell).cells[address]? =
      if address = heap.size then some cell else heap.cells[address]? := by
  exact Array.getElem?_push

theorem getElem?_set (heap : Heap) (place address : Address) (cell : Cell) :
    (heap.set place cell).cells[address]? =
      if place = address ∧ place < heap.size then some cell else heap.cells[address]? := by
  simp only [set, size, Array.getElem?_setIfInBounds]
  by_cases same : place = address
  · subst same
    by_cases inside : place < heap.cells.size
    · simp [inside]
    · simp [inside]
  · simp [same]

@[simp]
theorem size_pushVar (heap : Heap) : heap.pushVar.size = heap.size + 1 := by
  simp [pushVar]

@[simp]
theorem size_pushStructure (heap : Heap) (functor : Functor) :
    (heap.pushStructure functor).size = heap.size + 2 := by
  simp [pushStructure]

theorem getElem?_pushStructure (heap : Heap) (functor : Functor) (address : Nat) :
    (heap.pushStructure functor).cells[address]? =
      if address = heap.size + 1 then some (.functor functor)
      else if address = heap.size then some (.str (heap.size + 1))
      else heap.cells[address]? := by
  rw [pushStructure, getElem?_push, getElem?_push, size_push]

theorem getElem?_pushStructure_of_lt {heap : Heap} (functor : Functor) {address : Nat}
    (inside : address < heap.size) :
    (heap.pushStructure functor).cells[address]? = heap.cells[address]? := by
  rw [getElem?_pushStructure, if_neg (Nat.ne_of_lt (Nat.lt_succ_of_lt inside)),
    if_neg (Nat.ne_of_lt inside)]

theorem getElem?_pushStructure_size (heap : Heap) (functor : Functor) :
    (heap.pushStructure functor).cells[heap.size]? = some (.str (heap.size + 1)) := by
  rw [getElem?_pushStructure, if_neg (Nat.ne_of_lt (Nat.lt_succ_self _)), if_pos rfl]

@[simp]
theorem size_unbind (heap : Heap) (address : Address) : (heap.unbind address).size = heap.size := by
  simp [unbind]

@[simp]
theorem size_truncate (heap : Heap) (count : Nat) :
    (heap.truncate count).size = min count heap.size := by
  simp [truncate, size]

theorem getElem?_truncate (heap : Heap) (count address : Nat) :
    (heap.truncate count).cells[address]? =
      if address < count then heap.cells[address]? else none := by
  simp only [truncate, Array.shrink_eq_take, Array.take_eq_extract, Array.getElem?_extract,
    Nat.sub_zero, Nat.zero_add]
  by_cases kept : address < count
  · by_cases inside : address < heap.cells.size
    · rw [if_pos (by omega), if_pos kept]
    · rw [if_neg (by omega), if_pos kept, Array.getElem?_eq_none (by omega)]
  · rw [if_neg (by omega), if_neg kept]

/-- Heaps with the same cells are equal. -/
theorem ext_getElem? {heap other : Heap}
    (same : ∀ address : Nat, heap.cells[address]? = other.cells[address]?) : heap = other := by
  cases heap
  cases other
  congr 1
  exact Array.ext_getElem? same

/-! ### Solutions after a change -/

theorem solution_push {heap : Heap} {cell : Cell} {θ : Valuation D} :
    (heap.push cell).Solution θ ↔ heap.Solution θ ∧ cell.Holds θ heap.size := by
  constructor
  · intro solution
    constructor
    · intro address other found
      apply solution address other
      rw [getElem?_push, if_neg (Nat.ne_of_lt (lt_size_of_getElem? found)), found]
    · exact solution heap.size cell (by simp [getElem?_push])
  · rintro ⟨solution, holds⟩ address other found
    rw [getElem?_push] at found
    split at found
    · next last =>
      cases found
      exact last ▸ holds
    · exact solution address other found

/-- A new variable is free. -/
@[simp]
theorem solution_pushVar {heap : Heap} {θ : Valuation D} :
    heap.pushVar.Solution θ ↔ heap.Solution θ := by
  rw [pushVar, solution_push]
  simp [Cell.Holds]

theorem solution_pushStructure {heap : Heap} {functor : Functor} {θ : Valuation D} :
    (heap.pushStructure functor).Solution θ ↔
      heap.Solution θ ∧ θ heap.size = θ (heap.size + 1) ∧
        θ (heap.size + 1) =
          Domain.struct functor.symbol ((arguments functor (heap.size + 1)).map θ) := by
  rw [pushStructure, solution_push, solution_push, size_push, Cell.Holds, Cell.Holds, and_assoc]

/-- Binding a free variable adds the equation of the binding. -/
theorem solution_set_ref {heap : Heap} {place target : Address} {θ : Valuation D}
    (unbound : heap.cells[place]? = some (.ref place)) :
    (heap.set place (.ref target)).Solution θ ↔ heap.Solution θ ∧ θ place = θ target := by
  have inside := lt_size_of_getElem? unbound
  constructor
  · intro solution
    have bound : θ place = θ target :=
      solution place (.ref target) (by rw [getElem?_set, if_pos ⟨rfl, inside⟩])
    refine ⟨fun address cell found ↦ ?_, bound⟩
    by_cases same : place = address
    · subst same
      rw [unbound] at found
      cases found
      exact rfl
    · apply solution address cell
      rw [getElem?_set, if_neg fun both ↦ same both.1, found]
  · rintro ⟨solution, bound⟩ address cell found
    rw [getElem?_set] at found
    split at found
    · next both =>
      cases found
      exact both.1 ▸ bound
    · exact solution address cell found

/-! ### Following references -/

theorem derefWithin_ok {heap : Heap} {steps : Nat} {address found : Address}
    (followed : heap.derefWithin steps address = .ok found) :
    (∃ cell, heap.cells[found]? = some cell ∧ ∀ target, cell = .ref target → target = found) ∧
      ∀ {D : Type} [Domain D] (θ : Valuation D), heap.Solution θ → θ address = θ found := by
  induction steps generalizing address with
  | zero => simp [derefWithin] at followed
  | succ steps ih =>
    rw [derefWithin] at followed
    cases here : heap.cell address with
    | error fault => simp [here, bind, Except.bind] at followed
    | ok cell =>
      have at_address := cell_eq_ok_iff.1 here
      simp only [here, bind, Except.bind] at followed
      cases cell with
      | ref target =>
        by_cases same : target = address
        · simp only [same, if_true] at followed
          cases followed
          subst same
          exact ⟨⟨_, at_address, by simp⟩, fun _ _ ↦ rfl⟩
        · simp only [same, if_false] at followed
          obtain ⟨ending, kept⟩ := ih followed
          refine ⟨ending, fun θ solution ↦ ?_⟩
          have step : θ address = θ target := solution address (.ref target) at_address
          rw [step, kept θ solution]
      | str header | functor functor | atom symbol | num value =>
        cases followed
        exact ⟨⟨_, at_address, by simp⟩, fun _ _ ↦ rfl⟩

/-- What a value says about the address it is found at. -/
def Shows (heap : Heap) (found : Address) : Value → Prop
  | .unbound => heap.cells[found]? = some (.ref found)
  | .compound functor header =>
    heap.cells[header]? = some (.functor functor) ∧
      (heap.cells[found]? = some (.str header) ∨ found = header)
  | .atom symbol => heap.cells[found]? = some (.atom symbol)
  | .num value => heap.cells[found]? = some (.num value)

/-- Reading an address follows its references and shows the cell at their end. -/
theorem value_eq_ok_iff {heap : Heap} {address found : Address} {value : Value} :
    heap.value address = .ok (found, value) ↔
      heap.deref address = .ok found ∧ heap.Shows found value := by
  unfold Heap.value
  cases followed : heap.deref address with
  | error fault => simp [bind, Except.bind]
  | ok place =>
    obtain ⟨⟨cell, at_place, last⟩, -⟩ := derefWithin_ok followed
    have here := cell_eq_ok_iff.2 at_place
    simp only [bind, Except.bind, here]
    constructor
    · intro read
      cases cell with
      | ref target =>
        cases read
        exact ⟨rfl, by rw [Shows, at_place, last target rfl]⟩
      | str header =>
        cases header_cell : heap.cell header with
        | error fault => simp [header_cell] at read
        | ok cell =>
          simp only [header_cell] at read
          cases cell with
          | functor functor =>
            cases read
            exact ⟨rfl, cell_eq_ok_iff.1 header_cell, .inl at_place⟩
          | ref _ | str _ | atom _ | num _ => cases read
      | functor functor =>
        cases read
        exact ⟨rfl, at_place, .inr rfl⟩
      | atom symbol | num number =>
        cases read
        exact ⟨rfl, at_place⟩
    · rintro ⟨same, shows⟩
      cases same
      cases value with
      | unbound =>
        cases at_place.symm.trans shows
        rfl
      | atom symbol | num number =>
        cases at_place.symm.trans shows
        rfl
      | compound functor header =>
        obtain ⟨at_header, pointed | same⟩ := shows
        · cases at_place.symm.trans pointed
          simp [cell_eq_ok_iff.2 at_header]
        · subst same
          cases at_place.symm.trans at_header
          rfl

/-- An address stands for what is found at the end of its references. -/
theorem Solution.value {heap : Heap} {θ : Valuation D} (solution : heap.Solution θ)
    {address found : Address} {value : Value}
    (read : heap.value address = .ok (found, value)) :
    θ address = θ found ∧ θ found = value.stands θ found := by
  obtain ⟨followed, shows⟩ := value_eq_ok_iff.1 read
  refine ⟨(derefWithin_ok followed).2 θ solution, ?_⟩
  cases value with
  | unbound => rfl
  | atom symbol => exact solution found _ shows
  | num number => exact solution found _ shows
  | compound functor header =>
    obtain ⟨at_header, pointed | same⟩ := shows
    · have pointer : θ found = θ header := solution found _ pointed
      rw [pointer]
      exact solution header _ at_header
    · subst same
      exact solution found _ at_header

/-! ### Values for new cells -/

theorem arguments_eq_addresses (functor : Functor) (header : Address) :
    Heap.arguments functor header = addresses (header + 1) functor.arity := rfl

/-- The arguments of a structure are in the cells after its header. -/
theorem mem_arguments_iff {functor : Functor} {header argument : Nat} :
    argument ∈ Heap.arguments functor header ↔
      header + 1 ≤ argument ∧ argument < header + 1 + functor.arity :=
  mem_addresses

/-- Values for the cells from `size` on. -/
def extend (θ : Valuation D) (size : Nat) (values : List D) : Valuation D := fun address ↦
  if address < size then θ address else values.getD (address - size) default

section Extend

variable {θ : Valuation D} {size : Nat} {values : List D}

theorem extend_of_lt {address : Nat} (inside : address < size) :
    extend θ size values address = θ address := if_pos inside

theorem extend_add (index : Nat) :
    extend θ size values (size + index) = values.getD index default := by
  rw [extend, if_neg (Nat.not_lt.2 (Nat.le_add_right size index)), Nat.add_sub_cancel_left]

end Extend

end Heap
end HornMachine
