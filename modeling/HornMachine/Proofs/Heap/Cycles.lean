import HornMachine.Proofs.Heap.Acyclic
import HornMachine.Proofs.Heap.Loading

/-!
# How cycles come about

A heap is solvable when terms meet the equations of its cells; then no structure reaches itself.
Main statements: unification under the occurs check, and every way of adding cells but one, keep a
heap solvable. The exception is a reference that is added as an argument: it makes the heap
unsolvable exactly when what it refers to speaks of the cell that is added.
-/

namespace HornMachine

namespace Heap

variable {heap : Heap} {admitted : Functor → Prop} {missing : Nat}

/-- Terms can meet the equations of the heap. -/
def Solvable (heap : Heap) : Prop := ∃ θ : Valuation Term, heap.Solution θ

theorem Solvable.acyclic (solvable : heap.Solvable) : heap.Acyclic := by
  obtain ⟨θ, solution⟩ := solvable
  exact solution.acyclic

theorem solvable_empty : ({} : Heap).Solvable := ⟨default, by simp [Solution]⟩

/-- The free addresses of a solvable heap can have any values. -/
theorem Solvable.exists_solution (solvable : heap.Solvable) (formed : heap.Formed admitted missing)
    (free : Valuation Term) :
    ∃ θ : Valuation Term, heap.Solution θ ∧
      ∀ address, heap.Free address → θ address = free address :=
  formed.exists_solution solvable.acyclic free

/-! ### Independence -/

/-- What the address stands for does not depend on what the place stands for. -/
def Independent (heap : Heap) (place address : Address) : Prop :=
  ∀ θ θ' : Valuation Term, heap.Solution θ → heap.Solution θ' →
    (∀ free, heap.Free free → free ≠ place → θ free = θ' free) → θ address = θ' address

/-- A free place can stand for what does not depend on it. -/
theorem Independent.exists_solution {place address : Address}
    (independent : heap.Independent place address)
    (formed : heap.Formed admitted missing) (solvable : heap.Solvable) (free : heap.Free place) :
    ∃ θ : Valuation Term, heap.Solution θ ∧ θ place = θ address := by
  obtain ⟨θ, solution⟩ := solvable
  obtain ⟨θ', solution', agrees⟩ :=
    Solvable.exists_solution ⟨θ, solution⟩ formed (Function.update θ place (θ address))
  refine ⟨θ', solution', ?_⟩
  rw [agrees place free, Function.update_self]
  refine independent θ θ' solution solution' fun other other_free differs ↦ ?_
  rw [agrees other other_free, Function.update_of_ne differs]

/-- A variable does not matter to what it does not occur in. -/
theorem independent_of_occursWithin {place : Address} {depth : Nat} {address : Address}
    (absent : heap.occursWithin place depth address = .ok false) :
    heap.Independent place address := by
  intro θ θ' solution solution' agree
  induction depth generalizing address with
  | zero => cases absent
  | succ depth ih =>
    rw [occursWithin] at absent
    obtain ⟨⟨found, value⟩, read, rest⟩ := Except.bind_eq_ok.1 absent
    obtain ⟨to_found, stands⟩ := solution.value read
    obtain ⟨to_found', stands'⟩ := solution'.value read
    rw [to_found, stands, to_found', stands']
    cases value with
    | atom | num => rfl
    | unbound =>
      simp only [Except.ok.injEq, decide_eq_false_iff_not] at rest
      exact agree found (.inr (value_eq_ok_iff.1 read).2) rest
    | compound functor header =>
      have each := Except.forall_of_anyM rest
      rw [Value.stands, Value.stands]
      congr 1
      exact List.map_congr_left fun argument member ↦ ih (each argument member)

/-- Nor does a place that no cell on the way speaks of. -/
theorem independent_of_not_below (ordered : WellFounded heap.Below) {place address : Address}
    (apart : ¬Relation.ReflTransGen heap.Below place address) : heap.Independent place address := by
  intro θ θ' solution solution' agree
  induction address using ordered.induction with
  | _ address ih =>
    have below {lower : Address} (step : heap.Below lower address) : θ lower = θ' lower :=
      ih lower step fun reaches ↦ apart (reaches.tail step)
    have differs : address ≠ place := fun same ↦ apart (same ▸ .refl)
    cases here : heap.cells[address]? with
    | none => exact agree address (.inl here) differs
    | some cell =>
      have holds := solution address cell here
      have holds' := solution' address cell here
      cases cell with
      | ref target =>
        by_cases bound : target = address
        · subst bound
          exact agree target (.inr here) differs
        · exact holds.trans ((below (.ref here bound)).trans holds'.symm)
      | str header => exact holds.trans ((below (.str here)).trans holds'.symm)
      | functor functor =>
        refine holds.trans (Eq.trans ?_ holds'.symm)
        congr 1
        exact List.map_congr_left fun argument member ↦ below (.arg here member)
      | atom | num => exact holds.trans holds'.symm

/-! ### New cells -/

/-- A free variable can be added. -/
theorem Solvable.pushVar (solvable : heap.Solvable) : heap.pushVar.Solvable := by
  obtain ⟨θ, solution⟩ := solvable
  exact ⟨θ, solution_pushVar.2 solution⟩

private theorem free_size (heap : Heap) : heap.Free heap.size :=
  .inl (Array.getElem?_eq_none (Nat.le_refl _))

/-- So can a cell that stands for a given value. -/
theorem Solvable.push (solvable : heap.Solvable) (formed : heap.Formed admitted missing)
    {cell : Cell}
    {value : Term} (stands : ∀ θ : Valuation Term, θ heap.size = value → cell.Holds θ heap.size) :
    (heap.push cell).Solvable := by
  obtain ⟨θ, solution, agrees⟩ := solvable.exists_solution formed fun _ ↦ value
  exact ⟨θ, solution_push.2 ⟨solution, stands θ (agrees heap.size heap.free_size)⟩⟩

/-- What a cell speaks of is no larger than what it stands for. -/
theorem Solution.size_le_of_below {θ : Valuation Term} (solution : heap.Solution θ)
    {lower upper : Address} (reaches : Relation.ReflTransGen heap.Below lower upper) :
    Sized.size (θ lower) ≤ Sized.size (θ upper) := by
  induction reaches with
  | refl => exact Nat.le_refl _
  | tail _ last ih =>
    refine Nat.le_trans ih ?_
    cases last with
    | ref here | str here => rw [solution _ _ here]
    | arg here member => exact Nat.le_of_lt (solution.size_lt here member)

/-- A reference that is added makes the heap unsolvable exactly when what it refers to speaks of the
cell that is added. -/
theorem Formed.solvable_push_ref_iff (formed : heap.Formed admitted missing)
    (solvable : heap.Solvable) {address : Nat} (inside : address < heap.size) :
    (heap.push (.ref address)).Solvable ↔ ¬Relation.ReflTransGen heap.Below heap.size address := by
  constructor
  · rintro ⟨θ, solution⟩ reaches
    obtain ⟨solution, holds⟩ := solution_push.1 solution
    obtain same | ⟨upper, first, rest⟩ := reaches.cases_head
    · exact absurd inside (same ▸ Nat.lt_irrefl _)
    have rest := solution.size_le_of_below rest
    -- only a structure speaks of a cell that is not there yet
    cases first with
    | ref here => exact absurd (formed.ref _ _ here) (Nat.lt_irrefl _)
    | str here =>
      obtain ⟨functor, there⟩ := formed.str _ _ here
      exact absurd (lt_size_of_getElem? there) (Nat.lt_irrefl _)
    | arg here member =>
      have smaller := solution.size_lt here member
      rw [show θ heap.size = θ address from holds] at smaller
      omega
  · intro apart
    have independent := independent_of_not_below (formed.wellFounded_below solvable.acyclic) apart
    obtain ⟨θ, solution, same⟩ := independent.exists_solution formed solvable heap.free_size
    exact ⟨θ, solution_push.2 ⟨solution, same⟩⟩

end Heap

/-! ### Bindings -/

namespace Memory

open Heap

/-- Bindings made under the occurs check keep a heap solvable. -/
theorem Binds.solvable {memory later : Memory} (binds : Binds .on memory later)
    {admitted : Functor → Prop} {missing : Nat} (formed : memory.heap.Formed admitted missing)
    (solvable : memory.heap.Solvable) : later.heap.Solvable := by
  induction binds with
  | refl => exact solvable
  | @step later before address target admissible ih =>
    have later_formed := before.formed formed
    have free : later.heap.Free address := .inr admissible.unbound
    suffices found : ∃ θ : Valuation Term, later.heap.Solution θ ∧ θ address = θ target by
      obtain ⟨θ, solution, same⟩ := found
      exact ⟨θ, (solution_set_ref admissible.unbound).2 ⟨solution, same⟩⟩
    obtain ⟨unbound, -⟩ | ⟨cell, here, other, absent⟩ := admissible.kind
    · obtain ⟨θ, solution, agrees⟩ := ih.exists_solution later_formed default
      exact ⟨θ, solution, (agrees address free).trans (agrees target (.inr unbound)).symm⟩
    · exact (independent_of_occursWithin (absent rfl)).exists_solution later_formed ih free

/-- Freeing variables keeps a heap solvable. -/
theorem solvable_unbindLast {memory : Memory} (solvable : memory.heap.Solvable) (count : Nat) :
    (memory.unbindLast count).heap.Solvable := by
  induction count generalizing memory with
  | zero => exact solvable
  | succ count ih =>
    rw [unbindLast]
    split
    · exact solvable
    · next address latest =>
      obtain ⟨θ, solution⟩ := solvable
      refine ih ⟨θ, fun place cell here ↦ ?_⟩
      rw [Heap.unbind, getElem?_set] at here
      split at here
      · next freed =>
        cases here
        exact congrArg θ freed.1.symm
      · exact solution place cell here

theorem solvable_truncate {memory : Memory} (solvable : memory.heap.Solvable) (size : Nat) :
    (memory.truncate size).heap.Solvable := by
  obtain ⟨θ, solution⟩ := solvable
  refine ⟨θ, fun place cell here ↦ ?_⟩
  rw [truncate, getElem?_truncate] at here
  split at here
  · exact solution place cell here
  · cases here

/-- So does adding a ground term. -/
theorem solvable_loadAlone {memory : Memory} {admitted : Functor → Prop}
    (formed : memory.heap.Formed admitted 0) (solvable : memory.heap.Solvable) {term : Term}
    (ground : term.isGround = true) (kinds : term.AllFunctors admitted) {address : Address}
    {heap : Heap} (ended : memory.heap.loadAlone term = (.ok address, heap)) : heap.Solvable := by
  obtain ⟨-, -, -, -, forth⟩ := narrows_loadAlone Term formed ground kinds ended
  obtain ⟨θ, solution⟩ := solvable
  obtain ⟨θ', -, solution'⟩ := forth θ solution
  exact ⟨θ', solution'⟩

end Memory

end HornMachine
