import HornMachine.Proofs.Heap.Trees

/-!
# Unifying with something ground

An address is rigid if the same finite tree stands there in all solutions of the heap, as at the
place a fact is loaded to. No variable occurs there, so a unification with such an address binds
variables of the other side only, and the occurs check before that comes to an end, whatever cycles
the rest of the heap has. Main statement: unifying with a rigid address ends in no fault.
-/

namespace HornMachine

namespace Heap

variable {heap later : Heap} {admitted : Functor → Prop} {address : Address}

/-- The same finite tree stands at an address in all solutions of the heap. -/
def Rigid (heap : Heap) (address : Address) : Prop :=
  ∃ term : Term, ∀ θ : Valuation Tree, heap.Solution θ → θ address = term.tree

theorem Rigid.mono (rigid : heap.Rigid address)
    (fewer : ∀ θ : Valuation Tree, later.Solution θ → heap.Solution θ) : later.Rigid address := by
  obtain ⟨term, same⟩ := rigid
  exact ⟨term, fun θ solution ↦ same θ (fewer θ solution)⟩

variable (formed : heap.Formed admitted 0)

include formed

/-- Different trees may stand for a variable. -/
theorem Rigid.value_ne_unbound (rigid : heap.Rigid address) (found : Address) :
    heap.value address ≠ .ok (found, .unbound) := by
  intro read
  obtain ⟨term, same⟩ := rigid
  have one := same _ (formed.solution_trees fun _ ↦ 0)
  have other := same _ (formed.solution_trees fun _ ↦ 1)
  rw [trees_of_unbound _ read] at one other
  have leaves := one.trans other.symm
  rw [Tree.leaf_inj] at leaves
  cases leaves

theorem Rigid.argument {header argument : Address} {functor : Functor}
    (here : heap.cells[header]? = some (.functor functor)) (rigid : heap.Rigid header)
    (member : argument ∈ arguments functor header) : heap.Rigid argument := by
  obtain ⟨term, same⟩ := rigid
  have whole (θ : Valuation Tree) (solution : heap.Solution θ) :
      term.tree = Domain.struct functor.symbol ((arguments functor header).map θ) :=
    (same θ solution).symm.trans (solution header _ here)
  have first := whole _ (formed.solution_trees fun _ ↦ 0)
  obtain ⟨⟨part, stands⟩, -⟩ := Tree.sizes.arg ⟨term, first⟩ (List.mem_map_of_mem member)
  refine ⟨part, fun θ solution ↦ ?_⟩
  have args := (Domain.struct_inj.1 ((whole θ solution).symm.trans first)).2
  exact (List.map_inj_left.1 args argument member).trans stands.symm

/-- The occurs check comes to an end where something finite stands. -/
theorem Rigid.occurs_ne_error {target : Nat} (rigid : heap.Rigid target)
    (inside : target < heap.size)
    (address : Address) (fault : Fault) : heap.occurs address target ≠ .error fault := by
  intro failed
  obtain ⟨term, same⟩ := rigid
  have solution := formed.solution_trees fun _ ↦ 0
  have finite : Tree.sizes.Finite (heap.trees (fun _ ↦ 0) target) := ⟨term, (same _ solution).symm⟩
  have fails : Except.FailsOnly (Fault.Cyclic True) (heap.occurs address target) :=
    formed.failsOnly_occursWithin (fun _ ↦ solution) address inside (fun _ ↦ finite) fun _ ↦
      Nat.lt_succ_of_le (Memory.smallCount_le Tree.sizes _ heap.size _)
  exact (fails fault failed).2 trivial

end Heap

namespace Memory

open Heap

variable {admitted : Functor → Prop} {check : OccursCheck}

/-- A unification that ends without a fault. -/
def Obstacle.Harmless (obstacle : Obstacle) : Prop := ∀ fault, obstacle ≠ .fault fault

/-- Going down two terms, the second of which is ground, meets no fault. -/
theorem harmless_unifyWithin (depth : Nat) {a b : Nat} (state : Unifying)
    (formed : state.memory.heap.Formed admitted 0) (inside_a : a < state.memory.heap.size)
    (inside_b : b < state.memory.heap.size) (rigid : state.memory.heap.Rigid b) :
    FailsOnly Obstacle.Harmless (unifyWithin check depth a b) state := by
  induction depth generalizing a b state with
  | zero => exact failsOnly_throw nofun state
  | succ depth ih =>
    intro obstacle last ended
    have move := move_unifyWithin Tree check depth state a b
    rw [ended] at move
    cases move with
    | clash => exact nofun
    | fault fault cause =>
      obtain ⟨address, member, failed⟩ | ⟨-, address, target, ⟨shown, faces⟩, failed⟩ := cause
      · have inside : address < state.memory.heap.size := by
          rcases List.mem_pair.1 member with rfl | rfl <;> assumption
        exact absurd trivial (formed.failsOnly_value inside True _ failed).2
      · obtain ⟨-, read⟩ | ⟨read, -⟩ := faces
        · obtain ⟨term, same⟩ := rigid
          have at_target : state.memory.heap.Rigid target :=
            ⟨term, fun θ solution ↦ (solution.value read).1.symm.trans (same θ solution)⟩
          exact absurd failed (at_target.occurs_ne_error formed
            (Formed.found_lt read) address fault)
        · exact absurd read (rigid.value_ne_unbound formed address)
    | descend functor left right at_left at_right _ same _ run =>
      have at_header : state.memory.heap.Rigid right := by
        obtain ⟨term, stands⟩ := rigid
        exact ⟨term, fun θ solution ↦ (same θ solution).2.symm.trans (stands θ solution)⟩
      -- bindings keep the heap well formed, its size, and what stands in all solutions
      let holds (later : Unifying) := later.memory.heap.Formed admitted 0 ∧
        later.memory.heap.size = state.memory.heap.size ∧
        ∀ θ : Valuation Tree, later.memory.heap.Solution θ → state.memory.heap.Solution θ
      have begins : holds (state.taken check left right) := by simp [holds, formed]
      refine failsOnly_forM holds (fun pair member next ⟨next_formed, size, fewer⟩ ↦
        ⟨?_, fun done later ran ↦ ?_⟩) begins _ _ run
      · obtain ⟨at_one, at_two⟩ := List.of_mem_zip member
        exact ih next next_formed (size ▸ formed.lt_size_of_mem_arguments at_left at_one)
          (size ▸ formed.lt_size_of_mem_arguments at_right at_two)
          ((Rigid.argument formed at_right at_header at_two).mono fewer)
      · have binds := binds_unifyWithin check depth pair.1 pair.2 next
        rw [ran] at binds
        obtain ⟨leads, -⟩ := leads_unifyWithin (D := Tree) ran
        exact ⟨binds.formed next_formed, binds.rebinds.size.trans size, fun θ solution ↦
          fewer θ (leads.solution θ solution)⟩

/-- Unification with a rigid address comes to an answer. -/
theorem exists_unify_of_rigid {memory : Memory} (formed : memory.heap.Formed admitted 0) {a b : Nat}
    (inside_a : a < memory.heap.size) (inside_b : b < memory.heap.size)
    (rigid : memory.heap.Rigid b) :
    ∃ unified later, memory.unify check a b = (.ok unified, later) := by
  have fails : FailsOnly Obstacle.Harmless (unifyWithin check memory.depthBound a b) { memory } :=
    harmless_unifyWithin _ _ formed inside_a inside_b rigid
  rw [unify]
  change ∃ unified later, settle _ (unifyWithin check memory.depthBound a b { memory }) = _
  cases ended : unifyWithin check memory.depthBound a b { memory } with
  | ok done state => exact ⟨true, state.memory, rfl⟩
  | error obstacle state =>
    cases obstacle with
    | fault fault => exact absurd rfl (fails _ _ ended fault)
    | clash | unfinished => exact ⟨false, _, rfl⟩

end Memory

end HornMachine
