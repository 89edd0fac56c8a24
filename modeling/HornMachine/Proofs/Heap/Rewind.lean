import HornMachine.Proofs.Heap.Unification

/-!
# Going back to an earlier memory

Bindings are recorded on the trail and cells are added at the end, so a memory can be taken back to
an earlier one: free the variables bound since, then cut off the cells added since. `Rewinds` says
that this gives exactly the earlier memory. Main statements: adding cells and binding free variables
keep it, going back in two steps is going back at once, and a failed unification leaves the memory
as it was.
-/

namespace HornMachine.Memory

open Heap

/-- Freeing the variables bound since and cutting off the cells added since gives the earlier
memory. -/
structure Rewinds (later earlier : Memory) : Prop where
  trail : earlier.trail.size ≤ later.trail.size
  heap : earlier.heap.size ≤ later.heap.size
  back : (later.unbindLast (later.trail.size - earlier.trail.size)).truncate earlier.heap.size =
    earlier

/-! ### Truncating and freeing -/

theorem ext {memory other : Memory} (heap : memory.heap = other.heap)
    (trail : memory.trail = other.trail) : memory = other := by
  cases memory
  cases other
  cases heap
  cases trail
  rfl

private theorem truncate_of_le {heap : Heap} {count : Nat} (short : heap.size ≤ count) :
    heap.truncate count = heap := by
  apply ext_getElem?
  intro address
  rw [getElem?_truncate]
  split
  · rfl
  · next outside =>
    rw [Array.getElem?_eq_none]
    exact Nat.le_trans short (Nat.le_of_not_lt outside)

private theorem truncate_truncate (heap : Heap) {first second : Nat} (smaller : second ≤ first) :
    (heap.truncate first).truncate second = heap.truncate second := by
  apply ext_getElem?
  intro address
  rw [getElem?_truncate, getElem?_truncate, getElem?_truncate]
  split
  · next kept => rw [if_pos (Nat.lt_of_lt_of_le kept smaller)]
  · rfl

private theorem truncate_push {heap : Heap} {cell : Cell} {count : Nat} (kept : count ≤ heap.size) :
    (heap.push cell).truncate count = heap.truncate count := by
  apply ext_getElem?
  intro address
  rw [getElem?_truncate, getElem?_truncate, getElem?_push]
  split
  · next inside => rw [if_neg (Nat.ne_of_lt (Nat.lt_of_lt_of_le inside kept))]
  · rfl

/-- Freeing a variable and cutting off cells may change places. -/
theorem truncate_unbind (heap : Heap) (address count : Nat) :
    (heap.unbind address).truncate count = (heap.truncate count).unbind address := by
  apply ext_getElem?
  intro other
  rw [getElem?_truncate, unbind, unbind, getElem?_set, getElem?_set, getElem?_truncate,
    size_truncate]
  by_cases kept : other < count
  · by_cases same : address = other
    · subst same
      simp [kept]
    · simp [kept, same]
  · have apart : ¬(address = other ∧ address < min count heap.size) := by omega
    rw [if_neg kept, if_neg apart, if_neg kept]

@[simp]
theorem size_heap_unbindLast (memory : Memory) (count : Nat) :
    (memory.unbindLast count).heap.size = memory.heap.size := by
  induction count generalizing memory with
  | zero => rfl
  | succ count ih =>
    rw [unbindLast]
    split
    · rfl
    · rw [ih, size_unbind]

private theorem unbindLast_truncate (memory : Memory) (count size : Nat) :
    (memory.unbindLast count).truncate size = (memory.truncate size).unbindLast count := by
  induction count generalizing memory with
  | zero => rfl
  | succ count ih =>
    rw [unbindLast, unbindLast]
    cases last : memory.trail.back? with
    | none => simp [truncate, last]
    | some address =>
      simp only [truncate, last]
      rw [← truncate_unbind]
      exact ih _

/-- Freeing variables in two steps is freeing them at once. -/
theorem unbindLast_add (memory : Memory) (first second : Nat) :
    memory.unbindLast (first + second) = (memory.unbindLast first).unbindLast second := by
  induction first generalizing memory with
  | zero => rw [Nat.zero_add, unbindLast]
  | succ first ih =>
    rw [Nat.add_right_comm, unbindLast, unbindLast]
    cases last : memory.trail.back? with
    | none =>
      cases second with
      | zero => rfl
      | succ second => rw [unbindLast, last]
    | some address => exact ih _

/-- Freeing the variable bound last takes the binding back. -/
theorem unbindLast_assign {memory : Memory} {address target : Address} (count : Nat)
    (unbound : memory.heap.cells[address]? = some (.ref address)) :
    (memory.assign address target).unbindLast (count + 1) = memory.unbindLast count := by
  have same : (memory.heap.set address (.ref target)).unbind address = memory.heap := by
    apply ext_getElem?
    intro other
    rw [unbind, getElem?_set, getElem?_set]
    by_cases here : address = other
    · subst here
      rw [unbound, if_pos ⟨rfl, by simpa using lt_size_of_getElem? unbound⟩]
    · simp [here]
  rw [unbindLast, assign]
  simp only [Array.back?_push, Array.pop_push, same]

/-! ### Memories that can be taken back -/

namespace Rewinds

theorem refl (memory : Memory) : memory.Rewinds memory := by
  refine ⟨Nat.le_refl _, Nat.le_refl _, ?_⟩
  rw [Nat.sub_self, unbindLast, truncate, truncate_of_le (Nat.le_refl _)]

theorem trans {first second third : Memory} (one : third.Rewinds second)
    (two : second.Rewinds first) : third.Rewinds first := by
  refine ⟨Nat.le_trans two.trail one.trail, Nat.le_trans two.heap one.heap, ?_⟩
  have split : third.trail.size - first.trail.size =
      (third.trail.size - second.trail.size) + (second.trail.size - first.trail.size) := by
    have := one.trail
    have := two.trail
    omega
  calc (third.unbindLast (third.trail.size - first.trail.size)).truncate first.heap.size
      = (((third.unbindLast (third.trail.size - second.trail.size)).truncate
          second.heap.size).truncate first.heap.size).unbindLast
            (second.trail.size - first.trail.size) := by
        rw [split, unbindLast_add, unbindLast_truncate]
        simp only [truncate, truncate_truncate _ two.heap]
    _ = (second.unbindLast (second.trail.size - first.trail.size)).truncate first.heap.size := by
        rw [one.back, unbindLast_truncate]
    _ = first := two.back

/-- A cell added at the end is cut off. -/
theorem push {later earlier : Memory} (rewinds : later.Rewinds earlier) (cell : Cell) :
    ({ later with heap := later.heap.push cell } : Memory).Rewinds earlier := by
  refine ⟨rewinds.trail, Nat.le_trans rewinds.heap (by simp), ?_⟩
  rw [unbindLast_truncate, truncate, truncate_push rewinds.heap, ← truncate, ← unbindLast_truncate]
  exact rewinds.back

/-- A binding of a free variable is taken back. -/
theorem assign {later earlier : Memory} (rewinds : later.Rewinds earlier) {address : Address}
    (target : Address) (unbound : later.heap.cells[address]? = some (.ref address)) :
    (later.assign address target).Rewinds earlier := by
  have grown : (later.assign address target).trail.size = later.trail.size + 1 := by
    simp [Memory.assign]
  refine ⟨by have := rewinds.trail; omega, by simpa [Memory.assign] using rewinds.heap, ?_⟩
  rw [grown, Nat.sub_add_comm rewinds.trail, unbindLast_assign _ unbound]
  exact rewinds.back

end Rewinds

/-! ### Unification can be taken back -/

/-- A memory that can be taken back by freeing variables alone. -/
structure Rebinds (later earlier : Memory) : Prop extends later.Rewinds earlier where
  size : later.heap.size = earlier.heap.size

namespace Rebinds

theorem refl (memory : Memory) : memory.Rebinds memory := ⟨.refl memory, rfl⟩

private theorem unbindLast_eq {later earlier : Memory} (rebinds : later.Rebinds earlier) :
    later.unbindLast (later.trail.size - earlier.trail.size) = earlier := by
  have back := rebinds.back
  rwa [truncate, truncate_of_le] at back
  rw [size_heap_unbindLast, rebinds.size]

end Rebinds

/-- Bindings of free variables can be taken back. -/
theorem Binds.rebinds {check : OccursCheck} {memory later : Memory}
    (binds : Binds check memory later) : later.Rebinds memory := by
  induction binds with
  | refl => exact .refl memory
  | step _ admissible ih =>
    exact ⟨ih.toRewinds.assign _ admissible.unbound, (size_set _ _ _).trans ih.size⟩

/-- What unification does to the memory: bindings if it succeeds, nothing if it fails. -/
theorem binds_unify {check : OccursCheck} {memory later : Memory} {a b : Address}
    {result : Except Fault Bool} (ended : memory.unify check a b = (result, later)) :
    Binds check memory later := by
  have binds := binds_unifyWithin check memory.depthBound a b { memory }
  change settle _ (unifyWithin check memory.depthBound a b { memory }) = _ at ended
  generalize unifyWithin check memory.depthBound a b { memory } = last at binds ended
  cases last with
  | ok done state =>
    cases ended
    exact binds
  | error obstacle state =>
    cases obstacle with
    | fault fault =>
      cases ended
      exact binds
    | clash | unfinished =>
      cases ended
      have back : state.memory.unbindLast (state.memory.trail.size - memory.trail.size) = memory :=
        binds.rebinds.unbindLast_eq
      rw [back]
      exact .refl

/-- A failed unification leaves the memory as it was. -/
theorem unify_eq_self {check : OccursCheck} {memory later : Memory} {a b : Address}
    (ended : memory.unify check a b = (.ok false, later)) : later = memory := by
  have binds := binds_unifyWithin check memory.depthBound a b { memory }
  change settle _ (unifyWithin check memory.depthBound a b { memory }) = _ at ended
  generalize unifyWithin check memory.depthBound a b { memory } = last at binds ended
  cases last with
  | ok done state => cases ended
  | error obstacle state =>
    cases obstacle with
    | fault fault => cases ended
    | clash | unfinished =>
      cases ended
      exact binds.rebinds.unbindLast_eq

end HornMachine.Memory
