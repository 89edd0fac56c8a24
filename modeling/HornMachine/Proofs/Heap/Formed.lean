import HornMachine.Proofs.Computation
import HornMachine.Proofs.Heap.Unification
import Mathlib.Data.List.Perm.Subperm
import Mathlib.Logic.Relation
import Mathlib.Order.WellFounded

/-!
# Well-formed heaps

In a well-formed heap references stay inside and end, structure cells point at headers, and the
argument cells of every header are there. While a structure is being built at the end of the heap, a
number of its argument cells are still missing. Main statements: every address has a value, and each
operation of the machine keeps a heap well formed.
-/

namespace HornMachine.Heap

/-- The cell at `address` is a variable bound to `target`. -/
def Refers (heap : Heap) (target address : Address) : Prop :=
  heap.cells[address]? = some (.ref target) ∧ target ≠ address

/-- Pointers lead where they should, and all functors are admitted ones; at most `missing` argument
cells at the end are not there yet. -/
structure Formed (heap : Heap) (admitted : Functor → Prop) (missing : Nat) : Prop where
  ref : ∀ address target : Nat, heap.cells[address]? = some (.ref target) → target < heap.size
  ends : ∀ address, Acc heap.Refers address
  str : ∀ address header : Nat, heap.cells[address]? = some (.str header) →
    ∃ functor, heap.cells[header]? = some (.functor functor)
  functor : ∀ (header : Nat) (functor : Functor), heap.cells[header]? = some (.functor functor) →
    admitted functor ∧ header + functor.arity < heap.size + missing

/-- References end at once where nothing is bound. -/
theorem acc_refers_of_cell {heap : Heap} {address : Address}
    (last : ∀ target, heap.cells[address]? = some (.ref target) → target = address) :
    Acc heap.Refers address :=
  Acc.intro _ fun target refers ↦ absurd (last target refers.1) refers.2

/-- References of a heap that grows end where they did. -/
theorem acc_refers_of_getElem? {heap later : Heap} (inside : ∀ address target : Nat,
      heap.cells[address]? = some (.ref target) → target < heap.size)
    (same : ∀ address : Nat, address < heap.size → later.cells[address]? = heap.cells[address]?)
    {address : Nat} (ends : Acc heap.Refers address) (lower : address < heap.size) :
    Acc later.Refers address := by
  induction ends with
  | intro address _ ih =>
    refine Acc.intro _ fun target refers ↦ ?_
    have here : heap.cells[address]? = some (.ref target) := by
      rw [← same address lower]
      exact refers.1
    exact ih target ⟨here, refers.2⟩ (inside address target here)

namespace Formed

variable {heap : Heap} {admitted : Functor → Prop} {missing : Nat}

theorem empty : ({} : Heap).Formed admitted 0 := by
  refine ⟨?_, fun address ↦ acc_refers_of_cell (by simp), ?_, ?_⟩
  · simp
  · simp
  · simp

/-! ### References end -/

/-- Following references either ends or passes one more cell than the steps taken, all different. -/
theorem derefWithin_or_path (formed : heap.Formed admitted missing) (steps : Nat) {address : Nat}
    (inside : address < heap.size) :
    (∃ found, heap.derefWithin steps address = .ok found) ∨
      ∃ path : List Nat, path.length = steps + 1 ∧ path.Nodup ∧ ∀ passed ∈ path,
        passed < heap.size ∧ (passed = address ∨ Relation.TransGen heap.Refers passed address) := by
  have ends : WellFounded heap.Refers := ⟨formed.ends⟩
  induction steps generalizing address with
  | zero => exact .inr ⟨[address], rfl, by simp, by simpa using inside⟩
  | succ steps ih =>
    obtain ⟨cell, here⟩ : ∃ cell, heap.cells[address]? = some cell :=
      ⟨_, Array.getElem?_eq_getElem inside⟩
    rw [derefWithin, cell_eq_ok_iff.2 here]
    cases cell with
    | str _ | functor _ | atom _ | num _ => exact .inl ⟨address, rfl⟩
    | ref target =>
      by_cases own : target = address
      · exact .inl ⟨address, by simp [own, bind, Except.bind]⟩
      · simp only [own, if_false, bind, Except.bind]
        rcases ih (formed.ref address target here) with ended | ⟨path, length, nodup, passes⟩
        · exact .inl ended
        · have refers : heap.Refers target address := ⟨here, own⟩
          have below (passed : Nat) (member : passed ∈ path) :
              Relation.TransGen heap.Refers passed address := by
            rcases (passes passed member).2 with rfl | further
            · exact .single refers
            · exact further.tail refers
          refine .inr ⟨address :: path, by simp [length], List.nodup_cons.2 ⟨?_, nodup⟩, ?_⟩
          · exact fun member ↦ ends.transGen.irrefl.irrefl address (below address member)
          · intro passed member
            rcases List.mem_cons.1 member with rfl | later
            · exact ⟨inside, .inl rfl⟩
            · exact ⟨(passes passed later).1, .inr (below passed later)⟩

/-- References end within as many steps as there are cells. -/
theorem exists_derefWithin (formed : heap.Formed admitted missing) {address : Nat}
    (inside : address < heap.size) : ∃ found, heap.derefWithin heap.size address = .ok found := by
  rcases formed.derefWithin_or_path heap.size inside with ended | ⟨path, length, nodup, passes⟩
  · exact ended
  · have subset : path ⊆ List.range heap.size :=
      fun passed member ↦ List.mem_range.2 (passes passed member).1
    have short := (List.subperm_of_subset nodup subset).length_le
    rw [length, List.length_range] at short
    omega

/-- Once references have ended, more steps change nothing. -/
theorem derefWithin_succ {steps : Nat} {address found : Address}
    (ended : heap.derefWithin steps address = .ok found) :
    heap.derefWithin (steps + 1) address = .ok found := by
  induction steps generalizing address with
  | zero => cases ended
  | succ steps ih =>
    rw [derefWithin] at ended ⊢
    obtain ⟨cell, here, rest⟩ := Except.bind_eq_ok.1 ended
    refine Except.bind_eq_ok.2 ⟨cell, here, ?_⟩
    cases cell with
    | ref target =>
      by_cases own : target = address
      · simpa [own] using rest
      · simp only [own, if_false] at rest ⊢
        exact ih rest
    | str _ | functor _ | atom _ | num _ => exact rest

/-- Every address of the heap has a value. -/
theorem exists_value (formed : heap.Formed admitted missing) {address : Nat}
    (inside : address < heap.size) :
    ∃ found value, heap.value address = .ok (found, value) := by
  obtain ⟨found, ended⟩ := formed.exists_derefWithin inside
  have followed : heap.deref address = .ok found := derefWithin_succ ended
  obtain ⟨⟨cell, at_found, last⟩, -⟩ := derefWithin_ok followed
  suffices ∃ value, heap.Shows found value by
    obtain ⟨value, shown⟩ := this
    exact ⟨found, value, value_eq_ok_iff.2 ⟨followed, shown⟩⟩
  cases cell with
  | ref target => exact ⟨.unbound, by rw [Shows, at_found, last target rfl]⟩
  | str header =>
    obtain ⟨functor, at_header⟩ := formed.str found header at_found
    exact ⟨.compound functor header, at_header, .inl at_found⟩
  | functor functor => exact ⟨.compound functor found, at_found, .inr rfl⟩
  | atom symbol => exact ⟨.atom symbol, at_found⟩
  | num value => exact ⟨.num value, at_found⟩

/-- A reference and its target refer to the same. -/
theorem value_ref (formed : heap.Formed admitted missing) {address target : Nat}
    (here : heap.cells[address]? = some (.ref target)) (bound : target ≠ address) :
    heap.value address = heap.value target := by
  have same : heap.deref address = heap.deref target := by
    obtain ⟨found, ended⟩ := formed.exists_derefWithin (formed.ref address target here)
    rw [deref, derefWithin, cell_eq_ok_iff.2 here]
    simp only [bound, if_false, bind, Except.bind]
    rw [ended, deref, derefWithin_succ ended]
  rw [Heap.value, Heap.value, same]

/-- The arguments after a header are in the heap. -/
theorem lt_size_of_mem_arguments (formed : heap.Formed admitted 0) {header : Nat}
    {functor : Functor} (here : heap.cells[header]? = some (.functor functor)) {argument : Nat}
    (member : argument ∈ arguments functor header) : argument < heap.size := by
  have bound := (formed.functor header functor here).2
  obtain ⟨-, below⟩ := mem_arguments_iff.1 member
  omega

/-- The arguments of a structure are in the heap. -/
theorem argument_lt (formed : heap.Formed admitted 0) {address found header : Nat}
    {functor : Functor}
    (read : heap.value address = .ok (found, .compound functor header)) {argument : Nat}
    (member : argument ∈ arguments functor header) : argument < heap.size :=
  formed.lt_size_of_mem_arguments (value_eq_ok_iff.1 read).2.1 member

/-- The cell that was found by following references is in the heap. -/
theorem found_lt {address found : Nat} {value : Value}
    (read : heap.value address = .ok (found, value)) : found < heap.size := by
  obtain ⟨⟨cell, at_found, -⟩, -⟩ := derefWithin_ok (value_eq_ok_iff.1 read).1
  exact lt_size_of_getElem? at_found

/-! ### Growing heaps -/

/-- A cell that may be added at the end: a reference leads inside or is a new variable, and there
are no pointers to headers nor headers. -/
def Simple (heap : Heap) : Cell → Prop
  | .ref target => target ≤ heap.size
  | .str _ | .functor _ => False
  | .atom _ | .num _ => True

theorem getElem?_push_of_lt {heap : Heap} {address : Nat} (cell : Cell)
    (inside : address < heap.size) : (heap.push cell).cells[address]? = heap.cells[address]? := by
  rw [getElem?_push, if_neg (Nat.ne_of_lt inside)]

/-- A simple cell takes the place of one that was missing, if any. -/
theorem push (formed : heap.Formed admitted missing) {cell : Cell} (simple : Simple heap cell) :
    (heap.push cell).Formed admitted (missing - 1) := by
  have kept {address : Nat} {found : Cell} (at_address : heap.cells[address]? = some found) :
      (heap.push cell).cells[address]? = some found := by
    rw [getElem?_push_of_lt cell (lt_size_of_getElem? at_address), at_address]
  have older {address : Nat} (lower : address < heap.size) : Acc (heap.push cell).Refers address :=
    acc_refers_of_getElem? formed.ref (fun _ ↦ getElem?_push_of_lt cell) (formed.ends address) lower
  refine ⟨fun address target here ↦ ?_, fun address ↦ ?_, fun address header here ↦ ?_,
    fun header functor here ↦ ?_⟩
  · rw [getElem?_push] at here
    rw [size_push]
    split at here
    · cases here
      exact Nat.lt_succ_of_le simple
    · exact Nat.lt_succ_of_lt (formed.ref address target here)
  · refine Acc.intro _ fun target refers ↦ ?_
    have here := refers.1
    rw [getElem?_push] at here
    split at here
    · next last =>
      cases here
      have bound : target ≤ heap.size := simple
      exact older (Nat.lt_of_le_of_ne bound fun same ↦ refers.2 (same.trans last.symm))
    · exact older (formed.ref address target here)
  · rw [getElem?_push] at here
    split at here
    · cases here
      exact simple.elim
    · obtain ⟨functor, found⟩ := formed.str address header here
      exact ⟨functor, kept found⟩
  · rw [getElem?_push] at here
    split at here
    · cases here
      exact simple.elim
    · obtain ⟨kind, bound⟩ := formed.functor header functor here
      rw [size_push]
      exact ⟨kind, by omega⟩

theorem pushVar (formed : heap.Formed admitted missing) :
    heap.pushVar.Formed admitted (missing - 1) :=
  formed.push (Nat.le_refl _)

/-- A structure begun at the end misses all its arguments. -/
theorem pushStructure (formed : heap.Formed admitted 0) {functor : Functor}
    (kind : admitted functor) :
    (heap.pushStructure functor).Formed admitted functor.arity := by
  have cells := getElem?_pushStructure heap functor
  have kept {address : Nat} {found : Cell} (at_address : heap.cells[address]? = some found) :
      (heap.pushStructure functor).cells[address]? = some found := by
    have inside := lt_size_of_getElem? at_address
    rw [cells, if_neg (by omega), if_neg (by omega), at_address]
  have reference {address target : Nat}
      (here : (heap.pushStructure functor).cells[address]? = some (.ref target)) :
      heap.cells[address]? = some (.ref target) := by
    rw [cells] at here
    split at here
    · cases here
    · split at here
      · cases here
      · exact here
  refine ⟨fun address target here ↦ ?_, fun address ↦ ?_, fun address header here ↦ ?_,
    fun header other here ↦ ?_⟩
  · have inside := formed.ref address target (reference here)
    rw [size_pushStructure]
    omega
  · refine Acc.intro _ fun target refers ↦ ?_
    exact acc_refers_of_getElem? formed.ref (fun _ ↦ getElem?_pushStructure_of_lt functor)
      (formed.ends target) (formed.ref address target (reference refers.1))
  · rw [cells] at here
    split at here
    · cases here
    · split at here
      · cases here
        exact ⟨functor, by rw [cells, if_pos rfl]⟩
      · obtain ⟨other, found⟩ := formed.str address header here
        exact ⟨other, kept found⟩
  · rw [size_pushStructure]
    rw [cells] at here
    split at here
    · next last =>
      cases here
      exact ⟨kind, by omega⟩
    · split at here
      · cases here
      · obtain ⟨older, bound⟩ := formed.functor header other here
        exact ⟨older, by omega⟩

/-! ### Bindings -/

/-- Binding a free variable where unification binds it keeps a heap well formed. -/
theorem assign (formed : heap.Formed admitted missing) {check : OccursCheck} {address target : Nat}
    (admissible : Memory.Target check heap address target) :
    (heap.set address (.ref target)).Formed admitted missing := by
  have unbound := admissible.unbound
  have inside := lt_size_of_getElem? unbound
  have kept {place : Nat} {cell : Cell} (at_place : heap.cells[place]? = some cell)
      (other : ∀ next, cell ≠ .ref next) :
      (heap.set address (.ref target)).cells[place]? = some cell := by
    rw [getElem?_set, if_neg, at_place]
    rintro ⟨rfl, -⟩
    rw [unbound] at at_place
    cases at_place
    exact other _ rfl
  have older {place : Nat} {cell : Cell} (other : ∀ next, cell ≠ .ref next)
      (here : (heap.set address (.ref target)).cells[place]? = some cell) :
      heap.cells[place]? = some cell := by
    rw [getElem?_set] at here
    split at here
    · cases here
      exact absurd rfl (other _)
    · exact here
  -- The variable is bound to something that is not bound itself.
  have last : Acc (heap.set address (.ref target)).Refers target := by
    refine acc_refers_of_cell fun next here ↦ ?_
    rcases admissible.kind with ⟨free, smaller⟩ | ⟨cell, found, other, -⟩
    · rw [getElem?_set, if_neg (fun both ↦ Nat.ne_of_lt smaller both.1.symm), free] at here
      cases here
      rfl
    · rw [kept found other] at here
      cases here
      exact absurd rfl (other next)
  refine ⟨fun place next here ↦ ?_, fun place ↦ ?_, fun place header here ↦ ?_,
    fun header functor here ↦ ?_⟩
  · rw [size_set]
    rw [getElem?_set] at here
    split at here
    · cases here
      rcases admissible.kind with ⟨free, -⟩ | ⟨cell, found, -⟩
      · exact lt_size_of_getElem? free
      · exact lt_size_of_getElem? found
    · exact formed.ref place next here
  · induction formed.ends place with
    | intro place _ ih =>
      refine Acc.intro _ fun next refers ↦ ?_
      have here := refers.1
      rw [getElem?_set] at here
      split at here
      · cases here
        exact last
      · exact ih next ⟨here, refers.2⟩
  · obtain ⟨functor, found⟩ := formed.str place header (older (by simp) here)
    exact ⟨functor, kept found (by simp)⟩
  · rw [size_set]
    exact formed.functor header functor (older (by simp) here)

end Formed
end HornMachine.Heap

namespace HornMachine

/-- Bindings keep a heap well formed. -/
theorem Memory.Binds.formed {check : OccursCheck} {memory later : Memory}
    {admitted : Functor → Prop} {missing : Nat}
    (binds : Memory.Binds check memory later) (formed : memory.heap.Formed admitted missing) :
    later.heap.Formed admitted missing := by
  induction binds with
  | refl => exact formed
  | step _ admissible ih => exact ih.assign admissible

end HornMachine
