import HornMachine.Heap.Unify
import HornMachine.Proofs.Computation
import HornMachine.Proofs.Heap.Solution
import HornMachine.Proofs.Term.Pairs
import Mathlib.Data.Finset.Range
import Mathlib.Tactic.Ring

/-!
# Unification on the heap solves an equation

Main statements: a unification that succeeds leaves a heap whose solutions are those of the former
heap that give both addresses one value; one that fails leaves the memory as it was, and no solution
of the heap gives both addresses one value. Without the occurs check this holds in every domain, on
cyclic heaps as well. With the check it holds in domains whose values have sizes, since the check
refuses what only an infinite value could solve.

`Move` says once what a unification can do one level down, and the statements above follow from it
by induction on the depth.
-/

namespace HornMachine

variable {D : Type} [Domain D]

/-! ### The occurs check -/

namespace Heap

theorem mem_arguments {functor : Functor} {header : Address} {index : Nat}
    (inside : index < functor.arity) : argument header index ∈ arguments functor header :=
  List.mem_map_of_mem (List.mem_range.2 inside)

/-- What the arguments of a finite structure stand for is finite and smaller. -/
theorem Solution.arg {heap : Heap} {θ : Valuation D} (solution : heap.Solution θ)
    (sizes : Domain.Sizes D) {functor : Functor} {header argument : Address}
    (here : heap.cells[header]? = some (.functor functor))
    (member : argument ∈ arguments functor header) (finite : sizes.Finite (θ header)) :
    sizes.Finite (θ argument) ∧ sizes.size (θ argument) < sizes.size (θ header) := by
  have whole : θ header = Domain.struct functor.symbol ((arguments functor header).map θ) :=
    solution header _ here
  rw [whole] at finite ⊢
  exact sizes.arg finite (List.mem_map_of_mem member)

/-- An argument stands for less than its structure. -/
theorem Solution.size_lt [Sized D] {heap : Heap} {θ : Valuation D} (solution : heap.Solution θ)
    {functor : Functor} {header address : Address}
    (found : heap.cells[header]? = some (.functor functor))
    (member : address ∈ arguments functor header) :
    Sized.size (θ address) < Sized.size (θ header) :=
  (solution.arg (.ofSized D) found member trivial).2

/-- A header stands for what is found to be its structure. -/
theorem Solution.eq_header {heap : Heap} {θ : Valuation D} (solution : heap.Solution θ)
    {address found header : Address} {functor : Functor}
    (read : heap.value address = .ok (found, .compound functor header)) :
    heap.cells[header]? = some (.functor functor) ∧ θ address = θ header := by
  obtain ⟨-, at_header, -⟩ := value_eq_ok_iff.1 read
  have whole : θ header = Domain.struct functor.symbol ((arguments functor header).map θ) :=
    solution header _ at_header
  obtain ⟨same, term⟩ := solution.value read
  exact ⟨at_header, (same.trans term).trans whole.symm⟩

/-- A variable stands for no more than something finite that it occurs in. -/
theorem Solution.size_le_of_occurs {heap : Heap} {θ : Valuation D} (solution : heap.Solution θ)
    (sizes : Domain.Sizes D) {target : Address} {depth : Nat} {address : Address}
    (finite : sizes.Finite (θ address))
    (occurs : heap.occursWithin target depth address = .ok true) :
    sizes.size (θ target) ≤ sizes.size (θ address) := by
  induction depth generalizing address with
  | zero => simp [occursWithin] at occurs
  | succ depth ih =>
    rw [occursWithin] at occurs
    cases read : heap.value address with
    | error fault => simp [read, bind, Except.bind] at occurs
    | ok result =>
      obtain ⟨found, value⟩ := result
      simp only [read, bind, Except.bind] at occurs
      cases value with
      | unbound =>
        simp only [Except.ok.injEq, decide_eq_true_eq] at occurs
        exact Nat.le_of_eq (by rw [(solution.value read).1, occurs])
      | atom symbol => cases occurs
      | num number => cases occurs
      | compound functor header =>
        obtain ⟨at_header, same⟩ := solution.eq_header read
        obtain ⟨arg, member, inside⟩ := Except.exists_of_anyM occurs
        rw [same] at finite ⊢
        obtain ⟨arg_finite, smaller⟩ := solution.arg sizes at_header member finite
        exact Nat.le_of_lt (Nat.lt_of_le_of_lt (ih arg_finite inside) smaller)

/-- A variable that occurs in something finite that is no variable does not stand for it. -/
theorem Solution.ne_of_occurs {heap : Heap} {θ : Valuation D} (solution : heap.Solution θ)
    (sizes : Domain.Sizes D) {target address found : Address} {value : Value}
    (other : value ≠ .unbound)
    (finite : sizes.Finite (θ address)) (read : heap.value address = .ok (found, value))
    (occurs : heap.occurs target address = .ok true) : θ target ≠ θ address := by
  rw [Heap.occurs, occursWithin] at occurs
  simp only [read, bind, Except.bind] at occurs
  cases value with
  | unbound => exact absurd rfl other
  | atom symbol => cases occurs
  | num number => cases occurs
  | compound functor header =>
    obtain ⟨arg, member, inside⟩ := Except.exists_of_anyM occurs
    obtain ⟨at_header, same⟩ := solution.eq_header read
    rw [same] at finite ⊢
    obtain ⟨arg_finite, smaller⟩ := solution.arg sizes at_header member finite
    have fits := Nat.lt_of_le_of_lt (solution.size_le_of_occurs sizes arg_finite inside) smaller
    exact fun equal ↦ Nat.lt_irrefl _ (equal ▸ fits)

/-- Something else than a variable is not found in a reference. -/
theorem Shows.exists_cell {heap : Heap} {found : Address} {value : Value}
    (shows : heap.Shows found value) (other : value ≠ .unbound) :
    ∃ cell, heap.cells[found]? = some cell ∧ ∀ target, cell ≠ .ref target := by
  cases value with
  | unbound => exact absurd rfl other
  | atom symbol | num number => exact ⟨_, shows, by simp⟩
  | compound functor header =>
    obtain ⟨at_header, pointed | same⟩ := shows
    · exact ⟨_, pointed, by simp⟩
    · exact ⟨_, same ▸ at_header, by simp⟩

/-- Reading again from where a reading ended changes nothing. -/
theorem value_found {heap : Heap} {address found : Address} {value : Value}
    (read : heap.value address = .ok (found, value)) : heap.value found = .ok (found, value) := by
  obtain ⟨followed, shows⟩ := value_eq_ok_iff.1 read
  refine value_eq_ok_iff.2 ⟨?_, shows⟩
  obtain ⟨⟨cell, at_found, last⟩, -⟩ := derefWithin_ok followed
  rw [deref, derefWithin, cell_eq_ok_iff.2 at_found]
  cases cell with
  | ref target => simp [last target rfl, Bind.bind, Except.bind]
  | str _ | functor _ | atom _ | num _ => rfl

end Heap

/-! ### One level of a unification -/

namespace Memory

open Heap

namespace Unification

private theorem value_apply (address : Address) (state : Unifying) :
    value address state =
      match state.memory.heap.value address with
      | .ok found => .ok found state
      | .error fault => .error (.fault fault) state := by
  simp only [value, bind_apply, get_apply]
  cases state.memory.heap.value address <;> rfl

private theorem bindVar_apply (address target : Address) (state : Unifying) :
    bindVar address target state =
      if address < state.memory.heap.size then
        .ok () { state with memory := state.memory.assign address target }
      else .error (.fault (.badAddress address)) state := by
  simp only [bindVar, bind_apply, get_apply]
  by_cases inside : address < state.memory.heap.size <;> simp [inside, modify_apply, throw_apply]

theorem bindChecked_apply (check : OccursCheck) (address target : Address) (state : Unifying) :
    bindChecked check address target state =
      if check = .on then
        match state.memory.heap.occurs address target with
        | .ok true => .error .clash state
        | .ok false => bindVar address target state
        | .error fault => .error (.fault fault) state
      else bindVar address target state := by
  cases check with
  | off => simp [bindChecked]
  | on =>
    simp only [bindChecked, if_true, bind_apply, get_apply]
    rcases state.memory.heap.occurs address target with fault | (_ | _) <;> rfl

end Unification

/-- A unification once the arguments of two headers are taken up. -/
def Unifying.taken (check : OccursCheck) (left right : Address) (state : Unifying) : Unifying :=
  match check with
  | .on => state
  | .off => { state with seen := state.seen.insert (left, right) }

/-- A cell a variable may be bound to: an older variable, or something else than a variable that,
under the occurs check, does not contain the variable. -/
structure Target (check : OccursCheck) (heap : Heap) (address target : Address) : Prop where
  unbound : heap.cells[address]? = some (.ref address)
  kind : (heap.cells[target]? = some (.ref target) ∧ target < address) ∨
    ∃ cell, heap.cells[target]? = some cell ∧ (∀ other, cell ≠ .ref other) ∧
      (check = .on → heap.occurs address target = .ok false)

theorem Target.ne {check : OccursCheck} {heap : Heap} {address target : Nat}
    (admissible : Target check heap address target) : target ≠ address := by
  rintro rfl
  obtain ⟨-, smaller⟩ | ⟨cell, found, other, -⟩ := admissible.kind
  · exact Nat.lt_irrefl _ smaller
  · rw [admissible.unbound] at found
    cases found
    exact other _ rfl

/-- One of two addresses is found to be a variable, and the other one is found at the target. -/
def Faces (heap : Heap) (a b address target : Address) : Prop :=
  ∃ shown, (heap.value a = .ok (address, .unbound) ∧ heap.value b = .ok (target, shown)) ∨
    (heap.value b = .ok (address, .unbound) ∧ heap.value a = .ok (target, shown))

/-- What a unification of two addresses can do when it looks at what they refer to. -/
inductive Move (D : Type) [Domain D] (check : OccursCheck) (depth : Nat) (state : Unifying)
    (a b : Address) : EStateM.Result Obstacle Unifying Unit → Prop
  | fault (fault : Fault)
    (cause : (∃ address ∈ [a, b], state.memory.heap.value address = .error fault) ∨
      check = .on ∧ ∃ address target, Faces state.memory.heap a b address target ∧
        state.memory.heap.occurs address target = .error fault) :
    Move D check depth state a b (.error (.fault fault) state)
  | settled (same : ∀ θ : Valuation D, state.memory.heap.Solution θ → θ a = θ b) :
    Move D check depth state a b (.ok () state)
  | met (left right : Address) (member : (left, right) ∈ state.seen)
    (same : ∀ θ : Valuation D, state.memory.heap.Solution θ → θ a = θ left ∧ θ b = θ right) :
    Move D check depth state a b (.ok () state)
  | clash (differ : ∀ θ : Valuation D, state.memory.heap.Solution θ → check.Settles (θ a) →
    θ a ≠ θ b) :
    Move D check depth state a b (.error .clash state)
  | bind (address target : Address) (admissible : Target check state.memory.heap address target)
    (same : ∀ θ : Valuation D, state.memory.heap.Solution θ → (θ a = θ b ↔ θ address = θ target)) :
    Move D check depth state a b
      (.ok () { state with memory := state.memory.assign address target })
  | descend (functor : Functor) (left right : Address)
    (at_left : state.memory.heap.cells[left]? = some (.functor functor))
    (at_right : state.memory.heap.cells[right]? = some (.functor functor))
    (fresh : check = .off → (left, right) ∉ state.seen)
    (same : ∀ θ : Valuation D, state.memory.heap.Solution θ → θ a = θ left ∧ θ b = θ right)
    (result : EStateM.Result Obstacle Unifying Unit)
    (run : (((arguments functor left).zip (arguments functor right)).forM fun pair ↦
      unifyWithin check depth pair.1 pair.2) (state.taken check left right) = result) :
    Move D check depth state a b result

private theorem move_bindVar {check : OccursCheck} {depth : Nat} {state : Unifying}
    {a b address target : Address} (admissible : Target check state.memory.heap address target)
    (same : ∀ θ : Valuation D, state.memory.heap.Solution θ → (θ a = θ b ↔ θ address = θ target)) :
    Move D check depth state a b (Unification.bindVar address target state) := by
  rw [Unification.bindVar_apply, if_pos (lt_size_of_getElem? admissible.unbound)]
  exact .bind address target admissible same

theorem move_bindChecked (check : OccursCheck) (depth : Nat) {state : Unifying}
    {a b address target : Address} {cell : Cell}
    (faces : Faces state.memory.heap a b address target)
    (unbound : state.memory.heap.cells[address]? = some (.ref address))
    (at_target : state.memory.heap.cells[target]? = some cell) (other : ∀ next, cell ≠ .ref next)
    (same : ∀ θ : Valuation D, state.memory.heap.Solution θ → (θ a = θ b ↔ θ address = θ target))
    (apart : state.memory.heap.occurs address target = .ok true → ∀ θ : Valuation D,
      state.memory.heap.Solution θ → ∀ sizes : Domain.Sizes D, sizes.Finite (θ target) →
        θ address ≠ θ target) :
    Move D check depth state a b (Unification.bindChecked check address target state) := by
  rw [Unification.bindChecked_apply]
  cases check with
  | off => exact move_bindVar ⟨unbound, .inr ⟨cell, at_target, other, by simp⟩⟩ same
  | on =>
    rcases occurs : state.memory.heap.occurs address target with fault | (_ | _)
    · exact .fault fault (.inr ⟨rfl, address, target, faces, occurs⟩)
    · exact move_bindVar ⟨unbound, .inr ⟨cell, at_target, other, fun _ ↦ occurs⟩⟩ same
    · refine .clash fun θ solution settles equal ↦ ?_
      obtain ⟨sizes, finite⟩ := settles rfl
      have at_target : θ a = θ target := by
        obtain ⟨shown, ⟨-, read⟩ | ⟨-, read⟩⟩ := faces
        · exact equal.trans (solution.value read).1
        · exact (solution.value read).1
      exact apart occurs θ solution sizes (at_target ▸ finite) ((same θ solution).1 equal)

theorem takeUp_apply (check : OccursCheck) (left right : Address) (state : Unifying) :
    Unification.takeUp check left right state =
      if check = .off ∧ (left, right) ∈ state.seen then .ok false state
      else .ok true (state.taken check left right) := by
  cases check with
  | on => rfl
  | off =>
    simp only [Unification.takeUp, bind_apply, get_apply]
    by_cases met : (left, right) ∈ state.seen <;>
      simp [met, pure_apply, bind_apply, modify_apply, Unifying.taken]

/-- Values whose terms always differ clash. -/
theorem move_clash {check : OccursCheck} {depth : Nat} {state : Unifying} {a b x y : Address}
    {left right : Value} (read_a : state.memory.heap.value a = .ok (x, left))
    (read_b : state.memory.heap.value b = .ok (y, right))
    (differ : ∀ θ : Valuation D, left.stands θ x ≠ right.stands θ y) :
    Move D check depth state a b (.error .clash state) := by
  refine .clash fun θ solution _ same ↦ differ θ ?_
  obtain ⟨to_x, at_x⟩ := solution.value read_a
  obtain ⟨to_y, at_y⟩ := solution.value read_b
  rw [← at_x, ← at_y, ← to_x, ← to_y, same]

/-- Values whose terms are always the same are settled. -/
theorem move_settled {check : OccursCheck} {depth : Nat} {state : Unifying} {a b x y : Address}
    {left right : Value} (read_a : state.memory.heap.value a = .ok (x, left))
    (read_b : state.memory.heap.value b = .ok (y, right))
    (same : ∀ θ : Valuation D, left.stands θ x = right.stands θ y) :
    Move D check depth state a b (.ok () state) := by
  refine .settled fun θ solution ↦ ?_
  obtain ⟨to_x, at_x⟩ := solution.value read_a
  obtain ⟨to_y, at_y⟩ := solution.value read_b
  rw [to_x, at_x, same, ← at_y, to_y]

/-- Two structures clash, were met before or have arguments to go on with. -/
theorem move_compound {check : OccursCheck} {depth : Nat} {state : Unifying}
    {a b x y left right : Address} {f g : Functor}
    (read_a : state.memory.heap.value a = .ok (x, .compound f left))
    (read_b : state.memory.heap.value b = .ok (y, .compound g right)) :
    Move D check depth state a b
      ((if f ≠ g then throw .clash
        else do
          if ← Unification.takeUp check left right then
            ((arguments f left).zip (arguments g right)).forM fun pair ↦
              unifyWithin check depth pair.1 pair.2 : Unification Unit) state) := by
  by_cases same : f = g
  · subst same
    have headers : ∀ θ : Valuation D, state.memory.heap.Solution θ → θ a = θ left ∧ θ b = θ right :=
      fun θ solution ↦ ⟨(solution.eq_header read_a).2, (solution.eq_header read_b).2⟩
    simp only [ne_eq, not_true_eq_false, if_false, bind_apply, takeUp_apply]
    by_cases met : check = .off ∧ (left, right) ∈ state.seen
    · simp only [if_pos met, Bool.false_eq_true, if_false, pure_apply]
      exact .met left right met.2 headers
    · simp only [if_neg met, if_true]
      exact .descend f left right (value_eq_ok_iff.1 read_a).2.1 (value_eq_ok_iff.1 read_b).2.1
        (fun off seen ↦ met ⟨off, seen⟩) headers _ rfl
  · simp only [ne_eq, same, not_false_eq_true, if_true, throw_apply]
    refine move_clash read_a read_b fun θ equal ↦ same ?_
    simp only [Value.stands, Domain.struct_inj] at equal
    have widths := congrArg List.length equal.2
    simp only [arguments, List.length_map, List.length_range] at widths
    cases f
    cases g
    simp_all

/-- What a unification does at each level. -/
theorem move_unifyWithin (D : Type) [Domain D] (check : OccursCheck) (depth : Nat)
    (state : Unifying) (a b : Address) :
    Move D check depth state a b (unifyWithin check (depth + 1) a b state) := by
  simp only [unifyWithin, bind_apply, Unification.value_apply]
  cases read_a : state.memory.heap.value a with
  | error fault => exact .fault fault (.inl ⟨a, by simp, read_a⟩)
  | ok result_a =>
  obtain ⟨x, left⟩ := result_a
  simp only
  cases read_b : state.memory.heap.value b with
  | error fault => exact .fault fault (.inl ⟨b, by simp, read_b⟩)
  | ok result_b =>
  obtain ⟨y, right⟩ := result_b
  simp only
  have found_a : ∀ θ : Valuation D, state.memory.heap.Solution θ → θ a = θ x := fun θ solution ↦
    (solution.value read_a).1
  have found_b : ∀ θ : Valuation D, state.memory.heap.Solution θ → θ b = θ y := fun θ solution ↦
    (solution.value read_b).1
  have across : ∀ θ : Valuation D, state.memory.heap.Solution θ → (θ a = θ b ↔ θ x = θ y) := by
    intro θ solution
    rw [found_a θ solution, found_b θ solution]
  by_cases equal : x = y
  · rw [if_pos equal]
    refine .settled fun θ solution ↦ ?_
    rw [found_a θ solution, found_b θ solution, equal]
  rw [if_neg equal]
  have shows_a := (value_eq_ok_iff.1 read_a).2
  have shows_b := (value_eq_ok_iff.1 read_b).2
  by_cases free_a : left = .unbound
  · subst free_a
    by_cases free_b : right = .unbound
    · subst free_b
      simp only
      split
      · next younger => exact move_bindVar ⟨shows_a, .inl ⟨shows_b, younger⟩⟩ across
      · next older =>
        have younger : x < y := Nat.lt_of_le_of_ne (Nat.le_of_not_lt older) equal
        exact move_bindVar ⟨shows_b, .inl ⟨shows_a, younger⟩⟩ fun θ solution ↦
          (across θ solution).trans eq_comm
    · obtain ⟨cell, at_y, other⟩ := shows_b.exists_cell free_b
      have checked :=
        move_bindChecked check depth ⟨_, .inl ⟨read_a, read_b⟩⟩ shows_a at_y other across
        fun occurs θ solution sizes finite ↦
          solution.ne_of_occurs sizes free_b finite (value_found read_b) occurs
      cases right with
      | unbound => exact absurd rfl free_b
      | atom _ | num _ | compound _ _ => exact checked
  · by_cases free_b : right = .unbound
    · subst free_b
      obtain ⟨cell, at_x, other⟩ := shows_a.exists_cell free_a
      have checked := move_bindChecked check depth ⟨_, .inr ⟨read_b, read_a⟩⟩ shows_b at_x other
        (fun θ solution ↦ (across θ solution).trans eq_comm)
        fun occurs θ solution sizes finite ↦
          solution.ne_of_occurs sizes free_a finite (value_found read_a) occurs
      cases left with
      | unbound => exact absurd rfl free_a
      | atom _ | num _ | compound _ _ => exact checked
    · cases left with
      | unbound => exact absurd rfl free_a
      | atom p =>
        cases right with
        | unbound => exact absurd rfl free_b
        | num _ | compound _ _ => exact move_clash read_a read_b fun θ ↦ by simp [Value.stands]
        | atom q =>
          by_cases same : p = q
          · simp only [same, if_true, pure_apply]
            exact move_settled read_a read_b fun θ ↦ by simp [Value.stands, same]
          · simp only [same, if_false, throw_apply]
            exact move_clash read_a read_b fun θ ↦ by simp [Value.stands, same]
      | num m =>
        cases right with
        | unbound => exact absurd rfl free_b
        | atom _ | compound _ _ => exact move_clash read_a read_b fun θ ↦ by simp [Value.stands]
        | num n =>
          by_cases same : m = n
          · simp only [same, if_true, pure_apply]
            exact move_settled read_a read_b fun θ ↦ by simp [Value.stands, same]
          · simp only [same, if_false, throw_apply]
            exact move_clash read_a read_b fun θ ↦ by simp [Value.stands, same]
      | compound f header =>
        cases right with
        | unbound => exact absurd rfl free_b
        | atom _ | num _ => exact move_clash read_a read_b fun θ ↦ by simp [Value.stands]
        | compound g other => exact move_compound read_a read_b

/-! ### Bindings made on the way -/

/-- Memories that one leads to by binding free variables where unification does. -/
inductive Binds (check : OccursCheck) (memory : Memory) : Memory → Prop
  | refl : Binds check memory memory
  | step {later : Memory} (before : Binds check memory later) {address target : Address}
    (admissible : Target check later.heap address target) :
    Binds check memory (later.assign address target)

theorem Binds.trans {check : OccursCheck} {first second third : Memory}
    (one : Binds check first second) (two : Binds check second third) :
    Binds check first third := by
  induction two with
  | refl => exact one
  | step _ admissible ih => exact .step ih admissible

/-- Where a unification has come to. -/
def lastState : EStateM.Result Obstacle Unifying Unit → Unifying
  | .ok () state => state
  | .error _ state => state

private theorem binds_forM {check : OccursCheck} {run : Address × Address → Unification Unit}
    {pairs : List (Address × Address)}
    (each : ∀ pair ∈ pairs, ∀ state : Unifying,
      Binds check state.memory (lastState (run pair state)).memory)
    (state : Unifying) : Binds check state.memory (lastState (pairs.forM run state)).memory := by
  induction pairs generalizing state with
  | nil => exact .refl
  | cons pair pairs ih =>
    have first := each pair List.mem_cons_self state
    change Binds check state.memory (lastState ((run pair >>= fun _ ↦ pairs.forM run) state)).memory
    rw [bind_apply]
    cases ended : run pair state with
    | ok done next =>
      rw [ended] at first
      exact first.trans (ih (fun other member ↦ each other (List.mem_cons_of_mem _ member)) next)
    | error obstacle next =>
      rw [ended] at first
      exact first

@[simp]
theorem memory_taken (check : OccursCheck) (left right : Address) (state : Unifying) :
    (state.taken check left right).memory = state.memory := by
  cases check <;> rfl

/-- However a unification ends, all it has done to the memory is to bind variables. -/
theorem binds_unifyWithin (check : OccursCheck) (depth : Nat) (a b : Address) (state : Unifying) :
    Binds check state.memory (lastState (unifyWithin check depth a b state)).memory := by
  induction depth generalizing a b state with
  | zero => exact .refl
  | succ depth ih =>
    have move := move_unifyWithin Term check depth state a b
    generalize unifyWithin check (depth + 1) a b state = result at move
    cases move with
    | fault | settled | met | clash => exact .refl
    | bind address target admissible same => exact .step .refl admissible
    | descend functor left right at_left at_right _ same _ run =>
      rw [← run, ← memory_taken check left right state]
      exact binds_forM (fun pair _ next ↦ ih pair.1 pair.2 next) _

/-! ### Success -/

/-- A later state of a unification: bindings were added, and pairs that were taken up since lead to
pairs taken up. -/
structure Unifying.Leads (D : Type) [Domain D] (state later : Unifying) : Prop where
  solution : ∀ θ : Valuation D, later.memory.heap.Solution θ → state.memory.heap.Solution θ
  seen : ∀ pair ∈ state.seen, pair ∈ later.seen
  expanded : ∀ θ : Valuation D, later.memory.heap.Solution θ →
    ∀ left right, (left, right) ∈ later.seen →
    (left, right) ∉ state.seen → Expanded θ later.seen left right

theorem Unifying.Leads.refl (state : Unifying) : state.Leads D state :=
  ⟨fun _ solution ↦ solution, fun _ member ↦ member, fun _ _ _ _ member fresh ↦ absurd member fresh⟩

theorem Unifying.Leads.trans {first second third : Unifying} (one : first.Leads D second)
    (two : second.Leads D third) : first.Leads D third := by
  refine ⟨fun θ solution ↦ one.solution θ (two.solution θ solution),
    fun pair member ↦ two.seen pair (one.seen pair member),
      fun θ solution left right member fresh ↦ ?_⟩
  by_cases older : (left, right) ∈ second.seen
  · exact (one.expanded θ (two.solution θ solution) left right older fresh).mono two.seen
  · exact two.expanded θ solution left right member older

/-- Unifying pairs one after another leads on, if unifying each of them does. -/
theorem leads_forM {run : Address × Address → Unification Unit} {pairs : List (Address × Address)}
    (each : ∀ pair ∈ pairs, ∀ state later, run pair state = .ok () later →
      state.Leads D later ∧
        ∀ θ : Valuation D, later.memory.heap.Solution θ → Equated θ later.seen pair.1 pair.2)
    {state later : Unifying} (ended : pairs.forM run state = .ok () later) :
    state.Leads D later ∧ ∀ pair ∈ pairs, ∀ θ : Valuation D, later.memory.heap.Solution θ →
      Equated θ later.seen pair.1 pair.2 := by
  induction pairs generalizing state with
  | nil =>
    cases ended
    exact ⟨.refl _, by simp⟩
  | cons pair pairs ih =>
    obtain ⟨⟨⟩, next, first, rest⟩ := bind_eq_ok.1 ended
    obtain ⟨one, equated⟩ := each pair List.mem_cons_self _ _ first
    obtain ⟨two, others⟩ := ih (fun other member ↦ each other (List.mem_cons_of_mem _ member)) rest
    refine ⟨one.trans two, fun other member θ solution ↦ ?_⟩
    rcases List.mem_cons.1 member with rfl | later_pair
    · exact (equated θ (two.solution θ solution)).mono two.seen
    · exact others other later_pair θ solution

theorem mem_seen_taken {check : OccursCheck} {left right : Address} {state : Unifying}
    {pair : Address × Address} :
    pair ∈ (state.taken check left right).seen ↔
      pair ∈ state.seen ∨ (check = .off ∧ pair = (left, right)) := by
  cases check with
  | on => simp [Unifying.taken]
  | off =>
    rw [Unifying.taken, Std.TreeSet.mem_insert, Std.LawfulEqCmp.compare_eq_iff_eq, or_comm,
      eq_comm (b := pair)]
    simp only [true_and]

/-- A unification that succeeds leaves a heap whose solutions equate the two addresses, given that
they equate the pairs it has met. -/
theorem leads_unifyWithin {check : OccursCheck} {depth : Nat} {state later : Unifying}
    {a b : Address} (ended : unifyWithin check depth a b state = .ok () later) :
    state.Leads D later ∧ ∀ θ : Valuation D,
      later.memory.heap.Solution θ → Equated θ later.seen a b := by
  induction depth generalizing state later a b with
  | zero => cases ended
  | succ depth ih =>
    have move := move_unifyWithin D check depth state a b
    rw [ended] at move
    cases move with
    | settled same => exact ⟨.refl _, fun θ solution ↦ .same (same θ solution)⟩
    | met left right member same =>
      refine ⟨.refl _, fun θ solution ↦ ?_⟩
      exact .met member (same θ solution).1 (same θ solution).2
    | bind address target admissible same =>
      have solved : ∀ θ : Valuation D, (state.memory.assign address target).heap.Solution θ →
          state.memory.heap.Solution θ ∧ θ address = θ target :=
        fun θ ↦ (solution_set_ref admissible.unbound).1
      refine ⟨⟨fun θ solution ↦ (solved θ solution).1, fun _ member ↦ member,
        fun _ _ _ _ member fresh ↦ absurd member fresh⟩, fun θ solution ↦ ?_⟩
      exact .same ((same θ (solved θ solution).1).2 (solved θ solution).2)
    | descend functor left right at_left at_right _ same _ run =>
      obtain ⟨leads, args⟩ := leads_forM (fun _ _ _ _ ended ↦ ih ended) run
      have length : (arguments functor left).length = (arguments functor right).length := by
        simp [arguments]
      have older : ∀ θ : Valuation D, later.memory.heap.Solution θ →
        state.memory.heap.Solution θ := by
        intro θ solution
        simpa using leads.solution θ solution
      have headers : ∀ θ : Valuation D, later.memory.heap.Solution θ →
          θ left = Domain.struct functor.symbol ((arguments functor left).map θ) ∧
          θ right = Domain.struct functor.symbol ((arguments functor right).map θ) :=
        fun θ solution ↦ ⟨older θ solution left _ at_left, older θ solution right _ at_right⟩
      refine ⟨⟨older, fun pair member ↦ leads.seen pair (mem_seen_taken.2 (.inl member)),
        fun θ solution l r member fresh ↦ ?_⟩, fun θ solution ↦ ?_⟩
      · by_cases taken : (l, r) ∈ (state.taken check left right).seen
        · obtain known | ⟨-, here⟩ := mem_seen_taken.1 taken
          · exact absurd known fresh
          · cases here
            exact ⟨functor.symbol, _, _, length, (headers θ solution).1, (headers θ solution).2,
              fun pair member ↦ args pair member θ solution⟩
        · exact leads.expanded θ solution l r member taken
      · obtain ⟨to_left, to_right⟩ := same θ (older θ solution)
        exact .args length (to_left.trans (headers θ solution).1)
          (to_right.trans (headers θ solution).2) fun pair member ↦ args pair member θ solution

/-! ### Failure -/

/-- Number of the first `count` addresses that stand for finite values of at most a given size. -/
noncomputable def smallCount (sizes : Domain.Sizes D) (θ : Valuation D) (count size : Nat) : Nat :=
  sizes.count (Finset.range count) θ size

theorem smallCount_le (sizes : Domain.Sizes D) (θ : Valuation D) (count size : Nat) :
    smallCount sizes θ count size ≤ count := by
  have few := sizes.count_le (Finset.range count) θ size
  rwa [Finset.card_range] at few

theorem smallCount_lt {sizes : Domain.Sizes D} {θ : Valuation D} {count size : Nat} {address : Nat}
    (inside : address < count) (finite : sizes.Finite (θ address))
    (smaller : size < sizes.size (θ address)) :
    smallCount sizes θ count size < smallCount sizes θ count (sizes.size (θ address)) :=
  sizes.count_lt (Finset.mem_range.2 inside) finite smaller

/-- A unification that does not go against a valuation: it ends well, with a heap of the same size
that the valuation solves and all pairs taken up before, or finds the heap broken. It may fail only
if it is not `exact`. -/
def Agrees (exact : Prop) (θ : Valuation D) (state : Unifying) :
    EStateM.Result Obstacle Unifying Unit → Prop
  | .ok () later => later.memory.heap.Solution θ ∧
      later.memory.heap.size = state.memory.heap.size ∧ ∀ pair ∈ state.seen, pair ∈ later.seen
  | .error (.fault _) _ => True
  | .error _ _ => ¬exact

theorem Agrees.of_later {exact : Prop} {θ : Valuation D} {state later : Unifying}
    {result : EStateM.Result Obstacle Unifying Unit} (agrees : Agrees exact θ later result)
    (same : later.memory.heap.size = state.memory.heap.size)
    (kept : ∀ pair ∈ state.seen, pair ∈ later.seen) : Agrees exact θ state result := by
  cases result with
  | error obstacle last => cases obstacle <;> exact agrees
  | ok done last =>
    obtain ⟨solved, size, seen⟩ := agrees
    exact ⟨solved, size.trans same, fun pair member ↦ seen pair (kept pair member)⟩

theorem agrees_forM {exact : Prop} {θ : Valuation D} {run : Address × Address → Unification Unit}
    {pairs : List (Address × Address)} {state : Unifying}
    (each : ∀ pair ∈ pairs, ∀ next : Unifying, next.memory.heap.Solution θ →
      next.memory.heap.size = state.memory.heap.size → (∀ old ∈ state.seen, old ∈ next.seen) →
      Agrees exact θ next (run pair next))
    (solution : state.memory.heap.Solution θ) : Agrees exact θ state (pairs.forM run state) := by
  induction pairs generalizing state with
  | nil => exact ⟨solution, rfl, fun _ member ↦ member⟩
  | cons pair pairs ih =>
    have first := each pair List.mem_cons_self state solution rfl fun _ member ↦ member
    change Agrees exact θ state ((run pair >>= fun _ ↦ pairs.forM run) state)
    rw [bind_apply]
    cases ended : run pair state with
    | error obstacle later =>
      rw [ended] at first
      exact first
    | ok done later =>
      rw [ended] at first
      obtain ⟨solved, same, kept⟩ := first
      refine Agrees.of_later (ih (fun other member next solution size seen ↦ ?_) solved) same kept
      exact each other (List.mem_cons_of_mem _ member) next solution (size.trans same)
        fun pair member ↦ seen pair (kept pair member)

/-- A depth that is enough, whatever is met on the way down: it is more than none, the occurs check
refuses nothing, and going down to the arguments of a structure leaves enough. -/
structure Ample (check : OccursCheck) (θ : Valuation D) (size : Nat)
    (enough : Nat → Unifying → Address → Prop) : Prop where
  pos : ∀ state a, ¬enough 0 state a
  settles : ∀ {depth : Nat} {state : Unifying} {a : Nat}, enough depth state a → check.Settles (θ a)
  below : ∀ {depth : Nat} {state later : Unifying} {a left right : Nat} {functor : Functor},
    enough (depth + 1) state a → state.memory.heap.Solution θ → state.memory.heap.size = size →
    θ a = θ left → state.memory.heap.cells[left]? = some (.functor functor) →
    state.memory.heap.cells[right]? = some (.functor functor) →
    (check = .off → (left, right) ∉ state.seen) →
    (∀ pair ∈ (state.taken check left right).seen, pair ∈ later.seen) →
    ∀ arg ∈ arguments functor left, enough depth later arg

/-- A unification goes with a solution of the heap that gives both addresses one value. It succeeds
if the depth is enough. -/
theorem agrees_unifyWithin {check : OccursCheck} {θ : Valuation D} {size : Nat} {exact : Prop}
    {enough : Nat → Unifying → Address → Prop}
    (ample : exact → Ample check θ size enough) {depth : Nat} {state : Unifying}
    {a b : Address} (solution : state.memory.heap.Solution θ)
    (count : state.memory.heap.size = size) (same : θ a = θ b)
    (deep : exact → enough depth state a) :
    Agrees exact θ state (unifyWithin check depth a b state) := by
  induction depth generalizing state a b with
  | zero => exact fun holds ↦ (ample holds).pos state a (deep holds)
  | succ depth ih =>
    generalize ended : unifyWithin check (depth + 1) a b state = result
    have move := move_unifyWithin D check depth state a b
    rw [ended] at move
    cases move with
    | fault fault => exact trivial
    | settled _ => exact ⟨solution, rfl, fun _ member ↦ member⟩
    | met _ _ _ _ => exact ⟨solution, rfl, fun _ member ↦ member⟩
    | clash differ => exact fun holds ↦ differ θ solution ((ample holds).settles (deep holds)) same
    | bind address target admissible across =>
      refine ⟨(solution_set_ref admissible.unbound).2 ⟨solution, (across θ solution).1 same⟩,
        size_set _ _ _, fun _ member ↦ member⟩
    | descend functor left right at_left at_right fresh headers _ run =>
      rw [← run]
      obtain ⟨to_left, to_right⟩ := headers θ solution
      have whole_left : θ left = Domain.struct functor.symbol ((arguments functor left).map θ) :=
        solution left _ at_left
      have whole_right : θ right = Domain.struct functor.symbol ((arguments functor right).map θ) :=
        solution right _ at_right
      have args : (arguments functor left).map θ = (arguments functor right).map θ := by
        have whole : θ left = θ right := by rw [← to_left, same, to_right]
        rw [whole_left, whole_right] at whole
        simpa using whole
      refine Agrees.of_later (agrees_forM (fun pair member next solved kept seen ↦ ?_) (by simpa))
        (by simp) fun pair member ↦ mem_seen_taken.2 (.inl member)
      rw [memory_taken] at kept
      exact ih solved (kept.trans count) (Term.eq_of_mem_zip args member) fun holds ↦
        (ample holds).below (deep holds) solution count to_left at_left at_right fresh seen pair.1
          (List.of_mem_zip member).1

/-- With the occurs check, the number of addresses that stand for no more bounds the depth: going
down to an argument, it drops by the structure that is left. -/
theorem ample_smallCount (sizes : Domain.Sizes D) (θ : Valuation D) (size : Nat) : Ample .on θ size
    fun depth _ a ↦ sizes.Finite (θ a) ∧ smallCount sizes θ size (sizes.size (θ a)) < depth where
  pos _ _ deep := Nat.not_lt_zero _ deep.2
  settles deep _ := ⟨sizes, deep.1⟩
  below {depth state later a left right functor} deep solution count to_left at_left _ _ _ arg
    member := by
    have inside : left < size := by
      rw [← count]
      exact lt_size_of_getElem? at_left
    rw [to_left] at deep
    obtain ⟨finite, deep⟩ := deep
    obtain ⟨arg_finite, smaller⟩ := solution.arg sizes at_left member finite
    have drop := smallCount_lt inside finite smaller
    exact ⟨arg_finite, Nat.lt_of_lt_of_le drop (Nat.le_of_lt_succ deep)⟩

/-- Without it, the number of pairs not taken up yet does. -/
theorem ample_seenCount (θ : Valuation D) (size : Nat) : Ample .off θ size
    fun depth state _ ↦ size * size < depth + seenCount (Finset.range size) state.seen where
  pos state _ deep := by
    have few := seenCount_le (Finset.range size) state.seen
    rw [Finset.card_range] at few
    omega
  settles _ := nofun
  below {depth state later a left right functor} deep _ count _ at_left at_right fresh
    seen _ _ := by
    have inside {header : Nat} (here : state.memory.heap.cells[header]? = some (.functor functor)) :
        header ∈ Finset.range size := by
      rw [← count, Finset.mem_range]
      exact lt_size_of_getElem? here
    have more := seenCount_lt (fun pair member ↦ seen pair (mem_seen_taken.2 (.inl member)))
      (fresh rfl) (seen _ (mem_seen_taken.2 (.inr ⟨rfl, rfl⟩))) (inside at_left) (inside at_right)
    omega

/-! ### Unification of two addresses -/

theorem agrees_unify (check : OccursCheck) {memory : Memory} {a b : Address} {θ : Valuation D}
    (solution : memory.heap.Solution θ) (same : θ a = θ b) :
    Agrees (check.Settles (θ a)) θ { memory }
      (unifyWithin check memory.depthBound a b { memory }) := by
  have bound : memory.heap.size * memory.heap.size + memory.heap.size < memory.depthBound := by
    have square : memory.depthBound =
        memory.heap.size * memory.heap.size + 2 * memory.heap.size + 1 := by
      rw [depthBound]
      ring
    omega
  cases check with
  | off =>
    exact agrees_unifyWithin (fun _ ↦ ample_seenCount θ memory.heap.size) solution rfl same
      fun _ ↦ by omega
  | on =>
    by_cases settles : ∃ sizes : Domain.Sizes D, sizes.Finite (θ a)
    · obtain ⟨sizes, finite⟩ := settles
      have few := smallCount_le sizes θ memory.heap.size (sizes.size (θ a))
      exact agrees_unifyWithin (fun _ ↦ ample_smallCount sizes θ memory.heap.size) solution rfl same
        fun _ ↦ ⟨finite, Nat.lt_of_le_of_lt few (by omega)⟩
    · have never : OccursCheck.Settles .on (θ a) → Ample .on θ memory.heap.size fun _ _ _ ↦ True :=
        fun refuses_none ↦ absurd (refuses_none rfl) settles
      exact agrees_unifyWithin never solution rfl same fun _ ↦ trivial

/-- Successful unification keeps exactly the solutions that give both addresses one value. -/
theorem solution_unify {check : OccursCheck} {memory later : Memory} {a b : Address}
    (ended : memory.unify check a b = (.ok true, later)) (θ : Valuation D) :
    later.heap.Solution θ ↔ memory.heap.Solution θ ∧ θ a = θ b := by
  unfold unify at ended
  generalize run : (unifyWithin check memory.depthBound a b).run { memory } = result at ended
  cases result with
  | error obstacle state => cases obstacle <;> cases ended
  | ok done state =>
    cases ended
    constructor
    · intro solution
      obtain ⟨leads, equated⟩ := leads_unifyWithin (D := D) run
      refine ⟨leads.solution θ solution, (equated θ solution).eq fun left right member ↦ ?_⟩
      exact leads.expanded θ solution left right member (by simp)
    · rintro ⟨solution, same⟩
      have agrees := agrees_unify check solution same
      rw [show unifyWithin check memory.depthBound a b { memory } = _ from run] at agrees
      exact agrees.1

/-- If unification fails, no solution gives both addresses one value that the occurs check does not
refuse. -/
theorem ne_of_unify_of_settles {check : OccursCheck} {memory later : Memory} {a b : Address}
    (ended : memory.unify check a b = (.ok false, later)) {θ : Valuation D}
    (solution : memory.heap.Solution θ) (settles : check.Settles (θ a)) : θ a ≠ θ b := by
  intro same
  have agrees := agrees_unify check solution same
  unfold unify at ended
  generalize run : (unifyWithin check memory.depthBound a b).run { memory } = result at ended
  rw [show unifyWithin check memory.depthBound a b { memory } = _ from run] at agrees
  cases result with
  | ok done state => cases ended
  | error obstacle state =>
    cases obstacle with
    | fault fault => cases ended
    | clash | unfinished => exact agrees settles

/-- If unification fails in a domain in which the occurs check refuses nothing, no solution gives
both addresses one value. -/
theorem ne_of_unify {check : OccursCheck} (decides : check.Decides D) {memory later : Memory}
    {a b : Address} (ended : memory.unify check a b = (.ok false, later)) {θ : Valuation D}
    (solution : memory.heap.Solution θ) : θ a ≠ θ b :=
  ne_of_unify_of_settles ended solution (decides.settles _)

end Memory
end HornMachine
