import HornMachine.Builtin
import HornMachine.Fact
import HornMachine.Heap.Load
import HornMachine.Proofs.Heap.Cycles
import HornMachine.Proofs.Heap.Reading

/-!
# Faults of the memory

Main statements: on a well-formed heap, whatever reads or binds addresses of the heap ends in no
fault but that of a cyclic term, and in none at all if the heap is solvable and the occurs check is
on. Loading a term whose structures fit ends in no fault.
-/

namespace HornMachine

/-- The one fault that a well-formed heap can lead to, unless it is kept `tidy`. -/
def Fault.Cyclic (tidy : Prop) (fault : Fault) : Prop := fault = .cyclicTerm ∧ ¬tidy

namespace Heap

/-- A well-formed heap, which is solvable if it is kept tidy. -/
structure Orderly (tidy : Prop) (admitted : Functor → Prop) (heap : Heap) : Prop where
  formed : heap.Formed admitted 0
  solvable : tidy → heap.Solvable

variable {heap : Heap} {admitted : Functor → Prop}

section

variable (formed : heap.Formed admitted 0)

include formed

theorem Formed.failsOnly_value {address : Nat} (inside : address < heap.size) (tidy : Prop) :
    Except.FailsOnly (Fault.Cyclic tidy) (heap.value address) := by
  obtain ⟨found, value, read⟩ := formed.exists_value inside
  rw [read]
  nofun

end

section

variable {D : Type} [Domain D] {tidy : Prop} {θ : Valuation D} {sizes : Domain.Sizes D}

/-- A structure's arguments stand for less if it stands for something finite, so fewer addresses
stand for no more than they do. -/
theorem Solution.smaller (solution : heap.Solution θ) {address found header argument : Nat}
    {functor : Functor} (read : heap.value address = .ok (found, .compound functor header))
    (member : argument ∈ arguments functor header) (finite : sizes.Finite (θ address)) :
    θ address = θ header ∧ sizes.Finite (θ argument) ∧
    sizes.size (θ argument) < sizes.size (θ header) ∧
      Memory.smallCount sizes θ heap.size (sizes.size (θ argument)) <
        Memory.smallCount sizes θ heap.size (sizes.size (θ address)) := by
  obtain ⟨here, same⟩ := solution.eq_header read
  rw [same] at finite ⊢
  obtain ⟨argument_finite, smaller⟩ := solution.arg sizes here member finite
  exact ⟨rfl, argument_finite, smaller,
    Memory.smallCount_lt (lt_size_of_getElem? here) finite smaller⟩

variable (formed : heap.Formed admitted 0) (solution : tidy → heap.Solution θ)

include formed solution

theorem Formed.failsOnly_occursWithin (target : Address) {depth address : Nat}
    (inside : address < heap.size) (finite : tidy → sizes.Finite (θ address))
    (deep : tidy → Memory.smallCount sizes θ heap.size (sizes.size (θ address)) < depth) :
    Except.FailsOnly (Fault.Cyclic tidy) (heap.occursWithin target depth address) := by
  induction depth generalizing address with
  | zero =>
    rintro _ ⟨⟩
    exact ⟨rfl, fun keeps ↦ Nat.not_lt_zero _ (deep keeps)⟩
  | succ depth ih =>
    rw [occursWithin]
    refine Except.failsOnly_bind (formed.failsOnly_value inside tidy) fun result read ↦ ?_
    obtain ⟨found, value⟩ := result
    cases value with
    | unbound | atom | num => exact Except.failsOnly_ok _
    | compound functor header =>
      refine Except.failsOnly_anyM fun argument member ↦ ih (formed.argument_lt read member)
        (fun keeps ↦ ?_) fun keeps ↦ ?_
      · exact ((solution keeps).smaller read member (finite keeps)).2.1
      · obtain ⟨-, -, -, fewer⟩ := (solution keeps).smaller read member (finite keeps)
        exact Nat.lt_of_lt_of_le fewer (Nat.le_of_lt_succ (deep keeps))

private theorem Formed.failsOnly_isGroundBelow {address : Nat} {path : Std.TreeSet Address}
    (inside : address < heap.size) (finite : tidy → sizes.Finite (θ address))
    (above : tidy → ∀ header ∈ path, sizes.size (θ address) < sizes.size (θ header)) :
    Except.FailsOnly (Fault.Cyclic tidy) (heap.isGroundBelow path address) := by
  fun_induction heap.isGroundBelow path address with
  | case1 path address fault read =>
    have fails := formed.failsOnly_value inside tidy
    rw [read] at fails
    rintro _ ⟨⟩
    exact fails fault rfl
  | case2 | case3 | case4 => exact Except.failsOnly_ok _
  | case5 path address found functor header read passed =>
    rintro _ ⟨⟩
    refine ⟨rfl, fun keeps ↦ ?_⟩
    have higher := above keeps header passed
    rw [((solution keeps).eq_header read).2] at higher
    exact Nat.lt_irrefl _ higher
  | case6 path address found functor header read _ ih =>
    refine Except.failsOnly_allM fun argument member ↦ ih argument (formed.argument_lt read member)
      (fun keeps ↦ ?_) fun keeps other passed ↦ ?_
    · exact ((solution keeps).smaller read member (finite keeps)).2.1
    · obtain ⟨same, -, smaller, -⟩ := (solution keeps).smaller read member (finite keeps)
      obtain rfl | before := mem_insert_iff.1 passed
      · exact smaller
      · exact Nat.lt_trans smaller (same ▸ above keeps other before)

/-- Groundness is decided where something finite stands. -/
theorem Formed.failsOnly_isGround {address : Nat} (inside : address < heap.size)
    (finite : tidy → sizes.Finite (θ address)) :
    Except.FailsOnly (Fault.Cyclic tidy) (heap.isGround address) :=
  formed.failsOnly_isGroundBelow solution inside finite (by simp)

end

theorem Formed.failsOnly_extractBelow (formed : heap.Formed admitted 0) (path : Std.TreeSet Address)
    {address : Nat} (inside : address < heap.size) (names : VarNames) :
    FailsOnly (· = .cyclicTerm) (heap.extractBelow path address) names := by
  fun_induction heap.extractBelow path address generalizing names with
  | case1 path address fault read =>
    obtain ⟨found, value, other⟩ := formed.exists_value inside
    cases read.symm.trans other
  | case2 | case3 | case4 => exact failsOnly_of_ok rfl
  | case5 => exact failsOnly_throw (by rfl) names
  | case6 path address found functor header read _ ih =>
    refine failsOnly_bind (failsOnly_mapM (fun _ ↦ True) (fun argument member names _ ↦
      ⟨ih argument (formed.argument_lt read member) names, fun _ _ _ ↦ trivial⟩) trivial)
        fun _ _ _ ↦ ?_
    exact failsOnly_of_ok rfl

variable {tidy : Prop} (orderly : heap.Orderly tidy admitted)

include orderly

theorem Orderly.exists_solution : ∃ θ : Valuation Term, tidy → heap.Solution θ := by
  by_cases keeps : tidy
  · exact (orderly.solvable keeps).imp fun _ solution _ ↦ solution
  · exact ⟨default, fun kept ↦ absurd kept keeps⟩

/-- The occurs check. -/
theorem Orderly.failsOnly_occurs (target : Address) {address : Nat} (inside : address < heap.size) :
    Except.FailsOnly (Fault.Cyclic tidy) (heap.occurs target address) := by
  obtain ⟨θ, solution⟩ := orderly.exists_solution
  exact orderly.formed.failsOnly_occursWithin solution target inside (fun _ ↦ trivial) fun _ ↦
    Nat.lt_succ_of_le (Memory.smallCount_le (.ofSized Term) θ heap.size _)

/-- Looking for unbound variables. -/
theorem Orderly.failsOnly_isGround {address : Nat} (inside : address < heap.size) :
    Except.FailsOnly (Fault.Cyclic tidy) (heap.isGround address) := by
  obtain ⟨θ, solution⟩ := orderly.exists_solution
  have finite (_ : tidy) : (Domain.Sizes.ofSized Term).Finite (θ address) := trivial
  exact orderly.formed.failsOnly_isGround solution inside finite

/-- Reading a term. -/
theorem Orderly.failsOnly_extractNamed {address : Nat} (inside : address < heap.size)
    (names : VarNames) :
    Except.FailsOnly (Fault.Cyclic tidy) (heap.extractNamed address names).1 := by
  have fails := orderly.formed.failsOnly_extractBelow ∅ inside names
  intro fault failed
  refine ⟨?_, fun keeps ↦ ?_⟩
  · rw [extractNamed] at failed
    split at failed
    · cases failed
    · next ended =>
      cases failed
      exact fails _ _ ended
  · obtain ⟨θ, solution⟩ := orderly.solvable keeps
    obtain ⟨term, later, read⟩ := orderly.formed.exists_extractNamed solution inside names
    rw [read] at failed
    cases failed

private theorem Orderly.failsOnly_groundTerms {addresses : List Address}
    (inside : ∀ address ∈ addresses, address < heap.size) :
    Except.FailsOnly (Fault.Cyclic tidy) (Builtin.groundTerms heap addresses) := by
  induction addresses with
  | nil => exact Except.failsOnly_ok _
  | cons address addresses ih =>
    obtain ⟨here, rest⟩ := List.forall_mem_cons.1 inside
    rw [Builtin.groundTerms]
    refine Except.failsOnly_bind (orderly.failsOnly_isGround here) fun ground _ ↦ ?_
    cases ground with
    | false => exact Except.failsOnly_ok _
    | true =>
      refine Except.failsOnly_bind (orderly.failsOnly_extractNamed here {}) fun term _ ↦ ?_
      exact Except.failsOnly_bind (ih rest) fun _ _ ↦ Except.failsOnly_ok _

end Heap

namespace Memory

open Heap

/-- A unification that stops at a fault stops at a cyclic term. -/
def Obstacle.Cyclic (tidy : Prop) : Obstacle → Prop
  | fault reason => reason.Cyclic tidy
  | clash | unfinished => True

variable {tidy : Prop} {admitted : Functor → Prop}

/-- Bindings made under the occurs check keep a heap tidy. -/
theorem Binds.orderly {check : OccursCheck} {memory later : Memory}
    (binds : Binds check memory later)
    (on : tidy → check = .on) (orderly : memory.heap.Orderly tidy admitted) :
    later.heap.Orderly tidy admitted where
  formed := binds.formed orderly.formed
  solvable keeps := by
    cases on keeps
    exact binds.solvable orderly.formed (orderly.solvable keeps)

/-- Only the occurs check goes down structures without end. -/
theorem failsOnly_unifyWithin {check : OccursCheck} (on : tidy → check = .on) (depth : Nat)
    {a b : Nat} (state : Unifying) (orderly : state.memory.heap.Orderly tidy admitted)
    (inside_a : a < state.memory.heap.size) (inside_b : b < state.memory.heap.size) :
    FailsOnly (Obstacle.Cyclic (tidy ∨ check = .off)) (unifyWithin check depth a b) state := by
  induction depth generalizing a b state with
  | zero => exact failsOnly_throw trivial state
  | succ depth ih =>
    intro obstacle last ended
    have move := move_unifyWithin Term check depth state a b
    rw [ended] at move
    cases move with
    | clash => exact trivial
    | fault fault cause =>
      obtain ⟨address, member, failed⟩ | ⟨rfl, address, target, ⟨shown, faces⟩, failed⟩ := cause
      · have inside : address < state.memory.heap.size := by
          rcases List.mem_pair.1 member with rfl | rfl <;> assumption
        exact orderly.formed.failsOnly_value inside _ _ failed
      · have inside : target < state.memory.heap.size := by
          obtain ⟨-, read⟩ | ⟨-, read⟩ := faces <;> exact Formed.found_lt read
        obtain ⟨cyclic, untidy⟩ := orderly.failsOnly_occurs _ inside _ failed
        exact ⟨cyclic, by simpa using untidy⟩
    | descend functor left right at_left at_right _ _ _ run =>
      -- bindings keep the heap in order and its size
      let holds (later : Unifying) :=
        later.memory.heap.Orderly tidy admitted ∧ later.memory.heap.size = state.memory.heap.size
      have begins : holds (state.taken check left right) := by simp [holds, orderly]
      refine failsOnly_forM holds (fun pair member next ⟨next_orderly, size⟩ ↦
        ⟨?_, fun done later ran ↦ ?_⟩) begins _ _ run
      · obtain ⟨at_one, at_two⟩ := List.of_mem_zip member
        exact ih next next_orderly (size ▸ orderly.formed.lt_size_of_mem_arguments at_left at_one)
          (size ▸ orderly.formed.lt_size_of_mem_arguments at_right at_two)
      · have binds := binds_unifyWithin check depth pair.1 pair.2 next
        rw [ran] at binds
        exact ⟨binds.orderly on next_orderly, binds.rebinds.size.trans size⟩

/-- Unification of addresses of a heap that is in order. -/
theorem cyclic_of_unify {memory : Memory} (orderly : memory.heap.Orderly tidy admitted)
    {check : OccursCheck} (on : tidy → check = .on) {a b : Nat} (inside_a : a < memory.heap.size)
    (inside_b : b < memory.heap.size) :
    Except.FailsOnly (Fault.Cyclic (tidy ∨ check = .off)) (memory.unify check a b).1 := by
  have fails := failsOnly_unifyWithin on memory.depthBound { memory } orderly inside_a inside_b
  intro fault failed
  rw [unify] at failed
  change (settle _ (unifyWithin check memory.depthBound a b { memory })).1 = _ at failed
  cases ended : unifyWithin check memory.depthBound a b { memory } with
  | ok done state =>
    rw [ended] at failed
    cases failed
  | error obstacle state =>
    rw [ended] at failed
    cases obstacle with
    | fault found =>
      cases failed
      exact fails _ _ ended
    | clash | unfinished => cases failed

private theorem failsOnly_unify {memory : Memory} (orderly : memory.heap.Orderly tidy admitted)
    {check : OccursCheck} (on : tidy → check = .on) {a b : Nat} (inside_a : a < memory.heap.size)
    (inside_b : b < memory.heap.size) :
    Except.FailsOnly (Fault.Cyclic tidy) (memory.unify check a b).1 := by
  intro fault failed
  obtain ⟨cyclic, untidy⟩ := cyclic_of_unify orderly on inside_a inside_b fault failed
  exact ⟨cyclic, fun keeps ↦ untidy (.inl keeps)⟩

/-- Without the occurs check, or on a solvable heap, unification comes to an answer. -/
theorem exists_unify {memory : Memory} {check : OccursCheck}
    (formed : memory.heap.Formed admitted 0)
    (solvable : check = .on → memory.heap.Solvable) {a b : Nat} (inside_a : a < memory.heap.size)
    (inside_b : b < memory.heap.size) :
    ∃ unified later, memory.unify check a b = (.ok unified, later) := by
  have fails := cyclic_of_unify ⟨formed, solvable⟩ id inside_a inside_b
  generalize memory.unify check a b = result at fails
  obtain ⟨answer | unified, later⟩ := result
  · obtain ⟨-, untidy⟩ := fails answer rfl
    cases check <;> simp at untidy
  · exact ⟨unified, later, rfl⟩

end Memory

/-- A builtin run on addresses of a heap that is in order. -/
theorem Builtin.failsOnly_run {tidy : Prop} {admitted : Functor → Prop} {memory : Memory}
    (orderly : memory.heap.Orderly tidy admitted) (builtin : Builtin) {check : OccursCheck}
    (on : tidy → check = .on) {args : List Address}
    (inside : ∀ address ∈ args, address < memory.heap.size) :
    Except.FailsOnly (Fault.Cyclic tidy) (builtin.run check memory args).1 := by
  have grounds (args : List Address) (inside : ∀ address ∈ args, address < memory.heap.size) :
      Except.FailsOnly (Fault.Cyclic tidy) ((groundTerms memory.heap args).map fun terms ↦
        terms.any allDifferent) := by
    intro fault failed
    cases read : groundTerms memory.heap args with
    | ok terms =>
      rw [read] at failed
      cases failed
    | error found =>
      rw [read] at failed
      cases failed
      exact orderly.failsOnly_groundTerms inside _ read
  unfold run
  split
  · nofun
  · exact Memory.failsOnly_unify orderly on (inside _ (by simp)) (inside _ (by simp))
  · nofun
  · exact grounds _ inside
  · nofun
  · exact grounds _ inside

/-! ### Loading -/

namespace Heap.Load

private theorem exists_loadArgs {args : List Term}
    (each : ∀ arg ∈ args, ∀ state, ∃ address later, load arg state = .ok address later)
    (slot : Address) (state : Loading) : ∃ later, loadArgs slot args state = .ok ⟨⟩ later := by
  induction args generalizing slot state with
  | nil => exact ⟨state, rfl⟩
  | cons arg args ih =>
    obtain ⟨here, rest⟩ := List.forall_mem_cons.1 each
    cases arg with
    | atom | num => exact ih rest _ _
    | var v =>
      rw [loadArgs]
      simp only [bind_apply, variableAt]
      cases state.vars[v]? <;> exact ih rest _ _
    | struct symbol inner =>
      rw [loadArgs]
      obtain ⟨address, later, loaded⟩ := here state
      simp only [bind_apply, loaded]
      exact ih rest _ _

/-- A term whose structures fit can be loaded. -/
theorem exists_load {term : Term} (fits : term.fits = true) (state : Loading) :
    ∃ address later, load term state = .ok address later := by
  induction term generalizing state with
  | atom | num => exact ⟨_, _, rfl⟩
  | var v =>
    rw [load]
    simp only [loadVar]
    split <;> exact ⟨_, _, rfl⟩
  | struct symbol args ih =>
    rw [Term.fits, Term.allFit_eq_all, Bool.and_eq_true, decide_eq_true_eq,
      List.all_eq_true] at fits
    rw [load, if_neg (Nat.not_lt.2 fits.1)]
    have args_loaded := exists_loadArgs fun arg member ↦ ih arg member (fits.2 arg member)
    simp only [bind_apply, pushStructure, reserve]
    obtain ⟨later, loaded⟩ := args_loaded _ _
    rw [loaded]
    exact ⟨_, _, rfl⟩

end Heap.Load

theorem Heap.exists_loadAlone (heap : Heap) {term : Term} (fits : term.fits = true) :
    ∃ address later, heap.loadAlone term = (.ok address, later) := by
  obtain ⟨address, later, loaded⟩ := Load.exists_load fits { heap, vars := ∅ }
  refine ⟨address, later.heap, ?_⟩
  simp only [loadAlone, load, EStateM.run, loaded]

end HornMachine
