import HornMachine.Proofs.Heap.Formed
import Mathlib.Logic.Relation
import Mathlib.Order.WellFounded
import Mathlib.Data.Fintype.Basic
import Mathlib.Data.Fintype.EquivFin
import Mathlib.Order.Preorder.Finite
import Mathlib.Data.Set.Finite.Basic

/-!
# Acyclic heaps

A heap is acyclic when no structure reaches itself through its arguments and the references from
them. Main statements: a well-formed heap is acyclic exactly when its equations have a solution in a
domain with sizes, and then the free variables can be given any values of any domain.
-/

namespace HornMachine.Heap

variable {D : Type} [Domain D]

/-- An argument of the structure with header `outer` refers to the structure with header `inner`. -/
def Contains (heap : Heap) (outer inner : Address) : Prop :=
  ∃ functor argument found other, heap.cells[outer]? = some (.functor functor) ∧
    argument ∈ arguments functor outer ∧
    heap.value argument = .ok (found, .compound other inner)

/-- No structure reaches itself. -/
def Acyclic (heap : Heap) : Prop := ∀ header, ¬Relation.TransGen heap.Contains header header

/-- Whether every structure is at a higher address than those it is inside of. -/
def ascends (heap : Heap) : Bool :=
  (List.range heap.size).all fun outer ↦
    match heap.cells[outer]? with
    | some (.functor functor) => (arguments functor outer).all fun argument ↦
      match heap.value argument with
      | .ok (_, .compound _ inner) => outer < inner
      | _ => true
    | _ => true

theorem acyclic_of_ascends {heap : Heap} (ascends : heap.ascends = true) : heap.Acyclic := by
  have upwards {outer inner : Nat} (contains : heap.Contains outer inner) : outer < inner := by
    obtain ⟨functor, argument, found, other, at_outer, member, read⟩ := contains
    have here := List.all_eq_true.1 ascends outer (List.mem_range.2 (lt_size_of_getElem? at_outer))
    rw [at_outer] at here
    have below := List.all_eq_true.1 here argument member
    rw [read] at below
    exact of_decide_eq_true below
  intro header cycle
  have higher {outer inner : Nat} (path : Relation.TransGen heap.Contains outer inner) :
    outer < inner := by
    induction path with
    | single contains => exact upwards contains
    | tail _ contains ih => exact Nat.lt_trans ih (upwards contains)
  exact Nat.lt_irrefl header (higher cycle)

/-- A structure inside another stands for less. -/
theorem Solution.size_lt_of_contains [Sized D] {heap : Heap} {θ : Valuation D}
    (solution : heap.Solution θ) {outer inner : Address} (contains : heap.Contains outer inner) :
    Sized.size (θ inner) < Sized.size (θ outer) := by
  obtain ⟨functor, argument, found, other, at_outer, member, read⟩ := contains
  rw [← (solution.eq_header read).2]
  exact solution.size_lt at_outer member

/-- A heap with a solution is acyclic: going into a structure, values become smaller. -/
theorem Solution.acyclic [Sized D] {heap : Heap} {θ : Valuation D} (solution : heap.Solution θ) :
    heap.Acyclic := by
  intro header cycle
  have smaller {outer inner : Address} (path : Relation.TransGen heap.Contains outer inner) :
      Sized.size (θ inner) < Sized.size (θ outer) := by
    induction path with
    | single contains => exact solution.size_lt_of_contains contains
    | tail _ contains ih => exact Nat.lt_trans (solution.size_lt_of_contains contains) ih
  exact Nat.lt_irrefl _ (smaller cycle)

/-! ### The cells of an acyclic heap are ordered -/

/-- The cell at `upper` speaks of the address `lower`. -/
inductive Below (heap : Heap) (lower upper : Address) : Prop
  | ref (here : heap.cells[upper]? = some (.ref lower)) (bound : lower ≠ upper)
  | str (here : heap.cells[upper]? = some (.str lower))
  | arg {functor : Functor} (here : heap.cells[upper]? = some (.functor functor))
    (member : lower ∈ arguments functor upper)

private theorem Contains.lt_size {heap : Heap} {outer inner : Nat}
    (contains : heap.Contains outer inner) :
    outer < heap.size ∧ inner < heap.size := by
  obtain ⟨functor, argument, found, other, at_outer, -, read⟩ := contains
  exact ⟨lt_size_of_getElem? at_outer, lt_size_of_getElem? (value_eq_ok_iff.1 read).2.1⟩

/-- There are finitely many structures, so going into structures ends where no cycle is reached. -/
theorem acc_contains {heap : Heap} {start : Address} (acyclic : ∀ header,
    Relation.ReflTransGen heap.Contains start header →
      ¬Relation.TransGen heap.Contains header header) :
    Acc (fun inner outer ↦ heap.Contains outer inner) start := by
  let reaches (inner outer : Fin heap.size) : Prop :=
    Relation.ReflTransGen heap.Contains start outer ∧ Relation.TransGen heap.Contains outer inner
  have irreflexive : Std.Irrefl reaches :=
    ⟨fun header ⟨reached, cycle⟩ ↦ acyclic header reached cycle⟩
  have transitive : IsTrans (Fin heap.size) reaches :=
    ⟨fun _ _ _ one two ↦ ⟨two.1, two.2.trans one.2⟩⟩
  have inside : WellFounded reaches := Finite.wellFounded_of_trans_of_irrefl reaches
  have accessible (header : Fin heap.size)
    (reached : Relation.ReflTransGen heap.Contains start header) :
      Acc (fun inner outer ↦ heap.Contains outer inner) header.val := by
    induction header using inside.induction with
    | _ header ih =>
      refine Acc.intro _ fun inner contains ↦ ?_
      exact ih ⟨inner, contains.lt_size.2⟩ ⟨reached, .single contains⟩ (reached.tail contains)
  by_cases bound : start < heap.size
  · exact accessible ⟨start, bound⟩ .refl
  · exact Acc.intro _ fun inner contains ↦ absurd contains.lt_size.1 bound

private theorem Acyclic.wellFounded {heap : Heap} (acyclic : heap.Acyclic) :
    WellFounded fun inner outer ↦ heap.Contains outer inner :=
  ⟨fun _ ↦ acc_contains fun header _ ↦ acyclic header⟩

/-- The cells below an address end where those below the structure it refers to do. The induction
follows the references from the address. -/
theorem Formed.acc_of_value {heap : Heap} {admitted : Functor → Prop} {missing : Nat}
    (formed : heap.Formed admitted missing)
    {address : Nat} (headers : ∀ found functor header,
      heap.value address = .ok (found, .compound functor header) → Acc heap.Below header) :
    Acc heap.Below address := by
  induction formed.ends address with
  | intro address _ ih =>
    cases here : heap.cells[address]? with
    | none =>
      refine Acc.intro _ fun lower step ↦ ?_
      rcases step with ⟨there, -⟩ | there | ⟨there, -⟩ <;> cases here.symm.trans there
    | some cell =>
      cases cell with
      | ref target =>
        refine Acc.intro _ fun lower step ↦ ?_
        rcases step with ⟨there, bound⟩ | there | ⟨there, -⟩
        · cases here.symm.trans there
          rw [formed.value_ref here bound] at headers
          exact ih target ⟨here, bound⟩ headers
        · cases here.symm.trans there
        · cases here.symm.trans there
      | functor functor =>
        have ends : heap.deref address = .ok address := by
          rw [deref, derefWithin, cell_eq_ok_iff.2 here]
          rfl
        exact headers address functor address (value_eq_ok_iff.2 ⟨ends, here, .inr rfl⟩)
      | str header =>
        have ends : heap.deref address = .ok address := by
          rw [deref, derefWithin, cell_eq_ok_iff.2 here]
          rfl
        obtain ⟨functor, at_header⟩ := formed.str address header here
        have below := headers address functor header
          (value_eq_ok_iff.2 ⟨ends, at_header, .inl here⟩)
        refine Acc.intro _ fun lower step ↦ ?_
        rcases step with ⟨there, -⟩ | there | ⟨there, -⟩
        · cases here.symm.trans there
        · cases here.symm.trans there
          exact below
        · cases here.symm.trans there
      | atom _ | num _ =>
        refine Acc.intro _ fun lower step ↦ ?_
        rcases step with ⟨there, -⟩ | there | ⟨there, -⟩ <;> cases here.symm.trans there

/-- The cells of a well-formed acyclic heap are ordered by what they speak of. -/
theorem Formed.wellFounded_below {heap : Heap} {admitted : Functor → Prop} {missing : Nat}
    (formed : heap.Formed admitted missing)
    (acyclic : heap.Acyclic) : WellFounded heap.Below := by
  have headers (header : Address) : ∀ functor, heap.cells[header]? = some (.functor functor) →
      Acc heap.Below header := by
    induction header using acyclic.wellFounded.induction with
    | _ header ih =>
      intro functor at_header
      refine Acc.intro _ fun lower step ↦ ?_
      rcases step with ⟨there, -⟩ | there | ⟨there, member⟩
      · cases at_header.symm.trans there
      · cases at_header.symm.trans there
      · refine formed.acc_of_value fun found other inner read ↦ ?_
        exact ih inner ⟨_, _, _, _, there, member, read⟩ other (value_eq_ok_iff.1 read).2.1
  exact ⟨fun address ↦ formed.acc_of_value fun _ functor header read ↦
    headers header functor (value_eq_ok_iff.1 read).2.1⟩

/-! ### Solving an acyclic heap -/

/-- What the cells of an ordered heap stand for, given values for its free variables. -/
noncomputable def solve {heap : Heap} (ordered : WellFounded heap.Below) (free : Valuation D) :
    Valuation D :=
  ordered.fix fun address below ↦
    match here : heap.cells[address]? with
    | none => free address
    | some (.ref target) =>
      if bound : target ≠ address then below target (.ref here bound) else free address
    | some (.str header) => below header (.str here)
    | some (.functor functor) =>
      Domain.struct functor.symbol
        ((arguments functor address).attach.map fun arg ↦ below arg.1 (.arg here arg.2))
    | some (.atom symbol) => Domain.atom symbol
    | some (.num value) => Domain.num value

private theorem solve_eq {heap : Heap} (ordered : WellFounded heap.Below) (free : Valuation D)
    (address : Address) :
    solve ordered free address =
      match heap.cells[address]? with
      | none => free address
      | some (.ref target) =>
        if target ≠ address then solve ordered free target else free address
      | some (.str header) => solve ordered free header
      | some (.functor functor) =>
        Domain.struct functor.symbol ((arguments functor address).map (solve ordered free))
      | some (.atom symbol) => Domain.atom symbol
      | some (.num value) => Domain.num value := by
  rw [solve, WellFounded.fix_eq]
  split
  · next outside => simp only [outside]
  · next target here =>
    simp only [here]
    split
    · rfl
    · rfl
  · next header here => simp only [here]
  · next functor here =>
    simp only [here, List.map_attach_eq_pmap, List.pmap_eq_map]
  · next symbol here => simp only [here]
  · next value here => simp only [here]

private theorem solution_solve {heap : Heap} (ordered : WellFounded heap.Below)
    (free : Valuation D) :
    heap.Solution (solve ordered free) := by
  intro address cell here
  have term := solve_eq ordered free address
  rw [here] at term
  cases cell with
  | ref target =>
    by_cases own : target = address
    · subst own
      rfl
    · simpa [own, Cell.Holds] using term
  | str header | functor functor | atom symbol | num value => exact term

/-- An address that no cell says anything about. -/
def Free (heap : Heap) (address : Address) : Prop :=
  heap.cells[address]? = none ∨ heap.cells[address]? = some (.ref address)

private theorem solve_of_free {heap : Heap} (ordered : WellFounded heap.Below) (free : Valuation D)
    {address : Address} (unbound : heap.Free address) :
    solve ordered free address = free address := by
  have term := solve_eq ordered free address
  rcases unbound with outside | own
  · simpa [outside] using term
  · simpa [own] using term

/-- A well-formed acyclic heap has a solution for all values of its free variables. -/
theorem Formed.exists_solution {heap : Heap} {admitted : Functor → Prop} {missing : Nat}
    (formed : heap.Formed admitted missing)
    (acyclic : heap.Acyclic) (free : Valuation D) :
    ∃ θ, heap.Solution θ ∧ ∀ address, heap.Free address → θ address = free address := by
  have ordered := formed.wellFounded_below acyclic
  exact ⟨solve ordered free, solution_solve ordered free, fun _ ↦ solve_of_free ordered free⟩

/-- A well-formed heap is acyclic exactly when its equations can be solved. -/
theorem Formed.acyclic_iff (D : Type) [Domain D] [Sized D] {heap : Heap}
    {admitted : Functor → Prop} {missing : Nat} (formed : heap.Formed admitted missing) :
    heap.Acyclic ↔ ∃ θ : Valuation D, heap.Solution θ := by
  constructor
  · intro acyclic
    obtain ⟨θ, solution, -⟩ := formed.exists_solution (D := D) acyclic fun _ ↦ default
    exact ⟨θ, solution⟩
  · rintro ⟨θ, solution⟩
    exact solution.acyclic

end HornMachine.Heap
