import HornMachine.Proofs.Heap.Trees

/-!
# Terms matched with addresses

Terms are matched with addresses of a heap by putting them on the heap, with one cell for each
variable, and unifying them with the addresses one after another. Other ways to match them may bind
other cells and leave other structures behind, but what counts is the same: the solutions afterwards
are those before in which the addresses stand for instances of the terms. Main statements:
unification matches without the occurs check (`exists_unifyTerms`), and heaps that match the same
terms read alike (`Matches.variant`).
-/

namespace HornMachine

/-! ### Unifying several pairs -/

namespace Memory

/-- Unify pairs of addresses from left to right until two of them do not unify. -/
def unifyEach (check : OccursCheck) : List (Address × Address) → Memory → Except Fault Bool × Memory
  | [], memory => (.ok true, memory)
  | (a, b) :: pairs, memory =>
    match memory.unify check a b with
    | (.ok true, memory) => unifyEach check pairs memory
    | result => result

/-- Without the occurs check unification comes to an answer, and it is the right one. -/
theorem exists_unifyEach {admitted : Functor → Prop} {pairs : List (Address × Address)}
    {memory : Memory} (formed : memory.heap.Formed admitted 0)
    (inside : ∀ pair ∈ pairs, pair.1 < memory.heap.size ∧ pair.2 < memory.heap.size) :
    ∃ success later, unifyEach .off pairs memory = (.ok success, later) ∧
      later.heap.Formed admitted 0 ∧ later.heap.size = memory.heap.size ∧
      (success = true → ∀ θ : Valuation Tree,
        later.heap.Solution θ ↔ memory.heap.Solution θ ∧ ∀ pair ∈ pairs, θ pair.1 = θ pair.2) ∧
      (success = false → ∀ θ : Valuation Tree, memory.heap.Solution θ →
        ¬∀ pair ∈ pairs, θ pair.1 = θ pair.2) := by
  induction pairs generalizing memory with
  | nil => exact ⟨true, memory, rfl, formed, rfl, by simp, nofun⟩
  | cons pair pairs ih =>
    obtain ⟨here, rest⟩ := List.forall_mem_cons.1 inside
    obtain ⟨unified, middle, ended⟩ : ∃ unified middle, memory.unify .off pair.1 pair.2 =
      (.ok unified, middle) :=
      exists_unify formed (by simp) here.1 here.2
    have binds := binds_unify ended
    rw [unifyEach, ended]
    cases unified with
    | false =>
      refine ⟨false, middle, rfl, binds.formed formed, binds.rebinds.size, nofun,
        fun _ θ solution all ↦ ?_⟩
      have decides : OccursCheck.off.Decides Tree := fun on ↦ absurd on (by simp)
      exact ne_of_unify decides ended solution (all pair List.mem_cons_self)
    | true =>
      obtain ⟨success, later, others, later_formed, size, found, missed⟩ :=
        ih (binds.formed formed) fun other member ↦ by
          rw [binds.rebinds.size]
          exact rest other member
      refine ⟨success, later, others, later_formed, size.trans binds.rebinds.size, fun won θ ↦ ?_,
        fun lost θ solution all ↦ ?_⟩
      · rw [found won, solution_unify ended, List.forall_mem_cons, and_assoc]
      · obtain ⟨first, further⟩ := List.forall_mem_cons.1 all
        exact missed lost θ ((solution_unify ended θ).2 ⟨solution, first⟩) further

end Memory

namespace Heap

open Loading (Assigns exists_assigns)

/-! ### Matching -/

/-- Variables have the values of the places they are in. -/
def Placed {D : Type} (places : Var → Option Address) (θ : Valuation D) (β : Var → D) : Prop :=
  ∀ (v : Var) (place : Address), places v = some place → θ place = β v

/-- A later heap in which terms were matched with addresses, with places for the variables of the
terms: its solutions are those of the earlier heap in which the addresses stand for instances of the
terms. -/
structure Matches (heap : Heap) (arguments : List Address) (terms : List Term)
    (places : Var → Option Address) (later : Heap) : Prop where
  formed : later.Formed (fun _ ↦ True) 0
  grown : heap.size ≤ later.size
  held : ∀ v ∈ terms.flatMap Term.occurrences, ∃ place, places v = some place
  inside : ∀ (v : Var) (place : Nat), places v = some place → place < later.size
  back : ∀ θ : Valuation Tree, later.Solution θ →
    heap.Solution θ ∧ ∀ β, Placed places θ β → arguments.map θ = terms.map (Term.eval β)
  forth : ∀ (θ : Valuation Tree) β, heap.Solution θ → arguments.map θ = terms.map (Term.eval β) →
    ∃ θ' : Valuation Tree, (∀ address : Nat, address < heap.size → θ' address = θ address) ∧
      later.Solution θ' ∧ Placed places θ' β

/-- Matching that succeeds, or fails because in no solution the addresses stand for instances. -/
def Matched (heap : Heap) (arguments : List Address) (terms : List Term)
    (places : Var → Option Address) (later : Heap) : Bool → Prop
  | true => heap.Matches arguments terms places later
  | false => ∀ (θ : Valuation Tree) β, heap.Solution θ → arguments.map θ ≠ terms.map (Term.eval β)

variable {heap later later' : Heap} {arguments : List Address} {terms : List Term}
  {places places' : Var → Option Address}

private theorem exists_placed {D : Type} [Inhabited D] (places : Var → Option Address)
    (θ : Valuation D) :
    ∃ β, Placed places θ β := by
  refine ⟨fun v ↦ ((places v).map θ).getD default, fun v place here ↦ ?_⟩
  simp [here]

/-- A heap in which terms were matched has a solution. -/
theorem Matches.exists_solution (one : heap.Matches arguments terms places later) :
    ∃ (θ : Valuation Tree) (β : Var → Tree), heap.Solution θ ∧
    arguments.map θ = terms.map (Term.eval β) := by
  have solution := one.formed.solution_trees id
  obtain ⟨β, placed⟩ := exists_placed places (later.trees id)
  obtain ⟨before, instances⟩ := one.back _ solution
  exact ⟨_, β, before, instances β placed⟩

/-- All ways to match come to the same answer. -/
theorem Matched.eq {success success' : Bool}
    (one : heap.Matched arguments terms places later success)
    (two : heap.Matched arguments terms places' later' success') : success = success' := by
  cases success with
  | true =>
    cases success' with
    | true => rfl
    | false =>
      obtain ⟨θ, β, solution, instances⟩ := Matches.exists_solution one
      exact absurd instances (two θ β solution)
  | false =>
    cases success' with
    | true =>
      obtain ⟨θ, β, solution, instances⟩ := Matches.exists_solution two
      exact absurd instances (one θ β solution)
    | false => rfl

/-- Two addresses that are one of the earlier heap, or the places of one variable. -/
def Corresponds (heap : Heap) (places places' : Var → Option Address) (cell : Address × Address) :
    Prop :=
  (cell.1 = cell.2 ∧ cell.1 < heap.size) ∨ ∃ v, places v = some cell.1 ∧ places' v = some cell.2

/-- What corresponding addresses stand for together in one heap they stand for in the other. -/
theorem Matches.exists_solution_map (one : heap.Matches arguments terms places later)
    (two : heap.Matches arguments terms places' later') {cells : List (Address × Address)}
    (same : ∀ cell ∈ cells, heap.Corresponds places places' cell) {θ : Valuation Tree}
    (solution : later.Solution θ) :
    ∃ θ' : Valuation Tree, later'.Solution θ' ∧
      (cells.map Prod.fst).map θ = (cells.map Prod.snd).map θ' := by
  obtain ⟨β, placed⟩ := exists_placed places θ
  obtain ⟨before, instances⟩ := one.back θ solution
  obtain ⟨θ', kept, solution', placed'⟩ := two.forth θ β before (instances β placed)
  refine ⟨θ', solution', ?_⟩
  rw [List.map_map, List.map_map]
  refine List.map_congr_left fun cell member ↦ ?_
  obtain ⟨equal, old⟩ | ⟨v, here, there⟩ := same cell member
  · change θ cell.1 = θ' cell.2
    rw [← equal, kept cell.1 old]
  · exact (placed v cell.1 here).trans (placed' v cell.2 there).symm

theorem Corresponds.swap {cell : Address × Address} (same : heap.Corresponds places places' cell) :
    heap.Corresponds places' places cell.swap := by
  obtain ⟨equal, old⟩ | ⟨v, here, there⟩ := same
  · exact .inl ⟨equal.symm, lt_of_eq_of_lt equal.symm old⟩
  · exact .inr ⟨v, there, here⟩

/-- Heaps in which the same terms were matched read alike at corresponding addresses: they give the
same terms up to one renaming of unbound variables, and a cyclic term for a cyclic term. -/
theorem Matches.variant (one : heap.Matches arguments terms places later)
    (two : heap.Matches arguments terms places' later') {cells : List (Address × Address)}
    (same : ∀ cell ∈ cells, heap.Corresponds places places' cell) (reserved reserved' : List Var) :
    ∃ ρ : Equiv.Perm Var,
      later'.extractEach (cells.map Prod.snd) (.reserving reserved') =
        (later.extractEach (cells.map Prod.fst) (.reserving reserved)).map
          (Except.map (Term.subst fun v ↦ .var (ρ v))) ∧
      ∀ fault, .error fault ∈ later.extractEach (cells.map Prod.fst) (.reserving reserved) →
        fault = .cyclicTerm := by
  have inside : ∀ address ∈ cells.map Prod.fst, address < later.size := by
    intro address member
    obtain ⟨cell, among, rfl⟩ := List.mem_map.1 member
    obtain ⟨-, old⟩ | ⟨v, here, -⟩ := same cell among
    · exact Nat.lt_of_lt_of_le old one.grown
    · exact one.inside v cell.1 here
  have inside' : ∀ address ∈ cells.map Prod.snd, address < later'.size := by
    intro address member
    obtain ⟨cell, among, rfl⟩ := List.mem_map.1 member
    obtain ⟨equal, old⟩ | ⟨v, -, there⟩ := same cell among
    · exact Nat.lt_of_lt_of_le (equal ▸ old) two.grown
    · exact two.inside v cell.2 there
  have swapped : ∀ cell ∈ cells.map Prod.swap, heap.Corresponds places' places cell := by
    intro cell member
    obtain ⟨other, among, rfl⟩ := List.mem_map.1 member
    exact (same other among).swap
  obtain ⟨raws, results, -, describes⟩ :=
    exists_describes_extractEach one.formed inside (VarNames.proper_reserving reserved later)
  obtain ⟨raws', results', -, describes'⟩ :=
    exists_describes_extractEach two.formed inside' (VarNames.proper_reserving reserved' later')
  have solutions (trees : List Tree) :
      (∃ θ : Valuation Tree, later'.Solution θ ∧ trees = (cells.map Prod.snd).map θ) ↔
        ∃ θ : Valuation Tree, later.Solution θ ∧ trees = (cells.map Prod.fst).map θ := by
    constructor
    · rintro ⟨θ, solution, rfl⟩
      obtain ⟨θ', solution', mapped⟩ := two.exists_solution_map one swapped solution
      refine ⟨θ', solution', ?_⟩
      simpa [Function.comp_def] using mapped
    · rintro ⟨θ, solution, rfl⟩
      obtain ⟨θ', solution', mapped⟩ := one.exists_solution_map two same solution
      exact ⟨θ', solution', mapped⟩
  rw [funext fun trees ↦ propext (solutions trees)] at describes'
  obtain ⟨ρ, renamed⟩ := describes.variant describes'
  refine ⟨ρ, ?_, fun fault failed ↦
    eq_cyclicTerm_of_extractEach one.formed inside
      (VarNames.proper_reserving reserved later) failed⟩
  rw [results', results, renamed, List.map_map, List.map_map]
  refine List.map_congr_left fun raw _ ↦ ?_
  cases raw with
  | none => rfl
  | some raw => exact congrArg Except.ok (Term.collapse_rename ρ raw)

/-! ### Matching by unification -/

/-- Terms whose structures fit can be put on a heap and unified with addresses there, and this
matches them. -/
theorem exists_unifyTerms {memory : Memory} (formed : memory.heap.Formed (fun _ ↦ True) 0)
    (inside : ∀ address ∈ arguments, address < memory.heap.size)
    (count : arguments.length = terms.length) (fits : ∀ term ∈ terms, term.fits = true) :
    ∃ addresses loaded success later, terms.mapM Load.load { heap := memory.heap } =
      .ok addresses loaded ∧
      Memory.unifyEach .off (arguments.zip addresses) { memory with heap := loaded.heap } =
        (.ok success, later) ∧
      memory.heap.Matched arguments terms (fun v ↦ loaded.vars[v]?) later.heap success := by
  obtain ⟨addresses, loaded, run⟩ := exists_mapM_ok
    (fun term member state ↦ Load.exists_load (fits term member) state) { heap := memory.heap }
  have sound : Loading.Sound (fun _ ↦ True) ∅ { heap := memory.heap, vars := ∅ } :=
    Loading.sound_of_formed formed (by simp)
  have kinds : ∀ term ∈ terms, term.AllFunctors fun _ ↦ True := fun term _ ↦ term.allFunctors_true
  obtain ⟨loads, loaded_inside⟩ := Loading.loads_mapM (D := Tree) kinds sound run
  have length : addresses.length = arguments.length := (exists_of_mapM run).1.trans count.symm
  have pairs_inside : ∀ pair ∈ arguments.zip addresses,
      pair.1 < loaded.heap.size ∧ pair.2 < loaded.heap.size := by
    intro pair member
    obtain ⟨old, new⟩ := List.of_mem_zip member
    exact ⟨Nat.lt_of_lt_of_le (inside _ old) loads.grown, loaded_inside _ new⟩
  obtain ⟨success, later, ended, later_formed, size, found, missed⟩ :=
    @Memory.exists_unifyEach _ _ { memory with heap := loaded.heap } loads.sound.formed pairs_inside
  refine ⟨addresses, loaded, success, later, run, ended, ?_⟩
  have pairs (θ : Valuation Tree) : (∀ pair ∈ arguments.zip addresses, θ pair.1 = θ pair.2) ↔
      arguments.map θ = addresses.map θ := Term.forall_mem_zip_iff length.symm
  cases success with
  | false =>
    intro θ β solution instances
    obtain ⟨θ', kept, meets, assigns⟩ := loads.forth θ β (Loading.meets_empty.2 solution)
      (fun v address known ↦ by simp at known) trivial
    refine missed rfl θ' (Loading.meets_empty.1 meets) ((pairs θ').2 ?_)
    rw [(loads.back θ' meets).2 β assigns, ← instances]
    exact List.map_congr_left fun address member ↦ kept address (inside address member)
  | true =>
    refine ⟨later_formed, size ▸ loads.grown, (Loading.places_mapM run).2, fun v place known ↦ ?_,
      fun θ solution ↦ ?_, fun θ β solution instances ↦ ?_⟩
    · rw [size]
      exact lt_size_of_getElem? (loads.sound.vars v place known).2
    · obtain ⟨before, all⟩ := (found rfl θ).1 solution
      obtain ⟨meets, claims⟩ := loads.back θ (Loading.meets_empty.2 before)
      exact ⟨Loading.meets_empty.1 meets, fun β placed ↦ ((pairs θ).1 all).trans (claims β placed)⟩
    · obtain ⟨θ', kept, meets, assigns⟩ := loads.forth θ β (Loading.meets_empty.2 solution)
        (fun v address known ↦ by simp at known) trivial
      refine ⟨θ', kept, (found rfl θ').2 ⟨Loading.meets_empty.1 meets, (pairs θ').2 ?_⟩, assigns⟩
      rw [(loads.back θ' meets).2 β assigns, ← instances]
      exact List.map_congr_left fun address member ↦ kept address (inside address member)

end Heap
end HornMachine
