import HornMachine.Proofs.Bindings.Unification
import HornMachine.Proofs.Heap.Trees

/-!
# Terms and their copies on the heap unify alike

Two terms are unified as they are, under bindings of their variables, or on a heap that holds copies
of both with one cell for each variable. The two ways walk the terms in different order and bind
different variables to one another, but either way the solutions left are those of one equation. So
both succeed or both fail, and what is read of the variables afterwards shows the same solutions.
Main statement: `unifiers_agree`.
-/

namespace HornMachine

open Heap (Loading)
open Heap.Loading (Assigns exists_assigns loadsTerm sound_of_formed meets_empty places_load)

/-! ### Two terms on one heap -/

/-- A heap that holds two terms, with one cell for each of their variables, and says nothing
else. -/
structure Heap.Loading.Holds (state : Loading) (admitted : Functor → Prop) (a b : Term)
    (left right : Nat) : Prop where
  formed : state.heap.Formed admitted 0
  inside : left < state.heap.size ∧ right < state.heap.size
  vars : ∀ v, v ∈ a.occurrences ∨ v ∈ b.occurrences → ∃ place, state.vars[v]? = some place
  places : ∀ (v : Var) (place : Nat), state.vars[v]? = some place → place < state.heap.size
  back : ∀ {D : Type} [Domain D] (θ : Valuation D), state.heap.Solution θ → ∀ β : Var → D,
    Assigns state.vars θ β → θ left = a.eval β ∧ θ right = b.eval β
  forth : ∀ {D : Type} [Domain D] (β : Var → D), ∃ θ : Valuation D, state.heap.Solution θ ∧
    Assigns state.vars θ β

/-- Terms whose structures fit can be put on one heap. -/
theorem Heap.exists_load_both {admitted : Functor → Prop} {a b : Term}
    (a_kinds : a.AllFunctors admitted)
    (b_kinds : b.AllFunctors admitted) (a_fits : a.fits = true) (b_fits : b.fits = true) :
    ∃ left first right second, ({} : Heap).load a ∅ = (.ok left, first) ∧
      first.heap.load b first.vars = (.ok right, second) ∧
      second.Holds admitted a b left right := by
  obtain ⟨left, first, one⟩ := Heap.Load.exists_load a_fits { heap := {}, vars := ∅ }
  obtain ⟨right, second, two⟩ := Heap.Load.exists_load b_fits first
  have begins : Loading.Sound admitted ∅ { heap := {}, vars := ∅ } :=
    sound_of_formed Formed.empty (by simp)
  refine ⟨left, first, right, second, ?_, ?_, ?_⟩
  · simp only [Heap.load, EStateM.run, one]
  · simp only [Heap.load, EStateM.run, two]
  have middle : Loading.Sound admitted ∅ first :=
    (loadsTerm (D := Term) a_kinds ∅ _ _ _ begins one).1.sound
  have ends : Loading.Sound admitted ∅ second :=
    (loadsTerm (D := Term) b_kinds ∅ _ _ _ middle two).1.sound
  have loaded_a {D : Type} [Domain D] := loadsTerm (D := D) a_kinds ∅ _ _ _ begins one
  have loaded_b {D : Type} [Domain D] := loadsTerm (D := D) b_kinds ∅ _ _ _ middle two
  have grown := (loaded_b (D := Term)).1.grown
  refine ⟨ends.formed, ⟨Nat.lt_of_lt_of_le (loaded_a (D := Term)).2.1 grown,
    (loaded_b (D := Term)).2.1⟩,
    fun v occurs ↦ ?_, fun v place known ↦ ?_, fun θ solution β assigns ↦ ?_, fun {D} _ β ↦ ?_⟩
  · rcases occurs with in_a | in_b
    · obtain ⟨place, known⟩ := (places_load one).2 v in_a
      exact ⟨place, (places_load two).1 v place known⟩
    · exact (places_load two).2 v in_b
  · exact lt_size_of_getElem? (ends.vars v place known).2
  · obtain ⟨meets, at_right⟩ := loaded_b.1.back θ (meets_empty.2 solution)
    obtain ⟨-, at_left⟩ := loaded_a.1.back θ meets
    exact ⟨at_left β (assigns.of_vars (places_load two).1), at_right β assigns⟩
  · obtain ⟨θ, -, meets, assigns⟩ :=
      loaded_a.1.forth (fun _ ↦ default) β (fun _ _ here _ ↦ by simp at here)
      (fun _ _ known ↦ by simp at known) trivial
    obtain ⟨θ', -, meets', assigns'⟩ := loaded_b.1.forth θ β meets assigns trivial
    exact ⟨θ', meets_empty.1 meets', assigns'⟩

namespace Heap.Loading.Holds

variable {D : Type} [Domain D] {state : Loading} {admitted : Functor → Prop} {a b : Term}
  {left right : Nat} {check : OccursCheck} {later : Memory}

/-- After unification the solutions are those of the heap that give both terms one value. -/
theorem solution_unify (holds : state.Holds admitted a b left right)
    (ended : Memory.unify check { heap := state.heap } left right = (.ok true, later))
    {θ : Valuation D} {β : Var → D} (assigns : Assigns state.vars θ β) :
    later.heap.Solution θ ↔ state.heap.Solution θ ∧ a.eval β = b.eval β := by
  rw [Memory.solution_unify ended θ]
  refine and_congr_right fun solution ↦ ?_
  obtain ⟨at_left, at_right⟩ := holds.back θ solution β assigns
  rw [at_left, at_right]

/-- Both ways come to the same answer if the answers have solutions in a domain that decides. -/
theorem unified_eq_isSome (holds : state.Holds admitted a b left right) (decides : check.Decides D)
    {unified : Bool}
    (ended : Memory.unify check { heap := state.heap } left right = (.ok unified, later))
    (on_heap : unified = true → ∃ θ : Valuation D, later.heap.Solution θ)
    (of_terms : ∀ bindings, Bindings.empty.unify check a b = some bindings →
      ∃ β : Var → D, bindings.Solution β) :
    unified = (Bindings.empty.unify check a b).isSome := by
  cases unified with
  | true =>
    obtain ⟨θ, solution⟩ := on_heap rfl
    obtain ⟨β, assigns⟩ := exists_assigns state.vars θ
    have same := ((holds.solution_unify ended assigns).1 solution).2
    cases result : Bindings.empty.unify check a b with
    | some bindings => rfl
    | none =>
      have differ := Bindings.ne_of_unify decides Bindings.linksEnd_empty result
        (Bindings.solution_empty β)
      exact absurd same differ
  | false =>
    cases result : Bindings.empty.unify check a b with
    | none => rfl
    | some bindings =>
      obtain ⟨β, solution⟩ := of_terms bindings result
      have same := ((Bindings.solution_unify Bindings.linksEnd_empty result β).1 solution).2
      obtain ⟨θ, heap_solution, assigns⟩ := holds.forth β
      obtain ⟨at_left, at_right⟩ := holds.back θ heap_solution β assigns
      refine absurd ?_ (Memory.ne_of_unify decides ended heap_solution)
      rw [at_left, at_right, same]

/-- Unification on the heap comes to the answer that unification of the terms comes to. -/
theorem exists_unify (holds : state.Holds admitted a b left right) (check : OccursCheck) :
    ∃ later, Memory.unify check { heap := state.heap } left right =
      (.ok (Bindings.empty.unify check a b).isSome, later) := by
  have solvable : state.heap.Solvable := by
    obtain ⟨θ, solution, -⟩ := holds.forth (D := Term) .var
    exact ⟨θ, solution⟩
  obtain ⟨unified, later, ended⟩ := @Memory.exists_unify _ { heap := state.heap } check
    holds.formed (fun _ ↦ solvable) _ _ holds.inside.1 holds.inside.2
  have binds := Memory.binds_unify ended
  suffices same : unified = (Bindings.empty.unify check a b).isSome by
    exact ⟨later, by rw [← same, ended]⟩
  cases check with
  | off =>
    -- any well-formed heap and any bindings whose links end have trees for solutions
    refine holds.unified_eq_isSome (D := Tree) (fun on ↦ absurd on (by simp)) ended (fun _ ↦ ?_)
      fun bindings result ↦ ?_
    · exact ⟨_, (binds.formed holds.formed).solution_trees id⟩
    · exact ⟨_, Bindings.solution_treeOf
        ((Bindings.extends_unify Bindings.linksEnd_empty result).linksEnd Bindings.linksEnd_empty)⟩
  | on =>
    refine holds.unified_eq_isSome (D := Term) (fun _ ↦ ⟨inferInstance⟩) ended (fun _ ↦ ?_)
      fun bindings result ↦ ?_
    · exact binds.solvable holds.formed solvable
    · obtain ⟨σ, solution, -⟩ :=
        (Bindings.extends_unify Bindings.linksEnd_empty result).solvable Bindings.solvable_empty
      exact ⟨σ, solution⟩

/-- The cells of variables stand for what solves the bindings. -/
theorem trees_iff (holds : state.Holds admitted a b left right)
    (ended : Memory.unify check { heap := state.heap } left right = (.ok true, later))
    {bindings : Bindings} (result : Bindings.empty.unify check a b = some bindings)
    {cells : List (Var × Address)} (at_cells : ∀ cell ∈ cells, state.vars[cell.1]? = some cell.2)
    (trees : List Tree) :
    (∃ θ : Valuation Tree, later.heap.Solution θ ∧ trees = (cells.map Prod.snd).map θ) ↔
      ∃ β : Var → Tree, bindings.Solution β ∧ trees = (cells.map Prod.fst).map β := by
  have values {θ : Valuation Tree} {β : Var → Tree} (assigns : Assigns state.vars θ β) :
      (cells.map Prod.snd).map θ = (cells.map Prod.fst).map β := by
    rw [List.map_map, List.map_map]
    exact List.map_congr_left fun cell member ↦ assigns cell.1 cell.2 (at_cells cell member)
  constructor
  · rintro ⟨θ, solution, rfl⟩
    obtain ⟨β, assigns⟩ := exists_assigns state.vars θ
    have same := ((holds.solution_unify ended assigns).1 solution).2
    exact ⟨β, (Bindings.solution_unify Bindings.linksEnd_empty result β).2
      ⟨Bindings.solution_empty β, same⟩, values assigns⟩
  · rintro ⟨β, solution, rfl⟩
    have same := ((Bindings.solution_unify Bindings.linksEnd_empty result β).1 solution).2
    obtain ⟨θ, heap_solution, assigns⟩ := holds.forth β
    exact ⟨θ, (holds.solution_unify ended assigns).2 ⟨heap_solution, same⟩, (values assigns).symm⟩

end Heap.Loading.Holds

/-- What a read gives that gives a term with its variables renamed, or the fault of a cyclic term,
where substituting bindings does. -/
def renamedRead (ρ : Equiv.Perm Var) : Except CyclicBinding Term → Except Fault Term
  | .ok term => .ok (term.subst fun v ↦ .var (ρ v))
  | .error _ => .error .cyclicTerm

/-- Reads that agree where there are terms are the same if there is but one fault. -/
theorem eq_renamedRead_of_toOption {ρ : Equiv.Perm Var} {result : Except Fault Term}
    {made : Except CyclicBinding Term}
    (agree : result.toOption = made.toOption.map (Term.subst fun v ↦ .var (ρ v)))
    (only : ∀ fault, result = .error fault → fault = .cyclicTerm) :
    result = renamedRead ρ made := by
  cases result with
  | ok term =>
    cases made with
    | ok other => simpa [renamedRead, Except.toOption] using agree
    | error error => simp [Except.toOption] at agree
  | error fault =>
    cases made with
    | ok other => simp [Except.toOption] at agree
    | error error => rw [only fault rfl, renamedRead]

private theorem eq_map_renamedRead {ρ : Equiv.Perm Var} {results : List (Except Fault Term)}
    {mades : List (Except CyclicBinding Term)}
    (agree : results.map Except.toOption =
      (mades.map Except.toOption).map (Option.map (Term.subst fun v ↦ .var (ρ v))))
    (only : ∀ fault, .error fault ∈ results → fault = .cyclicTerm) :
    results = mades.map (renamedRead ρ) := by
  induction mades generalizing results with
  | nil => simpa using agree
  | cons made mades ih =>
    cases results with
    | nil => cases agree
    | cons result results =>
      rw [List.map_cons, List.map_cons, List.map_cons, List.cons.injEq] at agree
      rw [List.map_cons, ← ih agree.2 fun fault later ↦ only fault (List.mem_cons_of_mem _ later),
        ← eq_renamedRead_of_toOption agree.1 fun fault failed ↦
          only fault (failed ▸ List.mem_cons_self)]

/-- Two canonical terms whose structures have at most 255 arguments, put on an empty heap with one
cell for each variable, unify there if and only if they unify as terms. Then, reading the cells of
variables one after another gives the terms that the bindings give the variables, up to one renaming
of unbound variables, and a variable is cyclic in both or in none. -/
theorem unifiers_agree (check : OccursCheck) {a b : Term} (a_canonical : a.Canonical)
    (b_canonical : b.Canonical) (a_fits : a.fits = true) (b_fits : b.fits = true) :
    ∃ left first right second later, ({} : Heap).load a ∅ = (.ok left, first) ∧
      first.heap.load b first.vars = (.ok right, second) ∧
      Memory.unify check { heap := second.heap } left right =
        (.ok (Bindings.empty.unify check a b).isSome, later) ∧
      (∀ v, v ∈ a.occurrences ∨ v ∈ b.occurrences → ∃ place, second.vars[v]? = some place) ∧
      ∀ bindings, Bindings.empty.unify check a b = some bindings →
        ∀ (reserved : List Var) (cells : List (Var × Address)),
          (∀ cell ∈ cells, second.vars[cell.1]? = some cell.2) →
          ∃ ρ : Equiv.Perm Var,
            later.heap.extractEach (cells.map Prod.snd) (.reserving reserved) =
              cells.map fun cell ↦ renamedRead ρ (bindings.apply (.var cell.1)) := by
  obtain ⟨left, first, right, second, one, two, holds⟩ :=
    Heap.exists_load_both a_canonical b_canonical a_fits b_fits
  obtain ⟨later, ended⟩ := holds.exists_unify check
  refine ⟨left, first, right, second, later, one, two, ended, holds.vars, fun bindings result ↦ ?_⟩
  intro reserved cells at_cells
  rw [result, Option.isSome_some] at ended
  have formed := (Memory.binds_unify ended).formed holds.formed
  have inside : ∀ address ∈ cells.map Prod.snd, address < later.heap.size := by
    intro address member
    obtain ⟨cell, among, rfl⟩ := List.mem_map.1 member
    rw [(Memory.binds_unify ended).rebinds.size]
    exact holds.places _ _ (at_cells cell among)
  have proper := VarNames.proper_reserving reserved later.heap
  have links :=
    (Bindings.extends_unify Bindings.linksEnd_empty result).linksEnd Bindings.linksEnd_empty
  have read := Heap.describes_extractEach formed (fun _ kind ↦ kind) inside proper
  have made := Bindings.describes_apply links (cells.map Prod.fst)
  have same := holds.trees_iff ended result at_cells
  rw [funext fun trees ↦ propext (same trees)] at read
  obtain ⟨ρ, agree⟩ := made.variant read
  refine ⟨ρ, ?_⟩
  have shape : (cells.map Prod.fst).map (fun v ↦ (bindings.apply (.var v)).toOption) =
      (cells.map fun cell ↦ bindings.apply (.var cell.1)).map Except.toOption := by
    rw [List.map_map, List.map_map]
    rfl
  rw [shape] at agree
  refine (eq_map_renamedRead agree fun fault failed ↦ ?_).trans List.map_map
  exact Heap.eq_cyclicTerm_of_extractEach formed inside proper failed

/-- Repeated variables that are bound to structures and to one another. -/
theorem unifiers_agree_nested :
    let a : Term := .struct ⟨0⟩ [.var 0, .var 1, .var 0]
    let b : Term := .struct ⟨0⟩ [.struct ⟨1⟩ [.var 1], .struct ⟨2⟩ [.var 2], .var 3]
    (a.Canonical ∧ b.Canonical ∧ a.fits = true ∧ b.fits = true) ∧
      ∃ left first right second later, ({} : Heap).load a ∅ = (.ok left, first) ∧
        first.heap.load b first.vars = (.ok right, second) ∧
        Memory.unify .on { heap := second.heap } left right = (.ok true, later) ∧
        ∃ p q r : Address, second.vars[3]? = some p ∧ second.vars[1]? = some q ∧
          second.vars[2]? = some r ∧ ∃ v : Var, later.heap.extractEach [p, q, r] (.reserving [0]) =
            [.ok (.struct ⟨1⟩ [.struct ⟨2⟩ [.var v]]), .ok (.struct ⟨2⟩ [.var v]),
              .ok (.var v)] := by
  intro a b
  have canonical : a.Canonical ∧ b.Canonical := by
    simp [a, b, Term.Canonical, Term.AllFunctors, Term.AllFunctorsList]
  have fits : a.fits = true ∧ b.fits = true := by decide
  have result : Bindings.empty.unify .on a b = some
      (.ofEntries [(3, .struct ⟨1⟩ [.var 1]), (1, .struct ⟨2⟩ [.var 2]),
        (0, .struct ⟨1⟩ [.var 1])]) := by
    decide +kernel
  refine ⟨⟨canonical.1, canonical.2, fits.1, fits.2⟩, ?_⟩
  obtain ⟨left, first, right, second, later, one, two, ended, cells, reads⟩ :=
    unifiers_agree .on canonical.1 canonical.2 fits.1 fits.2
  rw [result] at ended
  obtain ⟨p, at_p⟩ := cells 3 (by simp [b])
  obtain ⟨q, at_q⟩ := cells 1 (by simp [a])
  obtain ⟨r, at_r⟩ := cells 2 (by simp [b])
  obtain ⟨ρ, read⟩ := reads _ result [0] [(3, p), (1, q), (2, r)] (by simp [at_p, at_q, at_r])
  refine ⟨left, first, right, second, later, one, two, ended, p, q, r, at_p, at_q, at_r, ρ 2, ?_⟩
  have made : [3, 1, 2].map (fun v ↦ (Bindings.ofEntries [(3, .struct ⟨1⟩ [.var 1]),
      (1, .struct ⟨2⟩ [.var 2]), (0, .struct ⟨1⟩ [.var 1])]).apply (.var v)) =
      [.ok (.struct ⟨1⟩ [.struct ⟨2⟩ [.var 2]]), .ok (.struct ⟨2⟩ [.var 2]), .ok (.var 2)] := by
    decide +kernel
  have renamed := congrArg (List.map (renamedRead ρ)) made
  simpa [renamedRead] using read.trans renamed

end HornMachine
