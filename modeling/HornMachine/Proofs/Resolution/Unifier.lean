import HornMachine.Proofs.Bindings.MostGeneral

/-!
# Most general unifiers as substitutions

Unification under the occurs check, starting without bindings, gives a substitution. Main
statements: it is a most general unifier, it is found if there is any unifier, and for canonical
terms what it substitutes is canonical.
-/

namespace HornMachine

/-- What bindings substitute for a variable. -/
def Bindings.substitution (bindings : Bindings) (v : Var) : Term :=
  match bindings.apply (.var v) with
  | .ok term => term
  | .error _ => .var v

namespace Term

/-- The most general unifier of two lists of terms, if they can be unified position by position. -/
def mgu? (left right : List Term) : Option (Var → Term) :=
  (Bindings.empty.unify .on (.struct ⟨0⟩ left) (.struct ⟨0⟩ right)).map Bindings.substitution

/-- A substitution makes two lists of terms equal, and every substitution that does is an instance
of it. -/
structure MostGeneral (left right : List Term) (σ : Var → Term) : Prop where
  unifies : left.map (subst σ) = right.map (subst σ)
  general : ∀ τ, left.map (subst τ) = right.map (subst τ) → ∀ v, (σ v).subst τ = τ v

variable {left right : List Term}

private theorem unifier_empty_iff {τ : Var → Term} :
    Bindings.Unifier .empty (.struct ⟨0⟩ left) (.struct ⟨0⟩ right) τ ↔
      left.map (subst τ) = right.map (subst τ) := by
  constructor
  · intro unifier
    simpa using unifier.same
  · intro same
    refine ⟨fun v term found ↦ ?_, by simpa using same⟩
    rw [Bindings.lookup?_eq] at found
    cases found

private theorem acyclic_empty : Bindings.empty.Acyclic := by
  intro v cycle
  obtain ⟨_, ⟨term, found, -⟩, -⟩ := Relation.TransGen.head'_iff.1 cycle
  rw [Bindings.lookup?_eq] at found
  cases found

/-- What bindings substitute in a term is what they substitute for its variables. -/
theorem eq_subst_substitution {bindings : Bindings} (acyclic : bindings.Acyclic)
    {term result : Term}
    (ended : bindings.apply term = .ok result) : result = term.subst bindings.substitution := by
  obtain ⟨σ, solution, own⟩ := acyclic.solvable
  have whole {term result : Term} (ended : bindings.apply term = .ok result) :
    result = term.subst σ := by
    have substituted := Bindings.substituted_apply ended
    have same := substituted.eval σ solution
    rw [eval_eq_subst, eval_eq_subst] at same
    rw [← same]
    exact result.subst_self.symm.trans (subst_congr fun v occurs ↦
      (own v (substituted.unbound v occurs)).symm)
  rw [whole ended]
  refine subst_congr fun v _ ↦ ?_
  obtain ⟨image, made⟩ := acyclic.exists_apply (.var v)
  rw [Bindings.substitution, made, whole made, subst_var]

/-- What is found is a most general unifier. -/
theorem mostGeneral_of_mgu? {σ : Var → Term} (found : mgu? left right = some σ) :
    MostGeneral left right σ := by
  obtain ⟨later, ended, rfl⟩ := Option.map_eq_some_iff.1 found
  obtain ⟨-, -, finds⟩ :=
    Bindings.unify_mostGeneral acyclic_empty (.struct ⟨0⟩ left) (.struct ⟨0⟩ right)
  obtain ⟨-, acyclic, ⟨result, first, second⟩, general⟩ := finds later ended
  refine ⟨?_, fun τ unifies v ↦ ?_⟩
  · have same :=
      (eq_subst_substitution acyclic first).symm.trans (eq_subst_substitution acyclic second)
    simpa using same
  · obtain ⟨image, made, same⟩ := general τ (unifier_empty_iff.2 unifies) (.var v)
    rw [Bindings.substitution, made]
    exact same.symm

/-- If none is found there is no unifier. -/
theorem ne_of_mgu?_eq_none (missed : mgu? left right = none) (τ : Var → Term) :
    left.map (subst τ) ≠ right.map (subst τ) := by
  intro unifies
  obtain ⟨-, finds, -⟩ :=
    Bindings.unify_mostGeneral acyclic_empty (.struct ⟨0⟩ left) (.struct ⟨0⟩ right)
  have found := finds.2 ⟨τ, unifier_empty_iff.2 unifies⟩
  rw [Option.map_eq_none_iff.1 missed] at found
  cases found

/-! ### Canonical terms -/

/-- A term is canonical if putting terms for its variables can replace its structures without
arguments by atoms. -/
theorem canonical_of_collapse_eq_subst {term : Term} {τ : Var → Term}
    (same : term.collapse = term.subst τ) :
    term.Canonical := by
  induction term with
  | atom | num | var => trivial
  | struct symbol args ih =>
    cases args with
    | nil =>
      rw [collapse_struct] at same
      simp [apply] at same
    | cons arg args =>
      simp only [collapse_struct, List.map_cons, apply, subst_struct, struct.injEq,
        true_and] at same
      refine allFunctors_struct.2 ⟨Nat.succ_pos _, fun inner member ↦ ih inner member ?_⟩
      exact List.map_inj_left.1 (show (arg :: args).map collapse =
        (arg :: args).map (subst τ) from same)
        inner member

/-- A most general unifier of canonical terms puts canonical terms for variables. -/
theorem MostGeneral.canonical {σ : Var → Term} (mostGeneral : MostGeneral left right σ)
    (left_canonical : ∀ term ∈ left, term.Canonical)
    (right_canonical : ∀ term ∈ right, term.Canonical) (v : Var) : (σ v).Canonical := by
  have collapsed {terms : List Term} (canonical : ∀ term ∈ terms, term.Canonical) :
      terms.map (subst fun v ↦ (σ v).collapse) = (terms.map (subst σ)).map collapse := by
    rw [List.map_map]
    refine List.map_congr_left fun term member ↦ ?_
    rw [Function.comp_apply, collapse_subst, (canonical term member).collapse]
  refine canonical_of_collapse_eq_subst (mostGeneral.general (fun v ↦ (σ v).collapse) ?_ v).symm
  rw [collapsed left_canonical, collapsed right_canonical, mostGeneral.unifies]

end Term
end HornMachine
