import HornMachine.Proofs.Term.Tree
import Mathlib.Data.Fintype.Sum
import Mathlib.GroupTheory.Perm.Finite

/-!
# Terms that show what solutions have in common

Equations between terms and variables are solved by trees. Terms show what the solutions have in
common if every solution is an instance of them, if they are themselves a solution with their
variables as leaves, and if a term is missing only where no solution is finite. Main statement: what
shows the same solutions is the same up to a renaming of variables (`Describes.variant`).
-/

namespace HornMachine

/-! ### Instances -/

/-- The terms of the trees that are finite. -/
noncomputable def finiteTerms (β : Var → Tree) (v : Var) : Term :=
  open Classical in if finite : ∃ term : Term, term.tree = β v then finite.choose else .var v

/-- A term that has the tree of another one with trees for its variables is an instance of it. -/
theorem Term.eq_subst_of_tree_eq {β : Var → Tree} {term other : Term}
    (same : other.tree = term.eval β) : other = term.subst (finiteTerms β) := by
  apply Term.tree_injective
  rw [same, Term.tree, Term.eval_subst]
  apply Term.eval_congr
  intro v occurs
  have finite : ∃ term : Term, term.tree = β v :=
    (Term.size_of_mem_occurrences Tree.sizes occurs ⟨other, same⟩).1
  rw [finiteTerms, dif_pos finite]
  exact finite.choose_spec.symm

/-- An injective renaming of finitely many variables extends to one of all variables. -/
theorem exists_perm_of_injOn {vars : Finset Var} {ρ : Var → Var} (injective : Set.InjOn ρ vars) :
    ∃ π : Equiv.Perm Var, ∀ v ∈ vars, π v = ρ v := by
  let all := vars ∪ vars.image ρ
  let inner : Finset all := Finset.univ.filter fun v ↦ v.1 ∈ vars
  obtain ⟨g, agrees⟩ :=
    @Finset.exists_equiv_extend_of_card_eq all Var _ _ all (Fintype.card_coe all)
    inner (fun v ↦ ρ v.1) (by
      intro w member
      obtain ⟨v, inside, rfl⟩ := Finset.mem_image.1 member
      exact Finset.mem_union_right _ (Finset.mem_image_of_mem ρ (Finset.mem_filter.1 inside).2)) (by
      intro v v_inside w w_inside same
      exact Subtype.ext (injective (Finset.mem_filter.1 v_inside).2
        (Finset.mem_filter.1 w_inside).2 same))
  refine ⟨Equiv.Perm.ofSubtype g, fun v member ↦ ?_⟩
  have inside : v ∈ all := Finset.mem_union_left _ member
  rw [Equiv.Perm.ofSubtype_apply_of_mem g inside]
  exact agrees ⟨v, inside⟩ (Finset.mem_filter.2 ⟨Finset.mem_univ _, member⟩)

/-- The variable that a term is, or another one if it is none. -/
def Term.varOr (other : Var) : Term → Var
  | .var v => v
  | .atom _ | .num _ | .struct _ _ => other

/-- Terms that are instances of one another by the same substitutions differ by a renaming. -/
theorem exists_renaming {terms others : List (Option Term)} {σ τ : Var → Term}
    (forth : others = terms.map (Option.map (Term.subst σ)))
    (back : terms = others.map (Option.map (Term.subst τ))) :
    ∃ ρ : Equiv.Perm Var, others = terms.map (Option.map (Term.subst fun v ↦ .var (ρ v))) := by
  let vars := (terms.flatMap fun result ↦ (result.map Term.occurrences).getD []).toFinset
  have mem_vars {term : Term} (member : some term ∈ terms) {v : Var}
    (occurs : v ∈ term.occurrences) :
      v ∈ vars :=
    List.mem_toFinset.2 (List.mem_flatMap.2 ⟨some term, member, occurs⟩)
  have returns : ∀ v ∈ vars, (σ v).subst τ = .var v := by
    intro v inside
    obtain ⟨result, member, occurs⟩ := List.mem_flatMap.1 (List.mem_toFinset.1 inside)
    cases result with
    | none => simp at occurs
    | some term =>
      have there : terms.map (Option.map fun term ↦ (term.subst σ).subst τ) = terms.map id := by
        rw [List.map_id]
        conv_rhs => rw [back, forth]
        simp [Function.comp_def]
      have same := List.map_inj_left.1 there (some term) member
      simp only [Option.map_some, id_eq, Option.some.injEq, Term.subst_subst] at same
      exact Term.subst_eq_subst_iff.1 (same.trans term.subst_self.symm) v occurs
  let ρ (v : Var) : Var := (σ v).varOr v
  have renames : ∀ v ∈ vars, σ v = .var (ρ v) := by
    intro v inside
    have same := returns v inside
    simp only [ρ]
    cases image : σ v with
    | var w => rfl
    | atom _ | num _ | struct _ _ =>
      rw [image] at same
      simp at same
  have injective : Set.InjOn ρ vars := by
    intro v v_inside w w_inside same
    have first := returns v v_inside
    rw [renames v v_inside, same, ← renames w w_inside, returns w w_inside] at first
    exact (Term.var.inj first).symm
  obtain ⟨π, agrees⟩ := exists_perm_of_injOn injective
  refine ⟨π, forth.trans (List.map_congr_left fun result member ↦ ?_)⟩
  cases result with
  | none => rfl
  | some term =>
    refine congrArg some (Term.subst_congr fun v occurs ↦ ?_)
    rw [renames v (mem_vars member occurs), agrees v (mem_vars member occurs)]

/-! ### Descriptions -/

/-- Terms, with nothing where no solution is finite, that all solutions are instances of. -/
structure Describes (solutions : List Tree → Prop) (read : List (Option Term)) : Prop where
  instances : ∀ trees, solutions trees → ∃ β : Var → Tree,
    List.Forall₂ (fun tree result ↦ ∀ term, result = some term → tree = term.eval β) trees read
  generic : ∃ trees, solutions trees ∧
    List.Forall₂ (fun tree result ↦ ∀ term, result = some term → tree = term.tree) trees read
  infinite : ∀ trees, solutions trees →
    List.Forall₂ (fun tree result ↦ result = none → ∀ term : Term, tree ≠ term.tree) trees read

namespace Describes

variable {solutions : List Tree → Prop} {read other : List (Option Term)}

/-- Two descriptions have terms in the same places, those of the second with trees for variables of
the first. -/
theorem exists_eval (one : Describes solutions read) (two : Describes solutions other) :
    ∃ β : Var → Tree, List.Forall₂ (fun result result' ↦ (result = none ↔ result' = none) ∧
      ∀ term term', result = some term → result' = some term' →
        term'.tree = term.eval β) read other := by
  obtain ⟨trees, solved, own⟩ := two.generic
  obtain ⟨β, instances⟩ := one.instances trees solved
  obtain ⟨trees', solved', own'⟩ := one.generic
  have missing := one.infinite trees solved
  have missing' := two.infinite trees' solved'
  refine ⟨β, ?_⟩
  rw [List.forall₂_iff_get] at own own' instances missing missing' ⊢
  have lengths : read.length = other.length := instances.1.symm.trans own.1
  refine ⟨lengths, fun i inside inside' ↦ ⟨⟨fun none ↦ ?_, fun none ↦ ?_⟩,
    fun term term' here there ↦ ?_⟩⟩
  · rw [← Option.not_isSome_iff_eq_none, Option.isSome_iff_exists]
    rintro ⟨term, found⟩
    exact missing.2 i (by omega) inside none term (own.2 i (by omega) inside' term found)
  · rw [← Option.not_isSome_iff_eq_none, Option.isSome_iff_exists]
    rintro ⟨term, found⟩
    have inside_trees : i < trees'.length := by
      rw [own'.1]
      exact inside
    exact missing'.2 i inside_trees inside' none term (own'.2 i inside_trees inside term found)
  · have tree := own.2 i (by omega) inside' term' there
    rw [← tree]
    exact instances.2 i (by omega) inside term here

/-- Two descriptions are instances of one another. -/
theorem exists_subst (one : Describes solutions read) (two : Describes solutions other) :
    ∃ σ : Var → Term, other = read.map (Option.map (Term.subst σ)) := by
  obtain ⟨β, related⟩ := one.exists_eval two
  refine ⟨finiteTerms β, ?_⟩
  clear one two
  induction related with
  | nil => rfl
  | @cons result result' _ _ here _ ih =>
    rw [List.map_cons, ← ih]
    congr 1
    cases result with
    | none => exact here.1.1 rfl
    | some term =>
      cases result' with
      | none => exact absurd (here.1.2 rfl) (Option.some_ne_none term)
      | some term' => exact congrArg some (Term.eq_subst_of_tree_eq (here.2 term term' rfl rfl))

/-- Descriptions of the same solutions are the same up to a renaming of variables. -/
theorem variant (one : Describes solutions read) (two : Describes solutions other) :
    ∃ ρ : Equiv.Perm Var, other = read.map (Option.map (Term.subst fun v ↦ .var (ρ v))) := by
  obtain ⟨σ, forth⟩ := one.exists_subst two
  obtain ⟨τ, back⟩ := two.exists_subst one
  exact exists_renaming forth back

end Describes
end HornMachine
