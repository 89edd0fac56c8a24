import HornMachine.Proofs.Bindings.Termination

/-!
# What unification of terms decides

Under the occurs check a unification looks for a substitution that makes two terms equal and agrees
with the bindings, and what it adds to the bindings is the most general one. Without the check it
asks whether the terms can be taken for equal: whether some relation says so that never relates what
is visibly different. Main statements: `unify_mostGeneral` and `unify_isSome_iff_alike`.
-/

namespace HornMachine

/-! ### Relations that tell nothing apart -/

namespace Term

/-- An equivalence of terms that are alike: related structures have one name and related arguments,
and atoms, numbers and structures are related to their own kind only, atoms and numbers to
themselves. -/
structure Alike (related : Term → Term → Prop) : Prop where
  equivalence : Equivalence related
  struct {f g : Symbol} {xs ys : List Term} : related (.struct f xs) (.struct g ys) →
    f = g ∧ List.Forall₂ related xs ys
  atom {p q : Symbol} : related (.atom p) (.atom q) → p = q
  num {m n : Int} : related (.num m) (.num n) → m = n
  atom_num {p : Symbol} {n : Int} : ¬related (.atom p) (.num n)
  atom_struct {p f : Symbol} {xs : List Term} : ¬related (.atom p) (.struct f xs)
  num_struct {n : Int} {f : Symbol} {xs : List Term} : ¬related (.num n) (.struct f xs)

/-- Terms with equal values are alike. -/
theorem alike_eval {D : Type} [Domain D] (β : Var → D) : Alike fun a b ↦ a.eval β = b.eval β where
  equivalence := ⟨fun _ ↦ rfl, Eq.symm, Eq.trans⟩
  struct same := by
    rw [eval_struct, eval_struct, Domain.struct_inj] at same
    exact ⟨same.1, forall₂_of_map_eq same.2 fun _ _ _ _ ↦ id⟩
  atom same := by simpa using same
  num same := by simpa using same
  atom_num same := by simp at same
  atom_struct same := by simp at same
  num_struct same := by simp at same

open Classical in
/-- What is seen of the terms of a class: an atom, number or structure that is among them, else a
variable. -/
noncomputable def seenIn (members : Term → Prop) : Tree.View Term :=
  if atom : ∃ symbol, members (.atom symbol) then .atom atom.choose
  else if num : ∃ value, members (.num value) then .num num.choose
  else if struct : ∃ pair : Symbol × List Term, members (.struct pair.1 pair.2) then
    .struct struct.choose.1 struct.choose.2
  else if var : ∃ v, members (.var v) then .var var.choose
  else .var 0

namespace Alike

variable {related : Term → Term → Prop} (alike : Alike related)

include alike

/-- Related terms have one class, and so unfold to one tree. -/
theorem unfold_eq_of_related {a b : Term} (pair : related a b) :
    Tree.unfold (fun term ↦ seenIn (related term)) a =
      Tree.unfold (fun term ↦ seenIn (related term)) b := by
  have same : related a = related b := funext fun other ↦ propext
    ⟨alike.equivalence.trans (alike.equivalence.symm pair), alike.equivalence.trans pair⟩
  rw [Tree.unfold_eq, Tree.unfold_eq, same]

/-- Every term unfolds to what it is when variables stand for what they unfold to. -/
theorem unfold_eq_eval (term : Term) : Tree.unfold (fun term ↦ seenIn (related term)) term =
    term.eval fun v ↦ Tree.unfold (fun term ↦ seenIn (related term)) (.var v) := by
  induction term with
  | var v => rw [eval_var]
  | atom symbol =>
    have seen : ∃ other, related (.atom symbol) (.atom other) := ⟨symbol, alike.equivalence.refl _⟩
    have here : seenIn (related (.atom symbol)) = .atom symbol := by
      rw [seenIn, dif_pos seen, ← alike.atom seen.choose_spec]
    rw [Tree.unfold_eq, here, eval_atom]
  | num value =>
    have seen : ∃ other, related (.num value) (.num other) := ⟨value, alike.equivalence.refl _⟩
    have here : seenIn (related (.num value)) = .num value := by
      rw [seenIn, dif_neg, dif_pos seen, ← alike.num seen.choose_spec]
      rintro ⟨symbol, pair⟩
      exact alike.atom_num (alike.equivalence.symm pair)
    rw [Tree.unfold_eq, here, eval_num]
  | struct symbol args ih =>
    have seen : ∃ pair : Symbol × List Term,
      related (.struct symbol args) (.struct pair.1 pair.2) :=
      ⟨(symbol, args), alike.equivalence.refl _⟩
    obtain ⟨others, here, below⟩ : ∃ others, seenIn (related (.struct symbol args)) =
      .struct symbol others ∧
        List.Forall₂ related args others := by
      obtain ⟨name, below⟩ := alike.struct seen.choose_spec
      refine ⟨seen.choose.2, ?_, below⟩
      rw [seenIn, dif_neg, dif_neg, dif_pos seen, ← name]
      · rintro ⟨value, pair⟩
        exact alike.num_struct (alike.equivalence.symm pair)
      · rintro ⟨other, pair⟩
        exact alike.atom_struct (alike.equivalence.symm pair)
    rw [Tree.unfold_eq, here, eval_struct]
    refine congrArg (Domain.struct symbol) ?_
    rw [← List.map_congr_left ih]
    symm
    rw [← List.forall₂_eq_eq_eq, List.forall₂_map_left_iff, List.forall₂_map_right_iff]
    exact below.imp fun _ _ ↦ alike.unfold_eq_of_related

/-- Variables can be given trees so that related terms have one value. -/
theorem exists_eval : ∃ β : Var → Tree, ∀ a b, related a b → a.eval β = b.eval β := by
  refine ⟨fun v ↦ Tree.unfold (fun term ↦ seenIn (related term)) (.var v), fun a b pair ↦ ?_⟩
  rw [← alike.unfold_eq_eval, ← alike.unfold_eq_eval, alike.unfold_eq_of_related pair]

end Alike
end Term

namespace Bindings

variable {check : OccursCheck} {bindings later : Bindings} {a b : Term}

/-! ### Bindings kept -/

/-- Bindings made on the way stand before the older ones. -/
theorem Extends.exists_entries (grown : Extends check bindings later) :
    ∃ made, later.entries = made ++ bindings.entries := by
  induction grown with
  | refl => exact ⟨[], rfl⟩
  | @step middle _ v term _ ih =>
    obtain ⟨made, entries⟩ := ih
    exact ⟨(v, term) :: made, congrArg ((v, term) :: ·) entries⟩

/-- No binding is changed. -/
theorem Extends.lookup? (grown : Extends check bindings later) {v : Var} {term : Term}
    (found : bindings.lookup? v = some term) : later.lookup? v = some term := by
  induction grown with
  | refl => exact found
  | step _ admissible ih =>
    rw [lookup?_bind, if_neg, ih]
    rintro rfl
    exact absurd (ih.symm.trans admissible.unbound) nofun

/-! ### With the occurs check -/

/-- A substitution that makes two terms equal and gives every bound variable what its term
becomes. -/
structure Unifier (bindings : Bindings) (a b : Term) (σ : Var → Term) : Prop where
  agrees : ∀ v term, bindings.lookup? v = some term → σ v = term.subst σ
  same : a.subst σ = b.subst σ

private theorem unifier_iff {σ : Var → Term} :
    Unifier bindings a b σ ↔ bindings.Solution σ ∧ a.eval σ = b.eval σ := by
  simp only [Solution, Term.eval_eq_subst]
  exact ⟨fun ⟨agrees, same⟩ ↦ ⟨agrees, same⟩, fun ⟨agrees, same⟩ ↦ ⟨agrees, same⟩⟩

/-- Under the occurs check, unification of terms with acyclic bindings ends, and succeeds if there
is a unifier. The bindings it leaves extend the former ones and are acyclic again; they make the
terms equal, and every unifier is an instance of what they substitute. -/
theorem unify_mostGeneral (acyclic : bindings.Acyclic) (a b : Term) :
    Terminates .on bindings a b ∧
    ((bindings.unify .on a b).isSome = true ↔ ∃ σ, Unifier bindings a b σ) ∧
    ∀ later, bindings.unify .on a b = some later →
      ((∃ made, later.entries = made ++ bindings.entries) ∧
        ∀ v term, bindings.lookup? v = some term → later.lookup? v = some term) ∧
      later.Acyclic ∧
      (∃ result, later.apply a = .ok result ∧ later.apply b = .ok result) ∧
      ∀ σ, Unifier bindings a b σ → ∀ term, ∃ result, later.apply term = .ok result ∧
        term.subst σ = result.subst σ := by
  have ends := acyclic.linksEnd
  refine ⟨acyclic.terminates a b, ?_, fun later ended ↦ ?_⟩
  · constructor
    · intro succeeds
      obtain ⟨later, ended⟩ := Option.isSome_iff_exists.1 succeeds
      obtain ⟨σ, solution, -⟩ := (extends_unify ends ended).solvable acyclic.solvable
      exact ⟨σ, unifier_iff.2 ((solution_unify ends ended σ).1 solution)⟩
    · rintro ⟨σ, unifier⟩
      obtain ⟨solution, same⟩ := unifier_iff.1 unifier
      rw [Option.isSome_iff_ne_none]
      exact fun failed ↦ ne_of_unify (fun _ ↦ ⟨inferInstance⟩) ends failed solution same
  · have grown := extends_unify ends ended
    have later_acyclic := acyclic.extends grown
    obtain ⟨left, at_left⟩ := later_acyclic.exists_apply a
    obtain ⟨right, at_right⟩ := later_acyclic.exists_apply b
    refine ⟨⟨grown.exists_entries, fun v term ↦ grown.lookup?⟩, later_acyclic, ⟨left, at_left, ?_⟩,
      fun σ unifier term ↦ ?_⟩
    · -- the most general solution of the bindings leaves unbound variables as they are
      obtain ⟨σ, solution, own⟩ := later_acyclic.solvable
      have whole {term result : Term} (substituted : later.Substituted term result) :
          result = term.eval σ := by
        rw [← substituted.eval σ solution, Term.eval_eq_subst]
        exact (result.subst_self.symm.trans <| Term.subst_congr fun v occurs ↦
          (own v (substituted.unbound v occurs)).symm)
      rw [at_right, whole (substituted_apply at_left), whole (substituted_apply at_right),
        ((solution_unify ends ended σ).1 solution).2]
    · have solution := (solution_unify ends ended σ).2 (unifier_iff.1 unifier)
      obtain ⟨result, made⟩ := later_acyclic.exists_apply term
      have same := (substituted_apply made).eval σ solution
      rw [Term.eval_eq_subst, Term.eval_eq_subst] at same
      exact ⟨result, made, same.symm⟩

/-- The bindings of `X` to `f(Y)`. -/
def oneLink : Bindings := ofEntries [(0, .struct ⟨0⟩ [.var 1])]

private theorem lookup?_oneLink {v : Var} {term : Term} (found : oneLink.lookup? v = some term) :
    v = 0 ∧ term = .struct ⟨0⟩ [.var 1] := by
  rw [lookup?_eq, oneLink, ofEntries, List.lookup_cons] at found
  cases same : v == 0 with
  | false =>
    rw [same] at found
    cases found
  | true =>
    rw [same] at found
    cases found
    exact ⟨by simpa using same, rfl⟩

theorem acyclic_oneLink : oneLink.Acyclic := by
  have below {v w : Var} (mentions : oneLink.Mentions v w) : v < w := by
    obtain ⟨term, found, occurs⟩ := mentions
    obtain ⟨rfl, rfl⟩ := lookup?_oneLink found
    have second : w = 1 := by simpa [Term.mem_occurrences_struct] using occurs
    exact second ▸ Nat.zero_lt_one
  intro v cycle
  have less {w : Var} (path : Relation.TransGen oneLink.Mentions v w) : v < w := by
    induction path with
    | single mentions => exact below mentions
    | tail _ mentions ih => exact Nat.lt_trans ih (below mentions)
  exact Nat.lt_irrefl v (less cycle)

/-- With `X` bound to `f(Y)`, `X` and `f(f(Z))` have a unifier, and unification finds one. -/
theorem unify_mostGeneral_oneLink : oneLink.Acyclic ∧
    Terminates .on oneLink (.var 0) (.struct ⟨0⟩ [.struct ⟨0⟩ [.var 2]]) ∧
    (oneLink.unify .on (.var 0) (.struct ⟨0⟩ [.struct ⟨0⟩ [.var 2]])).isSome = true := by
  obtain ⟨terminates, succeeds, -⟩ :=
    unify_mostGeneral acyclic_oneLink (.var 0) (.struct ⟨0⟩ [.struct ⟨0⟩ [.var 2]])
  refine ⟨acyclic_oneLink, terminates, succeeds.2 ⟨fun v ↦ match v with
    | 0 => .struct ⟨0⟩ [.struct ⟨0⟩ [.var 2]]
    | 1 => .struct ⟨0⟩ [.var 2]
    | v => .var v, ?_, by simp⟩⟩
  intro v term found
  obtain ⟨rfl, rfl⟩ := lookup?_oneLink found
  simp

/-! ### Without the occurs check -/

/-- Without the occurs check, unification of terms ends where chains of variables bound to variables
do, and they still end afterwards. It succeeds if some relation of terms that are alike relates the
two terms and each bound variable to its term. -/
theorem unify_isSome_iff_alike (ends : WellFounded bindings.Linked) (a b : Term) :
    Terminates .off bindings a b ∧
    ((bindings.unify .off a b).isSome = true ↔ ∃ related, Term.Alike related ∧ related a b ∧
      ∀ v term, bindings.lookup? v = some term → related (.var v) term) ∧
    ∀ later, bindings.unify .off a b = some later → WellFounded later.Linked := by
  refine ⟨terminates_off ends a b, ?_, fun later ended ↦ (extends_unify ends ended).linksEnd ends⟩
  constructor
  · intro succeeds
    obtain ⟨later, ended⟩ := Option.isSome_iff_exists.1 succeeds
    have solution := solution_treeOf ((extends_unify ends ended).linksEnd ends)
    obtain ⟨before, same⟩ := (solution_unify ends ended later.treeOf).1 solution
    exact ⟨_, Term.alike_eval later.treeOf, same, fun v term found ↦
      (Term.eval_var _ _).trans (before v term found)⟩
  · rintro ⟨related, alike, pair, bound⟩
    obtain ⟨β, equal⟩ := alike.exists_eval
    rw [Option.isSome_iff_ne_none]
    have decides : OccursCheck.Decides .off Tree := fun on ↦ OccursCheck.noConfusion on
    refine fun failed ↦ ne_of_unify decides ends failed (fun v term found ↦ ?_) (equal a b pair)
    rw [← equal _ _ (bound v term found), Term.eval_var]

/-- The bindings of `X` to `f(X)` and of `Y` to `f(Y)`. -/
def twoCycles : Bindings := ofEntries [(0, .struct ⟨0⟩ [.var 0]), (1, .struct ⟨0⟩ [.var 1])]

private theorem lookup?_twoCycles {v : Var} {term : Term}
    (found : twoCycles.lookup? v = some term) :
    term = .struct ⟨0⟩ [.var v] := by
  rw [lookup?_eq, twoCycles, ofEntries, List.lookup_cons, List.lookup_cons] at found
  cases first : v == 0 with
  | true =>
    rw [first] at found
    cases found
    rw [show v = 0 by simpa using first]
  | false =>
    cases second : v == 1 with
    | true =>
      rw [first, second] at found
      cases found
      rw [show v = 1 by simpa using second]
    | false =>
      rw [first, second] at found
      cases found

private theorem linksEnd_twoCycles : WellFounded twoCycles.Linked :=
  ⟨fun v ↦ .intro v fun _ linked ↦ absurd (lookup?_twoCycles linked) nofun⟩

/-- The tree that holds itself under `f`. -/
def endless : Tree := .unfold (fun _ : Unit ↦ .struct ⟨0⟩ [()]) ()

/-- Two variables bound to structures that contain them are alike, and unification finds no
difference. -/
theorem unify_isSome_twoCycles : WellFounded twoCycles.Linked ∧
    Terminates .off twoCycles (.var 0) (.var 1) ∧
    (twoCycles.unify .off (.var 0) (.var 1)).isSome = true := by
  obtain ⟨terminates, decides, -⟩ := unify_isSome_iff_alike linksEnd_twoCycles (.var 0) (.var 1)
  refine ⟨linksEnd_twoCycles, terminates, decides.2 ⟨_, Term.alike_eval fun _ ↦ endless, ?_, ?_⟩⟩
  · rw [Term.eval_var, Term.eval_var]
  · intro v term found
    rw [lookup?_twoCycles found, Term.eval_var, Term.eval_struct, List.map_singleton, Term.eval_var]
    exact Tree.unfold_eq (fun _ : Unit ↦ Tree.View.struct ⟨0⟩ [()]) ()

end Bindings
end HornMachine
