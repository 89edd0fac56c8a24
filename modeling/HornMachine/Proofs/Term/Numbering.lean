import HornMachine.Proofs.Term.Variant

/-!
# Terms with numbered variables

The variables of a term are numbered from zero in the order of their first occurrences. Where
several terms are numbered each by itself, one number may stand for different variables, and one
variable may get different numbers. Terms are aligned if that does not happen: of any two of them,
one has the variables of the other first. Main statements: numbered each by itself, the arguments of
a goal give the goal up to a renaming of variables exactly if they are aligned
(`exists_perm_iff_aligned`), and exactly then all ground instances of the goal are instances of what
they give (`forall_instance_iff_aligned`).
-/

namespace HornMachine.Term

/-- The term with its variables numbered in the order of their first occurrences. -/
def numbered (term : Term) : Term := term.subst fun v ↦ .var (term.vars.idxOf v)

/-- Of any two terms, one has the variables of the other first, in the same order. -/
def Aligned (terms : List Term) : Prop :=
  terms.Pairwise fun term other ↦ term.vars <+: other.vars ∨ other.vars <+: term.vars

theorem mem_vars {term : Term} {v : Var} : v ∈ term.vars ↔ v ∈ term.occurrences := mem_distinct

private theorem nodup_vars (term : Term) : term.vars.Nodup := nodup_distinct _

theorem numbered_var (v : Var) : (Term.var v).numbered = .var 0 := by
  simp [numbered, vars, distinct_eq_eraseDups, occurrences, List.eraseDups_cons]

/-! ### Renamed variables -/

theorem occurrences_rename (ρ : Var → Var) (term : Term) :
    (term.subst fun v ↦ .var (ρ v)).occurrences = term.occurrences.map ρ := by
  induction term with
  | var v => simp [occurrences]
  | atom | num => simp
  | struct symbol args ih =>
    simp only [subst_struct, occurrences, occurrencesList_eq_flatMap, List.flatMap_map,
      List.map_flatMap]
    exact List.flatMap_congr fun arg member ↦ ih arg member

theorem eraseDups_map_of_injOn {list : List Var} {ρ : Var → Var}
    (injective : Set.InjOn ρ {v | v ∈ list}) :
    (list.map ρ).eraseDups = list.eraseDups.map ρ := by
  induction list using List.reverseRecOn with
  | nil => rfl
  | append_singleton list last ih =>
    have before : Set.InjOn ρ {v | v ∈ list} :=
      injective.mono fun v member ↦ List.mem_append_left _ member
    have old : ρ last ∈ list.map ρ ↔ last ∈ list := by
      refine ⟨fun member ↦ ?_, List.mem_map_of_mem⟩
      obtain ⟨v, inside, same⟩ := List.mem_map.1 member
      exact injective (List.mem_append_left _ inside) (by simp) same ▸ inside
    rw [List.map_append, List.map_singleton, eraseDups_concat, eraseDups_concat, ih before,
      List.map_append]
    by_cases inside : last ∈ list <;> simp [old, inside]

private theorem vars_rename {ρ : Var → Var} {term : Term}
    (injective : Set.InjOn ρ {v | v ∈ term.vars}) :
    (term.subst fun v ↦ .var (ρ v)).vars = term.vars.map ρ := by
  have occurring : Set.InjOn ρ {v | v ∈ term.occurrences} :=
    injective.mono fun v occurs ↦ mem_vars.2 occurs
  rw [vars, vars, distinct_eq_eraseDups, distinct_eq_eraseDups, occurrences_rename,
    eraseDups_map_of_injOn occurring]

/-- A term whose variables are numbers in order is the numbered term of all its renamings. -/
theorem numbered_rename {term : Term} {count : Nat} (order : term.vars = List.range count)
    {ρ : Var → Var} (injective : Set.InjOn ρ {v | v ∈ term.vars}) :
    (term.subst fun v ↦ .var (ρ v)).numbered = term := by
  have renamed := vars_rename injective
  rw [numbered, renamed, subst_subst]
  refine (subst_congr fun v occurs ↦ ?_).trans term.subst_self
  have member := mem_vars.2 occurs
  have nodup : (term.vars.map ρ).Nodup := renamed ▸ nodup_vars _
  have below : v < (term.vars.map ρ).length := by
    rw [List.length_map, order, List.length_range]
    exact List.mem_range.1 (order ▸ member)
  have here : (term.vars.map ρ)[v] = ρ v := by simp [order]
  rw [subst_var, ← here, nodup.idxOf_getElem]

/-! ### Terms numbered each by itself -/

private theorem exists_longest {lists : List (List Var)}
    (aligned : lists.Pairwise fun list other ↦ list <+: other ∨ other <+: list) :
    ∃ longest, (longest = [] ∨ longest ∈ lists) ∧ ∀ list ∈ lists, list <+: longest := by
  induction lists with
  | nil => exact ⟨[], .inl rfl, by simp⟩
  | cons list lists ih =>
    obtain ⟨first, rest⟩ := List.pairwise_cons.1 aligned
    obtain ⟨longest, found, all⟩ := ih rest
    have either : list <+: longest ∨ longest <+: list := by
      obtain rfl | member := found
      · exact .inr List.nil_prefix
      · exact first longest member
    obtain shorter | longer := either
    · exact ⟨longest, found.imp_right (List.mem_cons_of_mem _),
        List.forall_mem_cons.2 ⟨shorter, all⟩⟩
    · exact ⟨list, .inr List.mem_cons_self,
        List.forall_mem_cons.2 ⟨List.prefix_refl _,
          fun other member ↦ (all other member).trans longer⟩⟩

/-- Aligned terms are numbered by one renaming, which numbers the variables of the one that has
most. -/
theorem Aligned.exists_perm {terms : List Term} (aligned : Aligned terms) :
    ∃ ρ : Equiv.Perm Var, ∀ term ∈ terms, term.numbered = term.subst fun v ↦ .var (ρ v) := by
  have lists : (terms.map vars).Pairwise fun list other ↦ list <+: other ∨ other <+: list :=
    List.pairwise_map.2 aligned
  obtain ⟨longest, found, all⟩ := exists_longest lists
  have nodup : longest.Nodup := by
    obtain rfl | member := found
    · exact List.nodup_nil
    · obtain ⟨term, -, rfl⟩ := List.mem_map.1 member
      exact nodup_vars term
  have injective : Set.InjOn (longest.idxOf ·) (longest.toFinset : Set Var) := by
    intro v v_inside w _ same
    have member : v ∈ longest := by simpa using v_inside
    exact (List.idxOf_inj member).1 same
  obtain ⟨ρ, agrees⟩ := exists_perm_of_injOn injective
  refine ⟨ρ, fun term member ↦ subst_congr fun v occurs ↦ ?_⟩
  have early := all _ (List.mem_map_of_mem member)
  have inside := mem_vars.2 occurs
  rw [agrees v (List.mem_toFinset.2 (early.subset inside)), early.idxOf_eq_of_mem inside]

/-- Terms are aligned if their numbers can be given back their variables all at once. -/
theorem aligned_of_subst {terms : List Term} {τ : Var → Term}
    (back : ∀ term ∈ terms, term.numbered.subst τ = term.subst fun v ↦ .num v) : Aligned terms := by
  have at_number (term : Term) (member : term ∈ terms) (index : Nat)
    (inside : index < term.vars.length) :
      τ index = .num (term.vars[index] : Nat) := by
    have same := back term member
    rw [numbered, subst_subst, subst_eq_subst_iff] at same
    have here := same term.vars[index] (mem_vars.1 (List.getElem_mem inside))
    rwa [subst_var, (nodup_vars term).idxOf_getElem] at here
  have agree (term other : Term) (member : term ∈ terms) (other_member : other ∈ terms)
      (fewer : term.vars.length ≤ other.vars.length) : term.vars <+: other.vars := by
    refine List.prefix_iff_getElem.2 ⟨fewer, fun index inside ↦ ?_⟩
    have same := (at_number term member index inside).symm.trans
      (at_number other other_member index (Nat.lt_of_lt_of_le inside fewer))
    simpa using same
  refine List.pairwise_of_forall_mem_list fun term member other other_member ↦ ?_
  exact (Nat.le_total term.vars.length other.vars.length).imp (agree term other member other_member)
    (agree other term other_member member)

theorem apply_inj {symbol : Symbol} {args others : List Term} :
    apply symbol args = apply symbol others ↔ args = others := by
  cases args <;> cases others <;> simp [apply]

variable (symbol : Symbol) (args : List Term)

/-- Arguments numbered each by itself give the goal up to a renaming exactly if they are aligned. -/
theorem exists_perm_iff_aligned :
    (∃ ρ : Equiv.Perm Var, apply symbol (args.map numbered) = (apply symbol args).subst fun v ↦
      .var (ρ v)) ↔
      Aligned args := by
  constructor
  · rintro ⟨ρ, same⟩
    rw [subst_apply] at same
    have each := List.map_inj_left.1 (apply_inj.1 same)
    let τ (v : Var) : Term := .num (ρ.symm v)
    have back (term : Term) (member : term ∈ args) : term.numbered.subst τ = term.subst fun v ↦
      .num v := by
      rw [each term member, subst_subst]
      exact subst_congr fun v _ ↦ by simp [τ]
    exact aligned_of_subst back
  · intro aligned
    obtain ⟨ρ, each⟩ := aligned.exists_perm
    exact ⟨ρ, by rw [subst_apply, List.map_congr_left each]⟩

/-- They have all ground instances of the goal exactly if they are aligned. -/
theorem forall_instance_iff_aligned :
    (∀ σ : Var → Term, (∀ v, (σ v).isGround = true) →
      ∃ τ, (apply symbol (args.map numbered)).subst τ = (apply symbol args).subst σ) ↔
        Aligned args := by
  constructor
  · intro instances
    obtain ⟨τ, same⟩ := instances (fun v ↦ .num v) fun v ↦ rfl
    rw [subst_apply, subst_apply, List.map_map] at same
    exact aligned_of_subst (List.map_inj_left.1 (apply_inj.1 same))
  · intro aligned σ _
    obtain ⟨ρ, same⟩ := (exists_perm_iff_aligned symbol args).2 aligned
    refine ⟨fun v ↦ σ (ρ.symm v), ?_⟩
    rw [same, subst_subst]
    exact subst_congr fun v _ ↦ by simp

end HornMachine.Term
