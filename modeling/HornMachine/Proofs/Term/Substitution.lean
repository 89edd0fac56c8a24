import HornMachine.Bindings.Basic

/-!
# Substitution in terms

A substitution gives every variable a term. Applying one to a term depends on the variables that
occur in it and on nothing else. Main statements: two substitutions agree on a term exactly when
they agree on its variables, applying one after another is one substitution, and a variable inside
a structure stands for a smaller term than the structure does.
-/

namespace HornMachine.Term

/-- Induction over a term with a hypothesis for each argument of a structure. -/
@[induction_eliminator]
theorem induct {motive : Term → Prop} (atom : ∀ symbol, motive (.atom symbol))
    (var : ∀ v, motive (.var v))
    (struct : ∀ symbol args, (∀ arg ∈ args, motive arg) → motive (.struct symbol args))
    (num : ∀ value, motive (.num value)) : ∀ term, motive term
  | .atom symbol => atom symbol
  | .var v => var v
  | .struct symbol args => struct symbol args fun arg _ ↦ induct atom var struct num arg
  | .num value => num value

mutual

/-- Replace every variable of a term. -/
def subst (σ : Var → Term) : Term → Term
  | .atom symbol => .atom symbol
  | .var v => σ v
  | .struct symbol args => .struct symbol (substList σ args)
  | .num value => .num value

/-- Replace every variable of a list of terms. -/
def substList (σ : Var → Term) : List Term → List Term
  | [] => []
  | term :: terms => subst σ term :: substList σ terms

end

@[simp]
theorem substList_eq_map (σ : Var → Term) (terms : List Term) :
    substList σ terms = terms.map (subst σ) := by
  induction terms with
  | nil => rfl
  | cons term terms ih => simp [substList, ih]

@[simp]
theorem subst_atom (σ : Var → Term) (symbol : Symbol) : subst σ (.atom symbol) = .atom symbol := by
  simp [subst]

@[simp]
theorem subst_var (σ : Var → Term) (v : Var) : subst σ (.var v) = σ v := by
  simp [subst]

@[simp]
theorem subst_struct (σ : Var → Term) (symbol : Symbol) (args : List Term) :
    subst σ (.struct symbol args) = .struct symbol (args.map (subst σ)) := by
  simp [subst]

@[simp]
theorem subst_num (σ : Var → Term) (value : Int) : subst σ (.num value) = .num value := by
  simp [subst]

@[simp]
theorem subst_apply (σ : Var → Term) (symbol : Symbol) (args : List Term) :
    subst σ (apply symbol args) = apply symbol (args.map (subst σ)) := by
  cases args <;> simp [apply]

/-- A variable occurs in a structure when it occurs in an argument. -/
@[simp]
theorem mem_occurrences_struct {v : Var} {symbol : Symbol} {args : List Term} :
    v ∈ (Term.struct symbol args).occurrences ↔ ∃ arg ∈ args, v ∈ arg.occurrences := by
  simp [occurrences, occurrencesList_eq_flatMap]

@[simp]
theorem mem_occurrences_var {v w : Var} : v ∈ (Term.var w).occurrences ↔ v = w := by
  simp [occurrences]

@[simp]
theorem occurrences_atom (symbol : Symbol) : (Term.atom symbol).occurrences = [] := by
  simp [occurrences]

@[simp]
theorem occurrences_num (value : Int) : (Term.num value).occurrences = [] := by
  simp [occurrences]

theorem occurrences_apply (symbol : Symbol) (args : List Term) :
    (apply symbol args).occurrences = occurrencesList args := by
  cases args <;> simp [apply, occurrences, occurrencesList]

theorem args_apply (symbol : Symbol) (args : List Term) : (apply symbol args).args = args := by
  cases args <;> rfl

@[simp]
theorem mem_occurrences_apply {v : Var} {symbol : Symbol} {args : List Term} :
    v ∈ (apply symbol args).occurrences ↔ ∃ arg ∈ args, v ∈ arg.occurrences := by
  cases args with
  | nil => simp [apply]
  | cons arg args => rw [apply, mem_occurrences_struct]

/-- Substitutions give a term the same instance exactly when they agree on its variables. -/
theorem subst_eq_subst_iff {σ τ : Var → Term} {term : Term} :
    term.subst σ = term.subst τ ↔ ∀ v ∈ term.occurrences, σ v = τ v := by
  induction term with
  | atom symbol => simp
  | var w => simp
  | num value => simp
  | struct symbol args ih =>
    simp only [subst_struct, struct.injEq, true_and, List.map_inj_left, mem_occurrences_struct]
    constructor
    · rintro same v ⟨arg, member, occurs⟩
      exact (ih arg member).1 (same arg member) v occurs
    · intro agree arg member
      exact (ih arg member).2 fun v occurs ↦ agree v ⟨arg, member, occurs⟩

/-- A term's instance depends on its variables alone. -/
theorem subst_congr {σ τ : Var → Term} {term : Term} (agree : ∀ v ∈ term.occurrences, σ v = τ v) :
    term.subst σ = term.subst τ := subst_eq_subst_iff.2 agree

/-- One substitution after another is a substitution. -/
@[simp]
theorem subst_subst (σ τ : Var → Term) (term : Term) :
    (term.subst σ).subst τ = term.subst fun v ↦ (σ v).subst τ := by
  induction term with
  | atom symbol => simp
  | var w => simp
  | num value => simp
  | struct symbol args ih =>
    simp only [subst_struct, List.map_map, struct.injEq, true_and, List.map_inj_left]
    exact ih

/-- Replacing every variable by itself changes nothing. -/
@[simp]
theorem subst_self (term : Term) : term.subst .var = term := by
  induction term with
  | atom symbol => simp
  | var w => simp
  | num value => simp
  | struct symbol args ih => simp [List.map_congr_left ih]

/-- The variables of an instance are those of the terms its variables stand for. -/
theorem mem_occurrences_subst {σ : Var → Term} {v : Var} {term : Term} :
    v ∈ (term.subst σ).occurrences ↔ ∃ w ∈ term.occurrences, v ∈ (σ w).occurrences := by
  induction term with
  | atom symbol => simp
  | var w => simp
  | num value => simp
  | struct symbol args ih =>
    simp only [subst_struct, mem_occurrences_struct, List.mem_map]
    constructor
    · rintro ⟨_, ⟨arg, member, rfl⟩, occurs⟩
      obtain ⟨w, inside, found⟩ := (ih arg member).1 occurs
      exact ⟨w, ⟨arg, member, inside⟩, found⟩
    · rintro ⟨w, ⟨arg, member, inside⟩, found⟩
      exact ⟨_, ⟨arg, member, rfl⟩, (ih arg member).2 ⟨w, inside, found⟩⟩

/-! ### Ground terms -/

/-- A term is ground when no variable occurs in it. -/
theorem isGround_iff {term : Term} : term.isGround = true ↔ ∀ v, v ∉ term.occurrences := by
  induction term with
  | atom symbol => simp [isGround]
  | var w => simp [isGround]
  | num value => simp [isGround]
  | struct symbol args ih =>
    rw [isGround, allGround_eq_all, List.all_eq_true]
    simp only [mem_occurrences_struct, not_exists, not_and]
    constructor
    · exact fun ground v arg member ↦ (ih arg member).1 (ground arg member) v
    · exact fun free arg member ↦ (ih arg member).2 fun v ↦ free v arg member

/-- The arguments of a ground structure are ground. -/
theorem isGround_of_mem {symbol : Symbol} {args : List Term}
    (ground : (Term.struct symbol args).isGround = true) {arg : Term} (member : arg ∈ args) :
    arg.isGround = true :=
  isGround_iff.2 fun v inside ↦
    isGround_iff.1 ground v (mem_occurrences_struct.2 ⟨arg, member, inside⟩)

theorem mem_occurrences_of_mem_args {term arg : Term} (member : arg ∈ term.args) {v : Var}
    (occurs : v ∈ arg.occurrences) : v ∈ term.occurrences := by
  cases term with
  | struct symbol args => exact mem_occurrences_struct.2 ⟨arg, member, occurs⟩
  | atom | var | num => cases member

theorem isGround_of_mem_args {term arg : Term} (ground : term.isGround = true)
    (member : arg ∈ term.args) :
    arg.isGround = true :=
  isGround_iff.2 fun v occurs ↦ isGround_iff.1 ground v (mem_occurrences_of_mem_args member occurs)

/-- A ground term is its only instance. -/
theorem subst_of_isGround {term : Term} (ground : term.isGround = true) (σ : Var → Term) :
    term.subst σ = term := by
  calc term.subst σ = term.subst .var :=
        subst_congr fun v occurs ↦ absurd occurs (isGround_iff.1 ground v)
    _ = term := subst_self term

/-- An instance by ground terms is ground. -/
theorem isGround_subst {σ : Var → Term} {term : Term}
    (ground : ∀ v ∈ term.occurrences, (σ v).isGround = true) :
    (term.subst σ).isGround = true := by
  rw [isGround_iff]
  intro v occurs
  obtain ⟨w, inside, found⟩ := mem_occurrences_subst.1 occurs
  exact isGround_iff.1 (ground w inside) v found

/-! ### Distinct variables -/

private theorem mem_distinctFrom {seen : Std.TreeSet Var} {v : Var} {vars : List Var} :
    v ∈ distinctFrom seen vars ↔ v ∈ vars ∧ v ∉ seen := by
  induction vars generalizing seen with
  | nil => simp [distinctFrom]
  | cons w vars ih =>
    rw [distinctFrom]
    split
    · next known =>
      rw [Std.TreeSet.contains_iff_mem] at known
      rw [ih, List.mem_cons]
      constructor
      · exact fun both ↦ ⟨.inr both.1, both.2⟩
      · rintro ⟨rfl | later, fresh⟩
        · exact absurd known fresh
        · exact ⟨later, fresh⟩
    · next fresh =>
      rw [Std.TreeSet.contains_iff_mem] at fresh
      rw [List.mem_cons, List.mem_cons, ih, Std.TreeSet.mem_insert,
        Std.LawfulEqCmp.compare_eq_iff_eq, not_or]
      constructor
      · rintro (rfl | ⟨later, -, new⟩)
        · exact ⟨.inl rfl, fresh⟩
        · exact ⟨.inr later, new⟩
      · rintro ⟨rfl | later, new⟩
        · exact .inl rfl
        · by_cases same : v = w
          · exact .inl same
          · exact .inr ⟨later, Ne.symm same, new⟩

private theorem nodup_distinctFrom (seen : Std.TreeSet Var) (vars : List Var) :
    (distinctFrom seen vars).Nodup := by
  induction vars generalizing seen with
  | nil => simp [distinctFrom]
  | cons w vars ih =>
    rw [distinctFrom]
    split
    · exact ih seen
    · refine List.nodup_cons.2 ⟨fun again ↦ ?_, ih _⟩
      exact (mem_distinctFrom.1 again).2 Std.TreeSet.mem_insert_self

theorem mem_distinct {v : Var} {vars : List Var} : v ∈ distinct vars ↔ v ∈ vars := by
  rw [distinct, mem_distinctFrom]
  simp

theorem nodup_distinct (vars : List Var) : (distinct vars).Nodup := nodup_distinctFrom ∅ vars

private theorem distinctFrom_eq_eraseDups (seen : Std.TreeSet Var) (vars : List Var) :
    distinctFrom seen vars = (vars.filter fun v ↦ !seen.contains v).eraseDups := by
  induction vars generalizing seen with
  | nil => rfl
  | cons w vars ih =>
    rw [distinctFrom, List.filter_cons]
    by_cases known : seen.contains w = true
    · simp [known, ih]
    · simp only [known, Bool.false_eq_true, if_false, ih, Bool.not_false, if_true,
        List.eraseDups_cons, List.filter_filter]
      congr 2
      refine List.filter_congr fun v _ ↦ ?_
      have same : (compare w v == .eq) = (v == w) := by
        rw [Bool.eq_iff_iff, beq_iff_eq, beq_iff_eq, Std.LawfulEqCmp.compare_eq_iff_eq, eq_comm]
      rw [Std.TreeSet.contains_insert, Bool.not_or, same]

/-- The distinct entries of a list are what is left when repetitions are erased. -/
theorem distinct_eq_eraseDups (vars : List Var) : distinct vars = vars.eraseDups := by
  rw [distinct, distinctFrom_eq_eraseDups]
  congr 1
  simp

/-- One more entry is distinct from the others or erased. -/
theorem eraseDups_concat {α : Type} [DecidableEq α] (list : List α) (last : α) :
    (list ++ [last]).eraseDups = list.eraseDups ++ if last ∈ list then [] else [last] := by
  rw [List.eraseDups_append, List.removeAll, List.filter_cons, List.filter_nil]
  by_cases old : last ∈ list <;> simp [old, List.eraseDups_cons]

/-! ### Functors -/

mutual

/-- Every structure in a term has a functor of the given kind. -/
def AllFunctors (kind : Functor → Prop) : Term → Prop
  | .struct symbol args => kind ⟨symbol, args.length⟩ ∧ AllFunctorsList kind args
  | .atom _ | .var _ | .num _ => True

/-- Every structure in a list of terms has a functor of the given kind. -/
def AllFunctorsList (kind : Functor → Prop) : List Term → Prop
  | [] => True
  | term :: terms => AllFunctors kind term ∧ AllFunctorsList kind terms

end

private theorem allFunctorsList_iff {kind : Functor → Prop} {terms : List Term} :
    AllFunctorsList kind terms ↔ ∀ term ∈ terms, term.AllFunctors kind := by
  induction terms with
  | nil => simp [AllFunctorsList]
  | cons term terms ih => simp [AllFunctorsList, ih]

theorem allFunctors_struct {kind : Functor → Prop} {symbol : Symbol} {args : List Term} :
    (Term.struct symbol args).AllFunctors kind ↔
      kind ⟨symbol, args.length⟩ ∧ ∀ arg ∈ args, arg.AllFunctors kind := by
  rw [AllFunctors, allFunctorsList_iff]

theorem AllFunctors.of_mem_args {kind : Functor → Prop} {term arg : Term}
    (all : term.AllFunctors kind) (member : arg ∈ term.args) : arg.AllFunctors kind := by
  cases term with
  | struct symbol args => exact (allFunctors_struct.1 all).2 arg member
  | atom _ | var _ | num _ => cases member

theorem AllFunctors.mono {kind other : Functor → Prop}
    (kinds : ∀ functor, kind functor → other functor)
    {term : Term} (all : term.AllFunctors kind) : term.AllFunctors other := by
  induction term with
  | atom _ | num _ | var _ => trivial
  | struct symbol args ih =>
    obtain ⟨here, each⟩ := allFunctors_struct.1 all
    exact allFunctors_struct.2 ⟨kinds _ here, fun arg member ↦ ih arg member (each arg member)⟩

/-- Any structure is one of any functor. -/
theorem allFunctors_true (term : Term) : term.AllFunctors fun _ ↦ True := by
  induction term with
  | struct symbol args ih => exact allFunctors_struct.2 ⟨trivial, ih⟩
  | atom | var | num => trivial

/-- The structures of an instance are those of the term and of what its variables stand for. -/
theorem AllFunctors.subst {kind : Functor → Prop} {σ : Var → Term} {term : Term}
    (all : term.AllFunctors kind) (each : ∀ v ∈ term.occurrences, (σ v).AllFunctors kind) :
    (term.subst σ).AllFunctors kind := by
  induction term with
  | atom _ | num _ => trivial
  | var v =>
    rw [subst_var]
    exact each v (mem_occurrences_var.2 rfl)
  | struct symbol args ih =>
    obtain ⟨here, inside⟩ := allFunctors_struct.1 all
    rw [subst_struct, allFunctors_struct, List.length_map]
    refine ⟨here, List.forall_mem_map.2 fun arg member ↦ ih arg member (inside arg member)
      fun v occurs ↦ ?_⟩
    exact each v (mem_occurrences_struct.2 ⟨arg, member, occurs⟩)

/-- A term fits if all its functors do. -/
theorem fits_iff {term : Term} :
    term.fits = true ↔ term.AllFunctors fun functor ↦ functor.arity ≤ Functor.maxArity := by
  induction term with
  | atom _ | num _ | var _ => simp [fits, AllFunctors]
  | struct symbol args ih =>
    rw [fits, allFit_eq_all, Bool.and_eq_true, decide_eq_true_eq, List.all_eq_true,
      allFunctors_struct]
    exact and_congr_right fun _ ↦ forall₂_congr ih

/-- A canonical term holds no structure without arguments: a name alone is an atom. -/
def Canonical (term : Term) : Prop := term.AllFunctors fun functor ↦ 0 < functor.arity

/-! ### Structures without arguments -/

mutual

/-- The term with an atom for each structure without arguments. -/
def collapse : Term → Term
  | .struct symbol args => Term.apply symbol (collapseList args)
  | .atom symbol => .atom symbol
  | .var v => .var v
  | .num value => .num value

/-- The terms with an atom for each structure without arguments. -/
def collapseList : List Term → List Term
  | [] => []
  | term :: terms => collapse term :: collapseList terms

end

private theorem collapseList_eq_map (terms : List Term) :
    collapseList terms = terms.map collapse := by
  induction terms with
  | nil => rfl
  | cons term terms ih => simp [collapseList, ih]

theorem collapse_struct (symbol : Symbol) (args : List Term) :
    collapse (.struct symbol args) = Term.apply symbol (args.map collapse) := by
  rw [collapse, collapseList_eq_map]

/-- A substitution may be applied before or after. -/
theorem collapse_subst (σ : Var → Term) (term : Term) :
    (term.subst σ).collapse = term.collapse.subst fun v ↦ (σ v).collapse := by
  induction term with
  | atom _ | num _ | var _ => simp [collapse]
  | struct symbol args ih =>
    rw [subst_struct, collapse_struct, collapse_struct, subst_apply, List.map_map, List.map_map]
    exact congrArg _ (List.map_congr_left ih)

/-- Renaming variables makes no structure. -/
theorem collapse_rename (ρ : Var → Var) (term : Term) :
    (term.subst fun v ↦ .var (ρ v)).collapse = term.collapse.subst fun v ↦ .var (ρ v) :=
  collapse_subst _ term

/-- No variable is lost. -/
theorem mem_occurrences_collapse {v : Var} {term : Term} :
    v ∈ term.collapse.occurrences ↔ v ∈ term.occurrences := by
  induction term with
  | atom _ | num _ | var _ => rfl
  | struct symbol args ih =>
    rw [collapse_struct, mem_occurrences_apply, mem_occurrences_struct]
    constructor
    · rintro ⟨_, member, inside⟩
      obtain ⟨arg, there, rfl⟩ := List.mem_map.1 member
      exact ⟨arg, there, (ih arg there).1 inside⟩
    · rintro ⟨arg, member, inside⟩
      exact ⟨arg.collapse, List.mem_map_of_mem member, (ih arg member).2 inside⟩

theorem isGround_collapse (term : Term) : term.collapse.isGround = term.isGround := by
  rw [Bool.eq_iff_iff, isGround_iff, isGround_iff]
  exact forall_congr' fun v ↦ not_congr mem_occurrences_collapse

theorem Canonical.collapse {term : Term} (canonical : term.Canonical) : term.collapse = term := by
  induction term with
  | atom _ | num _ | var _ => rfl
  | struct symbol args ih =>
    obtain ⟨some_args, each⟩ := allFunctors_struct.1 canonical
    rw [collapse_struct, List.map_congr_left fun arg member ↦ ih arg member (each arg member),
      List.map_id']
    cases args with
    | nil => exact absurd some_args (Nat.lt_irrefl 0)
    | cons arg args => rfl

/-! ### Sizes -/

private theorem size_le_sizeList {term : Term} {terms : List Term} (member : term ∈ terms) :
    term.size ≤ sizeList terms := by
  induction terms with
  | nil => simp at member
  | cons other terms ih =>
    rw [sizeList]
    rcases List.mem_cons.1 member with rfl | later
    · exact Nat.le_add_right _ _
    · exact Nat.le_trans (ih later) (Nat.le_add_left _ _)

/-- An argument is smaller than the structure around it. -/
theorem size_lt_of_mem {symbol : Symbol} {args : List Term} {arg : Term} (member : arg ∈ args) :
    arg.size < (Term.struct symbol args).size := by
  rw [size]
  exact Nat.lt_succ_of_le (size_le_sizeList member)

end HornMachine.Term
