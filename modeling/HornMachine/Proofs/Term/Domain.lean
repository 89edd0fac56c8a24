import HornMachine.Bindings.Unify
import HornMachine.Proofs.Term.Substitution
import Mathlib.Data.Finset.Card
import Mathlib.Data.List.Forall2

/-!
# Domains that terms are read in

What a heap or a piece of code says is stated for values of any kind that has atoms, numbers and
structures, all different. A term is read in such a domain once its variables have values. Terms
themselves are a domain, in which reading is substitution; infinite trees are another. Main
statements: readings agree on a term when they agree on its variables, and in a domain with sizes a
variable inside a structure stands for less than the structure does.
-/

namespace HornMachine

/-- Values built from atoms, numbers and structures. Values that cannot be told apart by taking
structures to pieces are equal. -/
class Domain (D : Type) extends Inhabited D where
  atom : Symbol → D
  num : Int → D
  struct : Symbol → List D → D
  atom_inj : ∀ {p q : Symbol}, atom p = atom q ↔ p = q
  num_inj : ∀ {m n : Int}, num m = num n ↔ m = n
  struct_inj : ∀ {p q : Symbol} {as bs : List D}, struct p as = struct q bs ↔ p = q ∧ as = bs
  atom_ne_num : ∀ (p : Symbol) (n : Int), atom p ≠ num n
  atom_ne_struct : ∀ (p q : Symbol) (as : List D), atom p ≠ struct q as
  num_ne_struct : ∀ (n : Int) (q : Symbol) (as : List D), num n ≠ struct q as
  eq_of_bisim : ∀ (related : D → D → Prop),
    (∀ a b, related a b → a = b ∨ ∃ symbol as bs,
      a = struct symbol as ∧ b = struct symbol bs ∧ List.Forall₂ related as bs) →
    ∀ a b, related a b → a = b

/-- A domain in which every structure is larger than its arguments. -/
class Sized (D : Type) [Domain D] where
  size : D → Nat
  size_lt : ∀ {symbol : Symbol} {args : List D} {arg : D}, arg ∈ args →
    size arg < size (Domain.struct symbol args)

/-- Values that are finite, with sizes for them: what a finite structure holds is finite and
smaller. -/
structure Domain.Sizes (D : Type) [Domain D] where
  Finite : D → Prop
  /-- The size of a value; it says nothing of values that are not finite. -/
  size : D → Nat
  arg : ∀ {symbol : Symbol} {args : List D} {arg : D}, Finite (Domain.struct symbol args) →
    arg ∈ args → Finite arg ∧ size arg < size (Domain.struct symbol args)

/-- In a domain with sizes all values are finite. -/
def Domain.Sizes.ofSized (D : Type) [Domain D] [Sized D] : Domain.Sizes D where
  Finite _ := True
  size := Sized.size
  arg _ member := ⟨trivial, Sized.size_lt member⟩

/-- A domain in which the occurs check refuses nothing that has a solution. -/
def OccursCheck.Decides (check : OccursCheck) (D : Type) [Domain D] : Prop :=
  check = .on → Nonempty (Sized D)

/-- A value that the occurs check does not refuse: there is no check, or the value is finite. -/
def OccursCheck.Settles {D : Type} [Domain D] (check : OccursCheck) (value : D) : Prop :=
  check = .on → ∃ sizes : Domain.Sizes D, sizes.Finite value

theorem OccursCheck.Decides.settles {D : Type} [Domain D] {check : OccursCheck}
    (decides : check.Decides D) (value : D) : check.Settles value := fun on ↦
  have ⟨_⟩ := decides on
  ⟨.ofSized D, trivial⟩

attribute [simp] Domain.atom_inj Domain.num_inj Domain.struct_inj Domain.atom_ne_num
  Domain.atom_ne_struct Domain.num_ne_struct

namespace Domain

variable {D : Type} [Domain D]

@[simp]
theorem num_ne_atom (n : Int) (p : Symbol) : (num n : D) ≠ atom p := (atom_ne_num p n).symm

@[simp]
theorem struct_ne_atom (q : Symbol) (as : List D) (p : Symbol) : struct q as ≠ atom p :=
  (atom_ne_struct p q as).symm

@[simp]
theorem struct_ne_num (q : Symbol) (as : List D) (n : Int) : struct q as ≠ num n :=
  (num_ne_struct n q as).symm

/-- A name applied to values; with none it is the atom. -/
def apply (symbol : Symbol) : List D → D
  | [] => atom symbol
  | arg :: args => struct symbol (arg :: args)

/-- A name with its arguments is one value for each functor and arguments. -/
theorem apply_inj {p q : Symbol} {as bs : List D} :
    apply p as = apply q bs ↔ p = q ∧ as = bs := by
  cases as with
  | nil => cases bs <;> simp [apply]
  | cons a as => cases bs <;> simp [apply]

/-- A value that is another one or lies inside it. -/
inductive Part (inner : D) : D → Prop
  | refl : Part inner inner
  | arg {symbol : Symbol} {args : List D} {arg : D} (member : arg ∈ args) (part : Part inner arg) :
    Part inner (struct symbol args)

/-! ### Counting small values -/

namespace Sizes

variable {ι : Type} (sizes : Sizes D) {members : Finset ι} {value : ι → D}

open Classical in
/-- Number of members that stand for finite values of at most a given size. -/
noncomputable def count (members : Finset ι) (value : ι → D) (size : Nat) : Nat :=
  (members.filter fun i ↦ sizes.Finite (value i) ∧ sizes.size (value i) ≤ size).card

theorem count_le (members : Finset ι) (value : ι → D) (size : Nat) :
    sizes.count members value size ≤ members.card :=
  open Classical in Finset.card_filter_le _ _

/-- A larger size admits a member of that size as well. -/
theorem count_lt {i : ι} (inside : i ∈ members) (finite : sizes.Finite (value i)) {size : Nat}
    (smaller : size < sizes.size (value i)) :
    sizes.count members value size < sizes.count members value (sizes.size (value i)) := by
  apply Finset.card_lt_card
  rw [Finset.ssubset_iff_of_subset]
  · refine ⟨i, ?_, ?_⟩
    · simp [inside, finite]
    · simpa [inside, finite] using smaller
  · intro other member
    simp only [Finset.mem_filter] at member ⊢
    exact ⟨member.1, member.2.1, Nat.le_trans member.2.2 (Nat.le_of_lt smaller)⟩

end Sizes

end Domain

namespace Term

section Eval

variable {D : Type} [Domain D]

mutual

/-- The value of a term whose variables have values. -/
def eval (β : Var → D) : Term → D
  | .atom symbol => Domain.atom symbol
  | .var v => β v
  | .struct symbol args => Domain.struct symbol (evalList β args)
  | .num value => Domain.num value

/-- The values of a list of terms. -/
def evalList (β : Var → D) : List Term → List D
  | [] => []
  | term :: terms => eval β term :: evalList β terms

end

private theorem evalList_eq_map (β : Var → D) (terms : List Term) :
    evalList β terms = terms.map (eval β) := by
  induction terms with
  | nil => rfl
  | cons term terms ih => simp [evalList, ih]

@[simp]
theorem eval_atom (β : Var → D) (symbol : Symbol) :
    eval β (.atom symbol) = Domain.atom symbol := by
  simp [eval]

@[simp]
theorem eval_var (β : Var → D) (v : Var) : eval β (.var v) = β v := by
  simp [eval]

@[simp]
theorem eval_struct (β : Var → D) (symbol : Symbol) (args : List Term) :
    eval β (.struct symbol args) = Domain.struct symbol (args.map (eval β)) := by
  simp [eval, evalList_eq_map]

@[simp]
theorem eval_num (β : Var → D) (value : Int) : eval β (.num value) = Domain.num value := by
  simp [eval]

@[simp]
theorem eval_apply (β : Var → D) (symbol : Symbol) (args : List Term) :
    eval β (apply symbol args) = Domain.apply symbol (args.map (eval β)) := by
  cases args <;> simp [apply, Domain.apply]

/-- A term's value depends on its variables alone. -/
theorem eval_congr {β γ : Var → D} {term : Term} (agree : ∀ v ∈ term.occurrences, β v = γ v) :
    term.eval β = term.eval γ := by
  induction term with
  | atom symbol => simp
  | num value => simp
  | var w => simpa using agree
  | struct symbol args ih =>
    rw [eval_struct, eval_struct, List.map_congr_left fun arg member ↦ ih arg member fun v occurs ↦
      agree v (mem_occurrences_struct.2 ⟨arg, member, occurs⟩)]

/-- A variable's value can be told from the value of a term it occurs in. -/
theorem eval_eq_eval_iff {β γ : Var → D} {term : Term} :
    term.eval β = term.eval γ ↔ ∀ v ∈ term.occurrences, β v = γ v := by
  refine ⟨fun same ↦ ?_, eval_congr⟩
  induction term with
  | atom symbol => simp
  | num value => simp
  | var w => simpa using same
  | struct symbol args ih =>
    simp only [eval_struct, Domain.struct_inj, true_and, List.map_inj_left] at same
    intro v occurs
    obtain ⟨arg, member, inside⟩ := mem_occurrences_struct.1 occurs
    exact ih arg member (same arg member) v inside

/-- Reading an instance of a term is reading the term with the values of what its variables stand
for. -/
@[simp]
theorem eval_subst (σ : Var → Term) (β : Var → D) (term : Term) :
    (term.subst σ).eval β = term.eval fun v ↦ (σ v).eval β := by
  induction term with
  | atom symbol => simp
  | var w => simp
  | num value => simp
  | struct symbol args ih =>
    simp only [subst_struct, eval_struct, List.map_map, Domain.struct_inj, true_and,
      List.map_inj_left]
    exact ih

/-- A ground term has one value. -/
theorem eval_of_isGround {term : Term} (ground : term.isGround = true) (β γ : Var → D) :
    term.eval β = term.eval γ :=
  eval_congr fun v occurs ↦ absurd occurs (isGround_iff.1 ground v)

/-- What a variable stands for is finite if a term it occurs in is, and smaller unless it is the
term. -/
theorem size_of_mem_occurrences (sizes : Domain.Sizes D) {β : Var → D} {v : Var} {term : Term}
    (occurs : v ∈ term.occurrences) (finite : sizes.Finite (term.eval β)) :
    sizes.Finite (β v) ∧ (term = .var v ∨ sizes.size (β v) < sizes.size (term.eval β)) := by
  induction term with
  | atom symbol => simp at occurs
  | num value => simp at occurs
  | var w =>
    obtain rfl := mem_occurrences_var.1 occurs
    exact ⟨by simpa using finite, .inl rfl⟩
  | struct symbol args ih =>
    obtain ⟨arg, member, inside⟩ := mem_occurrences_struct.1 occurs
    rw [eval_struct] at finite ⊢
    obtain ⟨arg_finite, smaller⟩ := sizes.arg finite (List.mem_map_of_mem member)
    obtain ⟨own_finite, same | less⟩ := ih arg member inside arg_finite
    · rw [same, eval_var] at smaller
      exact ⟨own_finite, .inr smaller⟩
    · exact ⟨own_finite, .inr (Nat.lt_trans less smaller)⟩

omit [Domain D] in
/-- Lists with equal images are related element by element. -/
theorem forall₂_of_map_eq {α β : Type} {f : α → D} {g : β → D} {as : List α} {bs : List β}
    (same : as.map f = bs.map g) {related : α → β → Prop}
    (each : ∀ a ∈ as, ∀ b ∈ bs, f a = g b → related a b) : List.Forall₂ related as bs := by
  induction as generalizing bs with
  | nil =>
    cases bs with
    | nil => exact .nil
    | cons b bs => cases same
  | cons a as ih =>
    cases bs with
    | nil => cases same
    | cons b bs =>
      rw [List.map_cons, List.map_cons, List.cons.injEq] at same
      exact .cons (each a List.mem_cons_self b List.mem_cons_self same.1)
        (ih same.2 fun a inside b among ↦
          each a (List.mem_cons_of_mem _ inside) b (List.mem_cons_of_mem _ among))

omit [Domain D] in
/-- So are lists with equal images pair by pair. -/
theorem eq_of_mem_zip {α : Type} {f : α → D} {xs ys : List α} (same : xs.map f = ys.map f)
    {pair : α × α} (member : pair ∈ xs.zip ys) : f pair.1 = f pair.2 := by
  obtain ⟨index, inside, here⟩ := List.mem_iff_getElem.1 member
  have left : index < xs.length := (List.lt_length_left_of_zip inside)
  have right : index < ys.length := (List.lt_length_right_of_zip inside)
  have at_index := List.getElem_of_eq same (i := index) (by simpa using left)
  rw [List.getElem_map, List.getElem_map] at at_index
  rw [← here, List.getElem_zip]
  exact at_index

omit [Domain D] in
theorem forall_mem_zip_iff {α : Type} {f : α → D} {xs ys : List α} (count : xs.length = ys.length) :
    (∀ pair ∈ xs.zip ys, f pair.1 = f pair.2) ↔ xs.map f = ys.map f := by
  refine ⟨fun each ↦ List.ext_getElem (by simpa using count) fun index lower lower' ↦ ?_,
    fun same pair member ↦ eq_of_mem_zip same member⟩
  rw [List.length_map] at lower lower'
  rw [List.getElem_map, List.getElem_map]
  have inside : index < (xs.zip ys).length := by
    rw [List.length_zip]
    omega
  exact each (xs[index], ys[index])
    (List.mem_iff_getElem.2 ⟨index, inside, List.getElem_zip⟩)

/-- Ground terms with equal values are equal. The induction is on the first of the two. -/
theorem eval_injective {term other : Term} (ground : term.isGround = true)
    (other_ground : other.isGround = true) {β γ : Var → D} (same : term.eval β = other.eval γ) :
    term = other := by
  induction term generalizing other with
  | var v => cases ground
  | atom symbol =>
    cases other with
    | var v => cases other_ground
    | atom symbol => simpa using same
    | num value => simp at same
    | struct symbol args => simp at same
  | num value =>
    cases other with
    | var v => cases other_ground
    | atom symbol => simp at same
    | num value => simpa using same
    | struct symbol args => simp at same
  | struct symbol args ih =>
    cases other with
    | var v => cases other_ground
    | atom symbol => simp at same
    | num value => simp at same
    | struct symbol others =>
      rw [eval_struct, eval_struct, Domain.struct_inj] at same
      obtain ⟨rfl, same⟩ := same
      have all : List.Forall₂ (· = ·) args others :=
        forall₂_of_map_eq same fun arg inside other among ↦
          ih arg inside (isGround_of_mem ground inside) (isGround_of_mem other_ground among)
      rw [List.forall₂_eq_eq_eq] at all
      rw [all]

/-- A variable's value is part of the value of a term it occurs in. -/
theorem part_eval {β : Var → D} {v : Var} {term : Term} (occurs : v ∈ term.occurrences) :
    Domain.Part (β v) (term.eval β) := by
  induction term with
  | atom symbol => simp at occurs
  | num value => simp at occurs
  | var w =>
    rw [mem_occurrences_var] at occurs
    subst occurs
    rw [eval_var]
    exact .refl
  | struct symbol args ih =>
    obtain ⟨arg, member, inside⟩ := mem_occurrences_struct.1 occurs
    rw [eval_struct]
    exact .arg (List.mem_map_of_mem member) (ih arg member inside)

/-- Parts of the values of ground terms are such values, and their structures are among those of the
whole. -/
theorem exists_of_part {term : Term} (ground : term.isGround = true) {β : Var → D} {inner : D}
    (part : Domain.Part inner (term.eval β)) : ∃ other : Term, other.isGround = true ∧
      other.eval β = inner ∧ ∀ kind, term.AllFunctors kind → other.AllFunctors kind := by
  generalize same : term.eval β = outer at part
  induction part generalizing term with
  | refl => exact ⟨term, ground, same, fun _ ↦ id⟩
  | @arg symbol args arg member _ ih =>
    cases term with
    | var v => cases ground
    | atom symbol => simp at same
    | num value => simp at same
    | struct symbol terms =>
      rw [eval_struct, Domain.struct_inj] at same
      obtain ⟨-, rfl⟩ := same
      obtain ⟨term, inside, rfl⟩ := List.mem_map.1 member
      obtain ⟨other, other_ground, value, kinds⟩ := ih (isGround_of_mem ground inside) rfl
      exact ⟨other, other_ground, value,
        fun kind all ↦ kinds kind ((allFunctors_struct.1 all).2 _ inside)⟩

end Eval

/-! ### Terms as values -/

/-- Terms that cannot be told apart by taking structures to pieces are equal. The induction is on
the first of the two. -/
theorem eq_of_bisim (related : Term → Term → Prop)
    (hands_down : ∀ a b, related a b → a = b ∨ ∃ symbol as bs,
      a = .struct symbol as ∧ b = .struct symbol bs ∧ List.Forall₂ related as bs)
    (a b : Term) (pair : related a b) : a = b := by
  induction a generalizing b with
  | atom symbol => simpa using hands_down _ _ pair
  | var v => simpa using hands_down _ _ pair
  | num value => simpa using hands_down _ _ pair
  | struct symbol args ih =>
    rcases hands_down _ _ pair with same | ⟨_, _, others, split, rfl, below⟩
    · exact same
    · cases split
      clear pair
      refine congrArg _ ?_
      induction below with
      | nil => rfl
      | cons first _ rest =>
        rw [ih _ List.mem_cons_self _ first, rest fun arg member ↦ ih arg (.tail _ member)]

theorem atom_ne_num (symbol : Symbol) (value : Int) : Term.atom symbol ≠ .num value := by simp

theorem atom_ne_struct (symbol other : Symbol) (args : List Term) :
    Term.atom symbol ≠ .struct other args := by
  simp

theorem num_ne_struct (value : Int) (symbol : Symbol) (args : List Term) :
    Term.num value ≠ .struct symbol args := by
  simp

instance : Domain Term where
  atom := .atom
  num := .num
  struct := .struct
  atom_inj := by simp
  num_inj := by simp
  struct_inj := by simp
  atom_ne_num := atom_ne_num
  atom_ne_struct := atom_ne_struct
  num_ne_struct := num_ne_struct
  eq_of_bisim := eq_of_bisim

instance : Sized Term where
  size := size
  size_lt := size_lt_of_mem

@[simp]
theorem domain_atom (symbol : Symbol) : Domain.atom symbol = Term.atom symbol := rfl

@[simp]
theorem domain_num (value : Int) : Domain.num value = Term.num value := rfl

@[simp]
theorem domain_struct (symbol : Symbol) (args : List Term) :
    Domain.struct symbol args = Term.struct symbol args := rfl

@[simp]
theorem domain_apply (symbol : Symbol) (args : List Term) :
    Domain.apply symbol args = Term.apply symbol args := by
  cases args <;> rfl

/-- Among terms, reading a term is substitution. -/
@[simp]
theorem eval_eq_subst (β : Var → Term) (term : Term) : term.eval β = term.subst β := by
  induction term with
  | atom symbol => simp
  | var w => simp
  | num value => simp
  | struct symbol args ih => simp [List.map_congr_left ih]

end Term
end HornMachine
