import HornMachine.Proofs.Term.Domain
import Mathlib.Data.PFunctor.Univariate.M

/-!
# Trees

A cyclic term unfolds to a tree some branches of which go on for ever. Trees are a domain in which
any equations between terms and variables can be solved: whatever can be looked at one level at a
time unfolds to a tree. Variables stand at leaves, so that a finite tree is a term.

Main statements: the equations of an unfolding (`Tree.unfold_eq`), trees are a domain, and a finite
tree determines the term it is the tree of (`Term.tree_injective`).
-/

namespace HornMachine

namespace Tree

/-- What stands at a node of a tree. -/
inductive Node where
  | atom (symbol : Symbol)
  | num (value : Int)
  | var (v : Var)
  | struct (symbol : Symbol) (width : Nat)

/-- Number of branches below a node. -/
def Node.width : Node → Nat
  | .struct _ width => width
  | .atom _ | .num _ | .var _ => 0

/-- One level of a tree: a node, and something below each branch. -/
def Level : PFunctor.{0, 0} := ⟨Node, fun node ↦ Fin node.width⟩

end Tree

/-- Trees of names, numbers and variables, which may be infinite. -/
def Tree : Type := PFunctor.M Tree.Level

namespace Tree

/-- The tree of a level. -/
def ofLevel (node : Node) (below : Fin node.width → Tree) : Tree := PFunctor.M.mk ⟨node, below⟩

/-- A variable. -/
def leaf (v : Var) : Tree := ofLevel (.var v) Fin.elim0

/-- An atom. -/
def atom (symbol : Symbol) : Tree := ofLevel (.atom symbol) Fin.elim0

/-- A number. -/
def num (value : Int) : Tree := ofLevel (.num value) Fin.elim0

/-- A structure. -/
def struct (symbol : Symbol) (args : List Tree) : Tree :=
  ofLevel (.struct symbol args.length) args.get

/-- Trees with one level are equal. -/
theorem node_eq {node other : Node} {below : Fin node.width → Tree}
    {beneath : Fin other.width → Tree}
    (same : ofLevel node below = ofLevel other beneath) : node = other :=
  congrArg Sigma.fst (PFunctor.M.mk_inj same)

@[simp]
theorem leaf_inj {v w : Var} : leaf v = leaf w ↔ v = w :=
  ⟨fun same ↦ Node.var.inj (node_eq same), congrArg leaf⟩

/-- A structure by the number of its arguments. -/
theorem struct_eq_ofLevel {width : Nat} {args : List Tree} (length : args.length = width)
    (symbol : Symbol) :
    struct symbol args = ofLevel (.struct symbol width) fun i ↦ args.get (i.cast length.symm) := by
  subst length
  rfl

theorem struct_inj {p q : Symbol} {as bs : List Tree} :
    struct p as = struct q bs ↔ p = q ∧ as = bs := by
  constructor
  · intro same
    obtain ⟨rfl, width⟩ := Node.struct.inj (node_eq same)
    refine ⟨rfl, ?_⟩
    rw [struct_eq_ofLevel width] at same
    have below := eq_of_heq (Sigma.mk.inj (PFunctor.M.mk_inj same)).2
    apply List.ext_getElem width
    intro i inside inside'
    exact congrFun below ⟨i, inside'⟩
  · rintro ⟨rfl, rfl⟩
    rfl

/-- Trees that cannot be told apart by taking structures to pieces are equal. -/
theorem eq_of_bisim (related : Tree → Tree → Prop)
    (hands_down : ∀ a b, related a b → a = b ∨ ∃ symbol as bs,
      a = struct symbol as ∧ b = struct symbol bs ∧ List.Forall₂ related as bs)
    (a b : Tree) (pair : related a b) : a = b := by
  refine PFunctor.M.bisim (fun a b ↦ a = b ∨ related a b) ?_ a b (.inr pair)
  intro a b pair
  have refl (a : Tree) : ∃ node below beneath, PFunctor.M.dest a = ⟨node, below⟩ ∧
      PFunctor.M.dest a = ⟨node, beneath⟩ ∧ ∀ i, below i = beneath i ∨
        related (below i) (beneath i) :=
    ⟨_, _, _, rfl, rfl, fun _ ↦ .inl rfl⟩
  rcases pair with rfl | pair
  · exact refl a
  · rcases hands_down a b pair with rfl | ⟨symbol, as, bs, rfl, rfl, below⟩
    · exact refl a
    · rw [struct_eq_ofLevel below.length_eq.symm]
      refine ⟨_, _, _, PFunctor.M.dest_mk _, PFunctor.M.dest_mk _, fun i ↦ .inr ?_⟩
      exact below.get i.isLt (below.length_eq ▸ i.isLt)

noncomputable instance : Domain Tree where
  default := atom ⟨0⟩
  atom := atom
  num := num
  struct := struct
  atom_inj := ⟨fun same ↦ Node.atom.inj (node_eq same), congrArg atom⟩
  num_inj := ⟨fun same ↦ Node.num.inj (node_eq same), congrArg num⟩
  struct_inj := struct_inj
  atom_ne_num _ _ same := by cases node_eq same
  atom_ne_struct _ _ _ same := by cases node_eq same
  num_ne_struct _ _ _ same := by cases node_eq same
  eq_of_bisim := eq_of_bisim

@[simp]
theorem atom_ne_leaf (symbol : Symbol) (v : Var) : Domain.atom symbol ≠ leaf v := fun same ↦ by
  cases node_eq same

@[simp]
theorem num_ne_leaf (value : Int) (v : Var) : Domain.num value ≠ leaf v := fun same ↦ by
  cases node_eq same

@[simp]
theorem struct_ne_leaf (symbol : Symbol) (args : List Tree) (v : Var) :
    Domain.struct symbol args ≠ leaf v := fun same ↦ by
  cases node_eq same

@[simp]
theorem leaf_ne_atom (v : Var) (symbol : Symbol) : leaf v ≠ Domain.atom symbol :=
  (atom_ne_leaf symbol v).symm

@[simp]
theorem leaf_ne_num (v : Var) (value : Int) : leaf v ≠ Domain.num value :=
  (num_ne_leaf value v).symm

@[simp]
theorem leaf_ne_struct (v : Var) (symbol : Symbol) (args : List Tree) :
    leaf v ≠ Domain.struct symbol args := (struct_ne_leaf symbol args v).symm

/-! ### Unfolding -/

/-- What is seen of something that unfolds to a tree. -/
inductive View (α : Type) where
  | atom (symbol : Symbol)
  | num (value : Int)
  | var (v : Var)
  | struct (symbol : Symbol) (args : List α)

/-- A view as a level. -/
def View.level {α : Type} : View α → Level α
  | .atom symbol => ⟨.atom symbol, Fin.elim0⟩
  | .num value => ⟨.num value, Fin.elim0⟩
  | .var v => ⟨.var v, Fin.elim0⟩
  | .struct symbol args => ⟨.struct symbol args.length, args.get⟩

/-- The tree that something unfolds to. -/
def unfold {α : Type} (view : α → View α) : α → Tree := PFunctor.M.corec fun a ↦ (view a).level

/-- A tree unfolds level by level. -/
theorem unfold_eq {α : Type} (view : α → View α) (a : α) :
    unfold view a =
      match view a with
      | .atom symbol => Domain.atom symbol
      | .num value => Domain.num value
      | .var v => leaf v
      | .struct symbol args => Domain.struct symbol (args.map (unfold view)) := by
  rw [unfold, PFunctor.M.corec_def]
  have nothing (f : Fin 0 → α) : PFunctor.M.corec (fun a ↦ (view a).level) ∘ f = Fin.elim0 :=
    funext fun i ↦ i.elim0
  cases view a with
  | atom symbol => exact congrArg (ofLevel (.atom symbol)) (nothing _)
  | num value => exact congrArg (ofLevel (.num value)) (nothing _)
  | var v => exact congrArg (ofLevel (.var v)) (nothing _)
  | struct symbol args =>
    refine Eq.trans ?_ (struct_eq_ofLevel (List.length_map _) symbol).symm
    refine congrArg (ofLevel (.struct symbol args.length)) (funext fun i ↦ ?_)
    exact (List.getElem_map _).symm

end Tree

/-! ### Finite trees -/

namespace Term

/-- A term as a tree. -/
noncomputable def tree (term : Term) : Tree := term.eval Tree.leaf

/-- Terms with equal trees are equal. -/
theorem tree_injective {term other : Term} (same : term.tree = other.tree) : term = other := by
  induction term generalizing other with
  | var v => cases other <;> simp_all [tree]
  | atom symbol => cases other <;> simp_all [tree]
  | num value => cases other <;> simp_all [tree]
  | struct symbol args ih =>
    cases other with
    | var | atom | num => simp [tree] at same
    | struct symbol others =>
      rw [tree, tree, eval_struct, eval_struct, Domain.struct_inj] at same
      obtain ⟨rfl, same⟩ := same
      have pairs := @forall₂_of_map_eq _ _ _ _ _ _ _ same (· = ·) fun arg member other _ ↦
        ih arg member
      rw [List.forall₂_eq_eq_eq] at pairs
      rw [pairs]

end Term

namespace Tree

/-- The size of a finite tree. -/
noncomputable def size (tree : Tree) : Nat :=
  open Classical in if finite : ∃ term : Term, term.tree = tree then finite.choose.size else 0

private theorem size_tree (term : Term) : size term.tree = term.size := by
  have finite : ∃ other : Term, other.tree = term.tree := ⟨term, rfl⟩
  rw [size, dif_pos finite, Term.tree_injective finite.choose_spec]

/-- The trees of terms are finite. -/
noncomputable def sizes : Domain.Sizes Tree where
  Finite tree := ∃ term : Term, term.tree = tree
  size := size
  arg {symbol args arg} finite member := by
    obtain ⟨term, whole⟩ := finite
    cases term with
    | var | atom | num => simp [Term.tree] at whole
    | struct name terms =>
      have split := whole
      rw [Term.tree, Term.eval_struct, Domain.struct_inj] at split
      obtain ⟨rfl, rfl⟩ := split
      obtain ⟨term, inside, rfl⟩ := List.mem_map.1 member
      refine ⟨⟨term, rfl⟩, ?_⟩
      rw [← whole, ← Term.tree, size_tree, size_tree]
      exact Term.size_lt_of_mem inside

end Tree
end HornMachine
