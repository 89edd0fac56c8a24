import HornMachine.Proofs.Heap.Trees
import HornMachine.Proofs.Term.Numbering

/-!
# The term at an address

Where no cycle is reached from an address, a term stands there that has the unbound cells themselves
for its variables. A reading with names of its own numbers these cells in the order in which they
first occur. Main statement: reading an address gives its term numbered, and every solution of the
heap has the term at the address (`Formed.extract_shown`).
-/

namespace HornMachine

/-! ### Names in order -/

/-- Names that were given one after another from zero but for the reserved ones, with the variables
met on the way. -/
structure VarNames.Counts (names : VarNames) (heap : Heap) (met : List Var) : Prop where
  proper : names.Proper heap
  order : met.eraseDups = (List.range names.next).filter (· ∉ names.reserved)
  named : ∀ v ∈ met, ∃ address : Address, names.names[address]? = some v

namespace VarNames

/-- The search for a free name passes reserved ones only. -/
theorem mem_of_lt_firstFree {reserved : Std.TreeSet Var} {tries v w : Nat} (above : v ≤ w)
    (passed : w < firstFree reserved tries v) : w ∈ reserved := by
  induction tries generalizing v with
  | zero => exact absurd passed (Nat.not_lt.2 above)
  | succ tries ih =>
    rw [firstFree] at passed
    split at passed
    · next here =>
      by_cases same : w = v
      · rw [same]
        exact Std.TreeSet.mem_iff_contains.2 here
      · exact ih (by omega) passed
    · exact absurd passed (Nat.not_lt.2 above)

/-- Up to the free name that is found there is no other. -/
theorem filter_range_firstFree (names : VarNames) :
    (List.range (firstFree names.reserved names.reserved.size names.next)).filter
    (· ∉ names.reserved) =
      (List.range names.next).filter (· ∉ names.reserved) := by
  have above := le_firstFree names.reserved names.reserved.size names.next
  have passed (w : Nat) := @mem_of_lt_firstFree names.reserved names.reserved.size names.next w
  generalize firstFree names.reserved names.reserved.size names.next = v at above passed ⊢
  induction v, above using Nat.le_induction with
  | base => rfl
  | succ v above ih =>
    have last : v ∈ names.reserved := passed v above (Nat.lt_succ_self v)
    rw [List.range_succ, List.filter_append, ih fun w lower upper ↦
      passed w lower (Nat.lt_succ_of_lt upper)]
    simp [last]

namespace Counts

variable {names later : VarNames} {heap : Heap} {met : List Var}

theorem reserving (vars : List Var) (heap : Heap) : (VarNames.reserving vars).Counts heap [] :=
  ⟨proper_reserving vars heap, rfl, by simp⟩

theorem name (counts : names.Counts heap met) {address : Nat}
    (unbound : heap.cells[address]? = some (.ref address)) :
    (names.name address).2.Counts heap (met ++ [(names.name address).1]) := by
  obtain ⟨proper, keeps, given⟩ := counts.proper.name unbound
  refine ⟨proper, ?_, fun v member ↦ ?_⟩
  · rw [Term.eraseDups_concat, counts.order, keeps.reserved]
    have old (v : Nat) : v ∈ met ↔ v < names.next ∧ v ∉ names.reserved := by
      rw [← List.mem_eraseDups, counts.order, List.mem_filter, List.mem_range, decide_eq_true_eq]
    unfold VarNames.name
    cases known : names.names[address]? with
    | some v =>
      have before : v ∈ met :=
        (old v).2 ⟨counts.proper.below address v known, counts.proper.fresh address v known⟩
      simp [before]
    | none =>
      have above := le_firstFree names.reserved names.reserved.size names.next
      have free := firstFree_not_mem names.reserved names.next
      have same := filter_range_firstFree names
      generalize firstFree names.reserved names.reserved.size names.next = v at above free same
      have new : v ∉ met := fun member ↦ Nat.not_lt.2 above ((old v).1 member).1
      rw [List.range_succ, List.filter_append, same]
      simp [new, free]
  · obtain before | here := List.mem_append.1 member
    · obtain ⟨cell, known⟩ := counts.named v before
      exact ⟨cell, keeps.kept cell v known⟩
    · exact ⟨address, (List.mem_singleton.1 here) ▸ given⟩

theorem mapM {read : Address → Heap.Extract Term} {addresses : List Address}
    (each : ∀ address ∈ addresses, ∀ {names later : VarNames} {met : List Var} {term : Term},
      names.Counts heap met → read address names = .ok term later →
        later.Counts heap (met ++ term.occurrences))
    (counts : names.Counts heap met) {terms : List Term}
    (ended : addresses.mapM read names = .ok terms later) :
    later.Counts heap (met ++ terms.flatMap Term.occurrences) := by
  induction addresses generalizing names met terms with
  | nil =>
    cases ended
    simpa using counts
  | cons address addresses ih =>
    obtain ⟨here, rest⟩ := List.forall_mem_cons.1 each
    rw [List.mapM_cons] at ended
    obtain ⟨term, middle, first, others⟩ := bind_eq_ok.1 ended
    obtain ⟨terms, last, second, final⟩ := bind_eq_ok.1 others
    cases final
    rw [List.flatMap_cons, ← List.append_assoc]
    exact ih rest (here counts first) second

theorem extractBelow {path : Std.TreeSet Address} {address : Address} {term : Term}
    (counts : names.Counts heap met)
    (ended : heap.extractBelow path address names = .ok term later) :
    later.Counts heap (met ++ term.occurrences) := by
  fun_induction heap.extractBelow path address generalizing names later met term with
  | case1 | case5 => cases ended
  | case2 path address found read =>
    cases ended
    exact counts.name (Heap.value_eq_ok_iff.1 read).2
  | case3 | case4 =>
    cases ended
    simpa using counts
  | case6 path address found functor header read _ ih =>
    obtain ⟨args, last, args_read, final⟩ := bind_eq_ok.1 ended
    cases final
    have inner :=
      counts.mapM (fun argument _ _ _ _ _ counts read ↦ ih argument counts read) args_read
    rwa [Term.occurrences_apply, Term.occurrencesList_eq_flatMap]

theorem extractNamed {address : Address} {term : Term} (counts : names.Counts heap met)
    (ended : heap.extractNamed address names = (.ok term, later)) :
    later.Counts heap (met ++ term.occurrences) := by
  rw [Heap.extractNamed] at ended
  simp only [EStateM.run] at ended
  cases within : heap.extractBelow ∅ address names with
  | error fault last => simp [within] at ended
  | ok found last =>
    simp only [within, Prod.mk.injEq, Except.ok.injEq] at ended
    obtain ⟨rfl, rfl⟩ := ended
    exact counts.extractBelow within

end Counts

end VarNames

namespace Heap

variable {heap : Heap} {admitted : Functor → Prop} {address : Address}

/-! ### Terms with cells for variables -/

/-- The term at an address, with the unbound cells themselves for its variables. -/
def Shown (heap : Heap) (address : Address) (term : Term) : Prop :=
  heap.trees (fun cell ↦ cell) address = term.tree

/-- No structure that is reached from an address reaches itself. -/
def AcyclicAt (heap : Heap) (address : Address) : Prop :=
  ∀ found functor header inner, heap.value address = .ok (found, .compound functor header) →
    Relation.ReflTransGen heap.Contains header inner → ¬Relation.TransGen heap.Contains inner inner

/-- With the cells for their names, what was read at an address stands there. -/
theorem Reads.eval_cells {names later : VarNames} {read : Term}
    (reads : heap.Reads [address] [read] names later)
    {cell : Var → Address} (known : ∀ v ∈ read.occurrences, later.names[cell v]? = some v)
    {θ : Valuation Tree}
    (solution : heap.Solution θ) : θ address = (read.subst fun v ↦ .var (cell v)).eval θ := by
  obtain ⟨β, agrees⟩ := reads.proper.exists_stands θ
  have same := reads.eq θ solution β agrees
  simp only [List.map_cons, List.map_nil, List.cons.injEq, and_true] at same
  rw [same, Term.eval_subst]
  refine Term.eval_congr fun v occurs ↦ ?_
  rw [Term.eval_var]
  exact (agrees (cell v) v (known v occurs)).symm

/-- Going into structures, finite values become smaller. -/
theorem Solution.size_lt_of_path {θ : Valuation Tree} (solution : heap.Solution θ)
    {outer inner : Address}
    (path : Relation.TransGen heap.Contains outer inner) (finite : Tree.sizes.Finite (θ outer)) :
    Tree.sizes.Finite (θ inner) ∧ Tree.sizes.size (θ inner) < Tree.sizes.size (θ outer) := by
  have below {outer inner : Address} (contains : heap.Contains outer inner)
      (finite : Tree.sizes.Finite (θ outer)) :
      Tree.sizes.Finite (θ inner) ∧ Tree.sizes.size (θ inner) < Tree.sizes.size (θ outer) := by
    obtain ⟨functor, argument, found, other, at_outer, member, read⟩ := contains
    rw [← (solution.eq_header read).2]
    exact solution.arg Tree.sizes at_outer member finite
  induction path with
  | single contains => exact below contains finite
  | tail _ contains ih =>
    obtain ⟨inner_finite, smaller⟩ := below contains ih.1
    exact ⟨inner_finite, smaller.trans ih.2⟩

/-- Where a term stands no cycle is reached. -/
theorem Solution.acyclicAt {θ : Valuation Tree} (solution : heap.Solution θ) {term : Term}
    (finite : θ address = term.tree) : heap.AcyclicAt address := by
  intro found functor header inner read reached cycle
  have at_header : Tree.sizes.Finite (θ header) :=
    ⟨term, finite.symm.trans (solution.eq_header read).2⟩
  have at_inner : Tree.sizes.Finite (θ inner) := by
    obtain rfl | path := Relation.reflTransGen_iff_eq_or_transGen.1 reached
    · exact at_header
    · exact (solution.size_lt_of_path path at_header).1
  exact absurd (solution.size_lt_of_path cycle at_inner).2 (Nat.lt_irrefl _)

/-- With the cells for their names, what was read at an address stands there. -/
theorem ReadsAs.shown {names : VarNames} {raw : Term}
    (reads : heap.ReadsAs admitted names address (some raw))
    (proper : names.Proper heap) (formed : heap.Formed admitted 0) {cell : Var → Address}
    (known : ∀ v ∈ raw.occurrences, names.names[cell v]? = some v) :
    heap.Shown address (raw.subst fun v ↦ .var (cell v)) := by
  have solution := formed.solution_trees fun cell ↦ cell
  obtain ⟨β, stands⟩ := proper.exists_stands (heap.trees fun cell ↦ cell)
  rw [Shown, reads.2 _ solution β stands, Term.tree, Term.eval_subst]
  refine Term.eval_congr fun v occurs ↦ ?_
  have named := known v occurs
  rw [← stands (cell v) v named, trees_of_unbound _ (value_of_free (proper.free (cell v) v named))]
  exact (Term.eval_var _ _).symm

variable (formed : heap.Formed admitted 0)

include formed

/-- What stands at an address is finite if that is so for the structure found there. -/
theorem Formed.exists_tree (names : Address → Var) (inside : address < heap.size)
    (within : ∀ found functor header, heap.value address = .ok (found, .compound functor header) →
      ∃ term : Term, heap.trees names header = term.tree) :
    ∃ term : Term, heap.trees names address = term.tree := by
  obtain ⟨found, value, read⟩ := formed.exists_value inside
  have solution := formed.solution_trees names
  obtain ⟨same, stands⟩ := solution.value read
  cases value with
  | unbound => exact ⟨.var (names found), trees_of_unbound names read⟩
  | atom symbol => exact ⟨.atom symbol, same.trans (stands.trans (Term.eval_atom _ _).symm)⟩
  | num number => exact ⟨.num number, same.trans (stands.trans (Term.eval_num _ _).symm)⟩
  | compound functor header =>
    obtain ⟨term, finite⟩ := within found functor header read
    exact ⟨term, (solution.eq_header read).2.trans finite⟩

/-- Where no cycle is reached a term stands. -/
theorem Formed.exists_shown (inside : address < heap.size) (acyclic : heap.AcyclicAt address) :
    ∃ term, heap.Shown address term := by
  let names (cell : Address) : Var := cell
  refine formed.exists_tree names inside fun found functor header read ↦ ?_
  have accessible := acc_contains fun inner ↦ acyclic found functor header inner read
  have here := (value_eq_ok_iff.1 read).2.1
  clear read
  induction accessible generalizing functor with
  | intro header _ ih =>
    have whole : heap.trees names header =
        Domain.struct functor.symbol ((arguments functor header).map (heap.trees names)) :=
      formed.solution_trees names header _ here
    have each (argument : Address) : ∃ term : Term, argument ∈ arguments functor header →
        heap.trees names argument = term.tree := by
      by_cases member : argument ∈ arguments functor header
      · obtain ⟨term, same⟩ :=
          formed.exists_tree names (formed.lt_size_of_mem_arguments here member)
          fun found other inner read ↦ ih inner ⟨functor, argument, found, other, here,
            member, read⟩ other
            (value_eq_ok_iff.1 read).2.1
        exact ⟨term, fun _ ↦ same⟩
      · exact ⟨.num 0, fun inside ↦ absurd inside member⟩
    choose term same using each
    refine ⟨.struct functor.symbol ((arguments functor header).map term), ?_⟩
    rw [whole, Term.tree, Term.eval_struct, List.map_map]
    exact congrArg _ (List.map_congr_left fun argument member ↦ same argument member)

/-- The variables of a term that was read are names of cells, numbered in the order they were
met. -/
theorem Formed.exists_cells {read : Term} {names : VarNames} (inside : address < heap.size)
    (ended : heap.extractNamed address {} = (.ok read, names)) :
    names.Proper heap ∧ ∃ cell : Var → Address,
      (∀ v ∈ read.occurrences, names.names[cell v]? = some v) ∧
      (read.subst fun v ↦ .var (cell v)).numbered = read := by
  have counts : names.Counts heap read.occurrences :=
    (VarNames.Counts.reserving [] heap).extractNamed ended
  have kept := (readsAs_extractNamed formed inside (VarNames.proper_reserving [] heap)).2.1
  have unreserved : names.reserved = ∅ := by
    have same := kept.reserved
    rwa [show VarNames.reserving [] = {} from rfl, ended] at same
  choose! cell known using counts.named
  have injective : Set.InjOn cell {v | v ∈ read.vars} := by
    intro v v_inside w w_inside same
    have at_v := known v (Term.mem_vars.1 v_inside)
    rw [same, known w (Term.mem_vars.1 w_inside)] at at_v
    exact (Option.some.inj at_v).symm
  have order : read.vars = List.range names.next := by
    rw [Term.vars, Term.distinct_eq_eraseDups, counts.order, unreserved]
    simp
  exact ⟨counts.proper, cell, known, Term.numbered_rename order injective⟩

/-- Reading numbers the cells in the term at an address; they are unbound, and in all solutions this
term stands there. -/
theorem Formed.extract_shown (kinds : ∀ functor, admitted functor → 0 < functor.arity) {term : Term}
    (inside : address < heap.size) (shown : heap.Shown address term) :
    heap.extract address = .ok term.numbered ∧
      (∀ cell ∈ term.occurrences, heap.cells[cell]? = some (.ref cell)) ∧
      ∀ θ : Valuation Tree, heap.Solution θ → θ address = term.eval θ := by
  have solution := formed.solution_trees fun cell ↦ cell
  obtain ⟨read, names, ended⟩ :=
    formed.exists_extractNamed_of_finite solution Tree.sizes inside ⟨term, shown.symm⟩ {}
  have reads := reads_extractNamed kinds formed (VarNames.proper_reserving [] heap) ended
  obtain ⟨proper, cell, known, numbered⟩ := formed.exists_cells inside ended
  let renamed := read.subst fun v ↦ .var (cell v)
  have unbound (other : Address) (occurs : other ∈ renamed.occurrences) :
      heap.cells[other]? = some (.ref other) := by
    rw [Term.occurrences_rename] at occurs
    obtain ⟨v, inside, rfl⟩ := List.mem_map.1 occurs
    exact proper.free (cell v) v (known v inside)
  obtain rfl : term = renamed := by
    refine Term.tree_injective (shown.symm.trans ((reads.eval_cells known solution).trans ?_))
    exact Term.eval_congr fun other occurs ↦
      trees_of_unbound _ (value_of_free (unbound other occurs))
  refine ⟨?_, unbound, fun θ solution ↦ reads.eval_cells known solution⟩
  rw [extract, ended, numbered]

end Heap
end HornMachine
