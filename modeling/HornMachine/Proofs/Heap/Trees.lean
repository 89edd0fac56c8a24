import HornMachine.Proofs.Heap.Faults
import HornMachine.Proofs.Term.Variant

/-!
# Heaps unfold to trees

Every address of a well-formed heap unfolds to a tree, also where structures reach themselves. Main
statements: these trees solve the heap, with given terms for its unbound cells
(`Formed.solution_filled`); and the terms read from some addresses one after another, where they can
be read, show what the solutions of the heap have in common at these addresses
(`describes_extractEach`).
-/

namespace HornMachine.Heap

variable {heap : Heap} {admitted : Functor → Prop} {missing : Nat} (free : Address → Term)
  (names : Address → Var)

/-- What is seen of a term. -/
def viewTerm : Term → Tree.View (Address ⊕ Term)
  | .var v => .var v
  | .atom symbol => .atom symbol
  | .num value => .num value
  | .struct symbol args => .struct symbol (args.map .inr)

/-- What is seen at an address once references are followed, or of a term, with terms for unbound
cells. -/
def view (heap : Heap) (free : Address → Term) : Address ⊕ Term → Tree.View (Address ⊕ Term)
  | .inl address =>
    match heap.value address with
    | .error _ => viewTerm (free address)
    | .ok (found, .unbound) => viewTerm (free found)
    | .ok (_, .compound functor header) =>
      .struct functor.symbol ((arguments functor header).map .inl)
    | .ok (_, .atom symbol) => .atom symbol
    | .ok (_, .num value) => .num value
  | .inr term => viewTerm term

/-- The trees that addresses unfold to, with terms for the unbound cells. -/
noncomputable def filled (heap : Heap) (free : Address → Term) : Valuation Tree :=
  fun address ↦ Tree.unfold (heap.view free) (.inl address)

/-- The trees that addresses unfold to, with names for the unbound cells. -/
noncomputable def trees (heap : Heap) (names : Address → Var) : Valuation Tree :=
  heap.filled fun address ↦ .var (names address)

private theorem unfold_inr (heap : Heap) (term : Term) :
    Tree.unfold (heap.view free) (.inr term) = term.tree := by
  induction term with
  | var v | atom symbol | num value => simp [Tree.unfold_eq, view, viewTerm, Term.tree]
  | struct symbol args ih =>
    rw [Tree.unfold_eq, Term.tree, Term.eval_struct]
    simp only [view, viewTerm, List.map_map]
    exact congrArg _ (List.map_congr_left fun arg member ↦ ih arg member)

private theorem filled_eq_of_value {a b : Address} (same : heap.value a = heap.value b)
    {found : Address} {value : Value} (read : heap.value a = .ok (found, value)) :
    heap.filled free a = heap.filled free b := by
  rw [filled, filled, Tree.unfold_eq, Tree.unfold_eq, view, view, ← same, read]
  cases value <;> rfl

theorem filled_of_unbound {address found : Address}
    (read : heap.value address = .ok (found, .unbound)) :
    heap.filled free address = (free found).tree := by
  rw [filled, ← unfold_inr free heap, Tree.unfold_eq, Tree.unfold_eq, view, view, read]

private theorem filled_of_compound {address found header : Address} {functor : Functor}
    (read : heap.value address = .ok (found, .compound functor header)) :
    heap.filled free address =
      Domain.struct functor.symbol ((arguments functor header).map (heap.filled free)) := by
  rw [filled, Tree.unfold_eq, view, read]
  simp only [List.map_map]
  rfl

/-- The trees solve a well-formed heap. -/
theorem Formed.solution_filled (formed : heap.Formed admitted missing) :
    heap.Solution (heap.filled free) := by
  intro address cell here
  obtain ⟨found, value, read⟩ := formed.exists_value (lt_size_of_getElem? here)
  have ends (other : ∀ target, cell ≠ .ref target) : heap.deref address = .ok address := by
    rw [deref, derefWithin, cell_eq_ok_iff.2 here]
    cases cell with
    | ref target => exact absurd rfl (other target)
    | str _ | functor _ | atom _ | num _ => rfl
  cases cell with
  | ref target =>
    by_cases own : target = address
    · rw [own]
      exact rfl
    · exact filled_eq_of_value free (formed.value_ref here own) read
  | str header =>
    obtain ⟨functor, at_header⟩ := formed.str address header here
    have at_address : heap.value address = .ok (address, .compound functor header) :=
      value_eq_ok_iff.2 ⟨ends (by simp), at_header, .inl here⟩
    have ends_header : heap.deref header = .ok header := by
      rw [deref, derefWithin, cell_eq_ok_iff.2 at_header]
      rfl
    have own : heap.value header = .ok (header, .compound functor header) :=
      value_eq_ok_iff.2 ⟨ends_header, at_header, .inr rfl⟩
    rw [Cell.Holds, filled_of_compound free at_address, filled_of_compound free own]
  | functor functor =>
    exact filled_of_compound free (value_eq_ok_iff.2 ⟨ends (by simp), here, .inr rfl⟩)
  | atom symbol =>
    have own : heap.value address = .ok (address, .atom symbol) :=
      value_eq_ok_iff.2 ⟨ends (by simp), here⟩
    rw [Cell.Holds, filled, Tree.unfold_eq, view, own]
  | num number =>
    have own : heap.value address = .ok (address, .num number) :=
      value_eq_ok_iff.2 ⟨ends (by simp), here⟩
    rw [Cell.Holds, filled, Tree.unfold_eq, view, own]

theorem Formed.solution_trees (formed : heap.Formed admitted missing) :
    heap.Solution (heap.trees names) :=
  formed.solution_filled _

/-- An address where an unbound cell is found stands for the name of the cell. -/
theorem trees_of_unbound {address found : Address}
    (read : heap.value address = .ok (found, .unbound)) :
    heap.trees names address = Tree.leaf (names found) :=
  (filled_of_unbound _ read).trans (Term.eval_var _ _)

theorem value_of_free {address : Address} (here : heap.cells[address]? = some (.ref address)) :
    heap.value address = .ok (address, .unbound) := by
  refine value_eq_ok_iff.2 ⟨?_, here⟩
  rw [deref, derefWithin, cell_eq_ok_iff.2 here]
  simp [Bind.bind, Except.bind]

/-- Solutions that agree at the unbound cells of a heap agree at all its cells. -/
theorem Formed.solution_ext {D : Type} [Domain D] (formed : heap.Formed admitted 0)
    {θ θ' : Valuation D} (one : heap.Solution θ) (two : heap.Solution θ')
    (unbound : ∀ address : Nat, heap.cells[address]? = some (.ref address) → θ address = θ' address)
    {address : Nat} (inside : address < heap.size) : θ address = θ' address := by
  refine Domain.eq_of_bisim (fun a b ↦ ∃ place : Nat, place < heap.size ∧ a = θ place ∧
    b = θ' place) ?_ _ _
    ⟨address, inside, rfl, rfl⟩
  rintro _ _ ⟨place, lower, rfl, rfl⟩
  obtain ⟨found, value, read⟩ := formed.exists_value lower
  obtain ⟨first, first_stands⟩ := one.value read
  obtain ⟨second, second_stands⟩ := two.value read
  cases value with
  | unbound => exact .inl (by rw [first, second, unbound found (value_eq_ok_iff.1 read).2])
  | atom symbol | num value => exact .inl (by rw [first, second, first_stands, second_stands]; rfl)
  | compound functor header =>
    refine .inr ⟨functor.symbol, _, _, first.trans first_stands, second.trans second_stands, ?_⟩
    obtain ⟨-, bound⟩ := formed.functor header functor (value_eq_ok_iff.1 read).2.1
    rw [List.forall₂_map_left_iff, List.forall₂_map_right_iff, List.forall₂_same]
    intro argument member
    obtain ⟨-, below⟩ := mem_arguments_iff.1 member
    exact ⟨argument, by omega, rfl, rfl⟩

/-- Addresses unfold to the same trees when cells are added. -/
theorem Formed.filled_of_grown {later : Heap} (formed : heap.Formed admitted 0)
    (grown : later.Formed admitted missing)
    (kept : ∀ address : Nat, address < heap.size → later.cells[address]? = heap.cells[address]?)
    {address : Nat} (inside : address < heap.size) :
    later.filled free address = heap.filled free address := by
  have still {place : Nat} {cell : Cell} (here : heap.cells[place]? = some cell) :
      later.cells[place]? = some cell := (kept place (lt_size_of_getElem? here)).trans here
  refine formed.solution_ext (fun place cell here ↦
    grown.solution_filled free place cell (still here))
    (formed.solution_filled free) (fun place here ↦ ?_) inside
  rw [filled_of_unbound free (value_of_free here),
    filled_of_unbound free (value_of_free (still here))]

/-! ### Reading several addresses -/

/-- Read addresses one after another, with names for unbound cells that all of the reads share. -/
def extractEach (heap : Heap) : List Address → VarNames → List (Except Fault Term)
  | [], _ => []
  | address :: addresses, names =>
    let (result, names) := heap.extractNamed address names
    result :: heap.extractEach addresses names

/-- The names after a read. -/
def lastNames {α : Type} : EStateM.Result Fault VarNames α → VarNames
  | .ok _ names => names
  | .error _ names => names

theorem keeps_mapM {read : Address → Extract Term} {addresses : List Address}
    (each : ∀ address ∈ addresses, ∀ names : VarNames, names.Proper heap →
      (lastNames (read address names)).Proper heap ∧ names.Keeps (lastNames (read address names)))
    {names : VarNames} (proper : names.Proper heap) :
    (lastNames (addresses.mapM read names)).Proper heap ∧
      names.Keeps (lastNames (addresses.mapM read names)) := by
  induction addresses generalizing names with
  | nil => exact ⟨proper, .refl _⟩
  | cons address addresses ih =>
    obtain ⟨here, later⟩ := List.forall_mem_cons.1 each
    have first := here names proper
    rw [List.mapM_cons, bind_apply]
    cases ended : read address names with
    | error fault next =>
      rw [ended] at first
      exact first
    | ok term next =>
      rw [ended] at first
      obtain ⟨still, keeps⟩ : next.Proper heap ∧ names.Keeps next := first
      have rest := ih later still
      simp only [bind_apply]
      cases others : addresses.mapM read next with
      | error fault last =>
        rw [others] at rest
        exact ⟨rest.1, keeps.trans rest.2⟩
      | ok terms last =>
        rw [others] at rest
        exact ⟨rest.1, keeps.trans rest.2⟩

/-- Names stay proper and are kept by a read, also by one that stops at a fault. -/
theorem keeps_extractBelow (path : Std.TreeSet Address) (address : Address) {names : VarNames}
    (proper : names.Proper heap) :
    (lastNames (heap.extractBelow path address names)).Proper heap ∧
      names.Keeps (lastNames (heap.extractBelow path address names)) := by
  fun_induction heap.extractBelow path address generalizing names with
  | case1 | case3 | case4 | case5 => exact ⟨proper, .refl _⟩
  | case2 path address found read =>
    obtain ⟨still, keeps, -⟩ := proper.name (value_eq_ok_iff.1 read).2
    exact ⟨still, keeps⟩
  | case6 path address found functor header read _ ih =>
    let read := heap.extractBelow (path.insert header)
    have inner : (lastNames ((arguments functor header).mapM read names)).Proper heap ∧ _ :=
      keeps_mapM (fun argument _ _ proper ↦ ih argument proper) proper
    simp only [bind_apply]
    cases ended : (arguments functor header).mapM read names with
    | error fault last =>
      rw [ended] at inner
      exact inner
    | ok args last =>
      rw [ended] at inner
      exact inner

/-- What a read gives: a term with atoms for its structures without arguments, or the fault of a
cyclic term. -/
def readOf : Option Term → Except Fault Term
  | some raw => .ok raw.collapse
  | none => .error .cyclicTerm

/-- With the values of the names a term is what the address stands for; without a term nothing
finite stands there. -/
def ReadsAs (heap : Heap) (admitted : Functor → Prop) (names : VarNames) (address : Address) :
    Option Term → Prop
  | some raw => raw.AllFunctors admitted ∧
      ∀ θ : Valuation Tree, heap.Solution θ → ∀ β, names.Stands θ β → θ address = raw.eval β
  | none => ∀ θ : Valuation Tree, heap.Solution θ → ∀ term : Term, θ address ≠ term.tree

/-- Where all structures have arguments, the term read is the one that stands there. -/
theorem readOf_of_readsAs (kinds : ∀ functor, admitted functor → 0 < functor.arity)
    {names : VarNames}
    {address : Address} {raw : Option Term} (reads : heap.ReadsAs admitted names address raw) :
    readOf raw = raw.elim (.error .cyclicTerm) .ok := by
  cases raw with
  | none => rfl
  | some raw => exact congrArg Except.ok (Term.Canonical.collapse (reads.1.mono kinds))

theorem ReadsAs.mono {names later : VarNames} (keeps : names.Keeps later) {address : Address}
    {raw : Option Term} (reads : heap.ReadsAs admitted names address raw) :
    heap.ReadsAs admitted later address raw := by
  cases raw with
  | some raw =>
    exact ⟨reads.1, fun θ solution β stands ↦ reads.2 θ solution β (keeps.stands stands)⟩
  | none => exact reads

section

variable (formed : heap.Formed admitted 0)

include formed

theorem readsAs_extractNamed {address : Nat} (inside : address < heap.size) {names : VarNames}
    (proper : names.Proper heap) :
    (heap.extractNamed address names).2.Proper heap ∧
      names.Keeps (heap.extractNamed address names).2 ∧
      ∃ raw, (heap.extractNamed address names).1 = readOf raw ∧
        heap.ReadsAs admitted (heap.extractNamed address names).2 address raw := by
  have kept := keeps_extractBelow ∅ address proper
  have fails := formed.failsOnly_extractBelow ∅ inside names
  have finite (θ : Valuation Tree) (solution : heap.Solution θ) (term : Term)
    (same : θ address = term.tree) :
      ∃ found later, heap.extractNamed address names = (.ok found, later) :=
    formed.exists_extractNamed_of_finite solution Tree.sizes inside ⟨term, same.symm⟩ names
  rw [extractNamed] at finite ⊢
  simp only [EStateM.run] at finite ⊢
  cases ended : heap.extractBelow ∅ address names with
  | ok term later =>
    rw [ended] at kept
    obtain ⟨raws, same, kinds, reads⟩ := readsRaw_extractBelow formed proper ended
    obtain ⟨raw, rfl, rfl⟩ := List.map_eq_singleton_iff.1 same
    refine ⟨kept.1, kept.2, some raw, rfl, kinds raw (List.mem_singleton_self raw),
      fun θ solution β stands ↦ ?_⟩
    simpa using reads.eq θ solution β stands
  | error fault later =>
    rw [ended] at kept finite
    refine ⟨kept.1, kept.2, none, congrArg Except.error (fails _ _ ended),
      fun θ solution term same ↦ ?_⟩
    obtain ⟨found, last, read⟩ := finite θ solution term same
    cases read

private theorem readsAs_extractEach {addresses : List Address}
    (inside : ∀ address ∈ addresses, address < heap.size)
    {names : VarNames} (proper : names.Proper heap) :
    ∃ (later : VarNames) (raws : List (Option Term)), later.Proper heap ∧ names.Keeps later ∧
      heap.extractEach addresses names = raws.map readOf ∧
      List.Forall₂ (heap.ReadsAs admitted later) addresses raws := by
  induction addresses generalizing names with
  | nil => exact ⟨names, [], proper, .refl _, rfl, .nil⟩
  | cons address addresses ih =>
    obtain ⟨here, rest⟩ := List.forall_mem_cons.1 inside
    obtain ⟨still, keeps, raw, result, reads⟩ := readsAs_extractNamed formed here proper
    obtain ⟨last, raws, last_proper, last_keeps, results, others⟩ := ih rest still
    refine ⟨last, raw :: raws, last_proper, keeps.trans last_keeps, ?_,
      .cons (reads.mono last_keeps) others⟩
    rw [extractEach, List.map_cons, ← results, ← result]

/-- Reading addresses gives terms that show what the solutions of the heap have in common there, but
for structures without arguments. -/
theorem exists_describes_extractEach {addresses : List Address}
    (inside : ∀ address ∈ addresses, address < heap.size) {names : VarNames}
    (proper : names.Proper heap) :
    ∃ raws : List (Option Term), heap.extractEach addresses names = raws.map readOf ∧
      (∀ raw, some raw ∈ raws → raw.AllFunctors admitted) ∧
      Describes (fun trees ↦ ∃ θ : Valuation Tree, heap.Solution θ ∧
        trees = addresses.map θ) raws := by
  obtain ⟨later, raws, later_proper, -, results, reads⟩ := readsAs_extractEach formed inside proper
  refine ⟨raws, results, fun raw member ↦ ?_, ?_, ?_, ?_⟩
  · obtain ⟨length, each⟩ := List.forall₂_iff_get.1 reads
    obtain ⟨index, found⟩ := List.mem_iff_get.1 member
    have read := each index (by omega) index.2
    rw [found] at read
    exact read.1
  · rintro _ ⟨θ, solution, rfl⟩
    obtain ⟨β, stands⟩ := later_proper.exists_stands θ
    refine ⟨β, ?_⟩
    rw [List.forall₂_map_left_iff]
    refine reads.imp fun address result reads term found ↦ ?_
    subst found
    exact reads.2 θ solution β stands
  · let named (address : Address) : Var := (later.names[address]?).getD 0
    have solution := formed.solution_trees named
    have stands : later.Stands (heap.trees named) Tree.leaf := by
      intro address v given
      rw [trees_of_unbound named (value_of_free (later_proper.free address v given))]
      simp [named, given]
    refine ⟨addresses.map (heap.trees named), ⟨_, solution, rfl⟩, ?_⟩
    rw [List.forall₂_map_left_iff]
    refine reads.imp fun address result reads term found ↦ ?_
    subst found
    exact reads.2 _ solution _ stands
  · rintro _ ⟨θ, solution, rfl⟩
    rw [List.forall₂_map_left_iff]
    refine reads.imp fun address result reads missing ↦ ?_
    subst missing
    exact reads θ solution

/-- A read fails at cyclic terms only. -/
theorem eq_cyclicTerm_of_extractEach {addresses : List Address}
    (inside : ∀ address ∈ addresses, address < heap.size) {names : VarNames}
    (proper : names.Proper heap)
    {fault : Fault} (failed : .error fault ∈ heap.extractEach addresses names) :
    fault = .cyclicTerm := by
  obtain ⟨later, raws, -, -, results, -⟩ := readsAs_extractEach formed inside proper
  rw [results] at failed
  obtain ⟨raw, -, read⟩ := List.mem_map.1 failed
  cases raw with
  | some raw => cases read
  | none =>
    cases read
    rfl

/-- Where no functor is without arguments, the terms read show what the solutions of the heap have
in common. -/
theorem describes_extractEach (kinds : ∀ functor, admitted functor → 0 < functor.arity)
    {addresses : List Address} (inside : ∀ address ∈ addresses, address < heap.size)
    {names : VarNames} (proper : names.Proper heap) :
    Describes (fun trees ↦ ∃ θ : Valuation Tree, heap.Solution θ ∧ trees = addresses.map θ)
      ((heap.extractEach addresses names).map Except.toOption) := by
  obtain ⟨raws, results, all, describes⟩ := exists_describes_extractEach formed inside proper
  have same : (raws.map readOf).map Except.toOption = raws := by
    rw [List.map_map]
    refine (List.map_congr_left fun raw member ↦ ?_).trans (List.map_id' _)
    cases raw with
    | some raw => exact congrArg some (Term.Canonical.collapse ((all raw member).mono kinds))
    | none => rfl
  rwa [results, same]

end

end HornMachine.Heap
