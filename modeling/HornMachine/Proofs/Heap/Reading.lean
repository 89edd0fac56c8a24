import HornMachine.Builtin
import HornMachine.Proofs.Computation
import HornMachine.Proofs.Heap.Acyclic

/-!
# Terms read back from the heap

Reading names the unbound cells it meets. Different cells get different names, so a valuation of the
heap gives every name a value, and values for the names can be chosen freely on an acyclic heap.
Main statements: the term read, with these values for its variables, is what the address stands for;
on an acyclic heap reading ends well; and where a test finds a term not to be ground, an unbound
cell lies inside what the address stands for.
-/

namespace HornMachine

variable {D : Type} [Domain D]

/-! ### Names -/

namespace VarNames

/-- Names given to unbound cells of a heap, each to one cell; reserved names are not given. -/
structure Proper (names : VarNames) (heap : Heap) : Prop where
  free : ∀ (address : Nat) (v : Var), names.names[address]? = some v →
    heap.cells[address]? = some (.ref address)
  below : ∀ (address : Nat) (v : Nat), names.names[address]? = some v → v < names.next
  injective : ∀ (a b : Nat) (v : Var), names.names[a]? = some v → names.names[b]? = some v → a = b
  fresh : ∀ (address : Nat) (v : Var), names.names[address]? = some v → v ∉ names.reserved

/-- The values of names are those of the cells. -/
def Stands (names : VarNames) (θ : Valuation D) (β : Var → D) : Prop :=
  ∀ (address : Nat) (v : Var), names.names[address]? = some v → θ address = β v

/-- Later names keep those given before, and what is reserved. -/
structure Keeps (names later : VarNames) : Prop where
  kept : ∀ (address : Nat) (v : Var), names.names[address]? = some v →
    later.names[address]? = some v
  reserved : later.reserved = names.reserved

variable {names later last : VarNames} {heap : Heap} {θ : Valuation D} {β : Var → D}

theorem Keeps.refl (names : VarNames) : names.Keeps names := ⟨fun _ _ named ↦ named, rfl⟩

theorem Keeps.trans (one : names.Keeps later) (two : later.Keeps last) : names.Keeps last :=
  ⟨fun address v named ↦ two.kept address v (one.kept address v named),
    two.reserved.trans one.reserved⟩

omit [Domain D] in
theorem Keeps.stands (keeps : names.Keeps later) (stands : later.Stands θ β) : names.Stands θ β :=
  fun address v named ↦ stands address v (keeps.kept address v named)

theorem proper_reserving (vars : List Var) (heap : Heap) : (reserving vars).Proper heap :=
  ⟨by simp [reserving], by simp [reserving], by simp [reserving], by simp [reserving]⟩

/-- Every valuation gives the names values. -/
theorem Proper.exists_stands (proper : names.Proper heap) (θ : Valuation D) :
    ∃ β, names.Stands θ β := by
  classical
  refine ⟨fun v ↦ if named : ∃ address, names.names[address]? = some v then θ named.choose
    else default, fun address v here ↦ ?_⟩
  have named : ∃ address, names.names[address]? = some v := ⟨address, here⟩
  dsimp only
  rw [dif_pos named, proper.injective address named.choose v here named.choose_spec]

/-- On an acyclic heap the names can have any values. -/
theorem Proper.exists_solution (proper : names.Proper heap) {admitted : Functor → Prop}
    {missing : Nat} (formed : heap.Formed admitted missing) (acyclic : heap.Acyclic)
    (β : Var → D) : ∃ θ, heap.Solution θ ∧ names.Stands θ β := by
  obtain ⟨θ, solution, free⟩ := formed.exists_solution acyclic fun address ↦
    (names.names[address]?.map β).getD default
  refine ⟨θ, solution, fun address v named ↦ ?_⟩
  rw [free address (.inr (proper.free address v named)), named, Option.map_some, Option.getD_some]

/-- The variables of a term whose value the values of the cells settle are names of cells. -/
theorem Proper.exists_named (proper : names.Proper heap) {raw : Term}
    (settled : ∀ β γ : Var → D, names.Stands θ β → names.Stands θ γ → raw.eval β = raw.eval γ)
    {v : Var} (occurs : v ∈ raw.occurrences) : ∃ address : Nat, names.names[address]? = some v := by
  by_contra unnamed
  obtain ⟨β, stands⟩ := proper.exists_stands θ
  -- a variable without a cell could stand for anything
  have also (value : D) : names.Stands θ (Function.update β v value) := by
    intro address w named
    have other : w ≠ v := fun same ↦ unnamed ⟨address, same ▸ named⟩
    rw [Function.update_of_ne other]
    exact stands address w named
  have same :=
    Term.eval_eq_eval_iff.1 (settled _ _ (also (Domain.num 0)) (also (Domain.num 1))) v occurs
  rw [Function.update_self, Function.update_self, Domain.num_inj] at same
  cases same

theorem le_firstFree (reserved : Std.TreeSet Var) (tries v : Nat) :
    v ≤ firstFree reserved tries v := by
  induction tries generalizing v with
  | zero => exact Nat.le_refl _
  | succ tries ih =>
    rw [firstFree]
    split
    · exact Nat.le_trans (Nat.le_succ v) (ih (v + 1))
    · exact Nat.le_refl _

/-- A reserved name that is found was passed by no more names than are reserved. -/
theorem firstFree_not_mem (reserved : Std.TreeSet Var) (v : Nat) :
    firstFree reserved reserved.size v ∉ reserved := by
  have passed (tries v : Nat) (found : firstFree reserved tries v ∈ reserved) :
      ∀ distance ≤ tries, (v + distance : Nat) ∈ reserved := by
    induction tries generalizing v with
    | zero =>
      intro distance near
      rw [Nat.le_zero.1 near]
      exact found
    | succ tries ih =>
      rw [firstFree] at found
      split at found
      · next here =>
        intro distance near
        cases distance with
        | zero => exact Std.TreeSet.mem_iff_contains.2 here
        | succ distance =>
          rw [show v + (distance + 1) = v + 1 + distance by omega]
          exact ih (v + 1) found distance (Nat.le_of_succ_le_succ near)
      · next free => exact absurd (Std.TreeSet.mem_iff_contains.1 found) free
  intro found
  -- one name more than are reserved
  let names := (List.range (reserved.size + 1)).map (v + ·)
  have nodup : names.Nodup := List.nodup_range.map (add_right_injective v)
  have inside : names ⊆ reserved.toList := by
    intro name member
    obtain ⟨distance, near, rfl⟩ := List.mem_map.1 member
    exact Std.TreeSet.mem_toList.2
      (passed _ v found distance (Nat.le_of_lt_succ (List.mem_range.1 near)))
  have few := (nodup.subperm inside).length_le
  rw [Std.TreeSet.length_toList, List.length_map, List.length_range] at few
  omega

/-- Naming a cell keeps names proper. -/
theorem Proper.name (proper : names.Proper heap) {address : Nat}
    (unbound : heap.cells[address]? = some (.ref address)) :
    (names.name address).2.Proper heap ∧ names.Keeps (names.name address).2 ∧
      (names.name address).2.names[address]? = some (names.name address).1 := by
  unfold VarNames.name
  split
  · next v known => exact ⟨proper, .refl _, known⟩
  · next unknown =>
    have new : names.next ≤ firstFree names.reserved names.reserved.size names.next :=
      le_firstFree _ _ _
    have free := firstFree_not_mem names.reserved names.next
    generalize firstFree names.reserved names.reserved.size names.next = v at new free ⊢
    have named {other : Nat} {w : Var} :
        (names.names.insert address v)[other]? = some w ↔
          (other = address ∧ w = v) ∨ names.names[other]? = some w := by
      simp only [Std.TreeMap.getElem?_insert, Std.LawfulEqCmp.compare_eq_iff_eq]
      by_cases same : address = other
      · subst same
        simp [unknown, eq_comm]
      · simp [same, Ne.symm same]
    refine ⟨⟨fun other w here ↦ ?_, fun other w here ↦ ?_, fun a b w one two ↦ ?_,
      fun other w here ↦ ?_⟩,
      ⟨fun other w here ↦ named.2 (.inr here), rfl⟩, named.2 (.inl ⟨rfl, rfl⟩)⟩
    · rcases named.1 here with ⟨rfl, -⟩ | older
      · exact unbound
      · exact proper.free other w older
    · rcases named.1 here with ⟨-, rfl⟩ | older
      · exact Nat.lt_succ_self _
      · exact Nat.lt_succ_of_lt (Nat.lt_of_lt_of_le (proper.below other w older) new)
    · have fresh {other : Nat} (older : names.names[other]? = some v) : False :=
        Nat.lt_irrefl _ (Nat.lt_of_lt_of_le (proper.below other v older) new)
      rcases named.1 one with ⟨rfl, rfl⟩ | older
      · rcases named.1 two with ⟨same, -⟩ | older
        · exact same.symm
        · exact (fresh older).elim
      · rcases named.1 two with ⟨rfl, rfl⟩ | older_two
        · exact (fresh older).elim
        · exact proper.injective a b w older older_two
    · rcases named.1 here with ⟨-, rfl⟩ | older
      · exact free
      · exact proper.fresh other w older

end VarNames

/-! ### Reading -/

namespace Heap

/-- Terms read from addresses, with the names given meanwhile: with the values of the names they are
what the addresses stand for. -/
structure Reads (heap : Heap) (addresses : List Address) (terms : List Term)
    (names later : VarNames) : Prop where
  proper : later.Proper heap
  keeps : names.Keeps later
  eq : ∀ {D : Type} [Domain D] (θ : Valuation D), heap.Solution θ → ∀ β, later.Stands θ β →
    addresses.map θ = terms.map (Term.eval β)

variable {heap : Heap} {admitted : Functor → Prop}

theorem Reads.nil {names : VarNames} (proper : names.Proper heap) :
    heap.Reads [] [] names names :=
  ⟨proper, .refl _, fun _ _ _ _ ↦ rfl⟩

theorem Reads.cons {address : Address} {term : Term} {addresses : List Address} {terms : List Term}
    {names later last : VarNames} (one : heap.Reads [address] [term] names later)
    (two : heap.Reads addresses terms later last) :
    heap.Reads (address :: addresses) (term :: terms) names last := by
  refine ⟨two.proper, one.keeps.trans two.keeps, fun θ solution β stands ↦ ?_⟩
  have first := one.eq θ solution β (two.keeps.stands stands)
  simp only [List.map_cons, List.map_nil, List.cons.injEq, and_true] at first
  rw [List.map_cons, List.map_cons, first, two.eq θ solution β stands]

/-- Where a heap has a solution, the variables of what is read are names of its cells. -/
theorem Reads.exists_named {addresses : List Address} {terms : List Term} {names later : VarNames}
    (reads : heap.Reads addresses terms names later) {θ : Valuation Term}
    (solution : heap.Solution θ)
    {term : Term} (member : term ∈ terms) {v : Var} (occurs : v ∈ term.occurrences) :
    ∃ address : Nat, later.names[address]? = some v := by
  refine reads.proper.exists_named (θ := θ) (fun β γ stands also ↦ ?_) occurs
  exact List.map_inj_left.1 ((reads.eq θ solution β stands).symm.trans (reads.eq θ solution γ also))
    term member

/-- What is read are the terms that the addresses stand for, but for structures without arguments:
an atom is read in their place. -/
def ReadsRaw (heap : Heap) (admitted : Functor → Prop) (addresses : List Address)
    (terms : List Term) (names later : VarNames) : Prop :=
  ∃ raws : List Term, raws.map Term.collapse = terms ∧ (∀ raw ∈ raws, raw.AllFunctors admitted) ∧
    heap.Reads addresses raws names later

theorem ReadsRaw.nil {names : VarNames} (proper : names.Proper heap) :
    heap.ReadsRaw admitted [] [] names names :=
  ⟨[], rfl, by simp, .nil proper⟩

theorem ReadsRaw.cons {address : Address} {term : Term} {addresses : List Address}
    {terms : List Term}
    {names later last : VarNames} (one : heap.ReadsRaw admitted [address] [term] names later)
    (two : heap.ReadsRaw admitted addresses terms later last) :
    heap.ReadsRaw admitted (address :: addresses) (term :: terms) names last := by
  obtain ⟨raws, same, kinds, first⟩ := one
  obtain ⟨raw, rfl, rfl⟩ := List.map_eq_singleton_iff.1 same
  obtain ⟨more, rfl, more_kinds, rest⟩ := two
  exact ⟨raw :: more, rfl,
    List.forall_mem_cons.2 ⟨kinds raw (List.mem_singleton_self raw), more_kinds⟩, first.cons rest⟩

theorem ReadsRaw.proper {addresses : List Address} {terms : List Term} {names later : VarNames}
    (raw : heap.ReadsRaw admitted addresses terms names later) : later.Proper heap := by
  obtain ⟨_, -, -, reads⟩ := raw
  exact reads.proper

private theorem readsRaw_mapM {read : Address → Extract Term} {addresses : List Address}
    (each : ∀ address ∈ addresses, ∀ (names later : VarNames) (term : Term), names.Proper heap →
      read address names = .ok term later → heap.ReadsRaw admitted [address] [term] names later)
    {names later : VarNames} (proper : names.Proper heap) {terms : List Term}
    (ended : addresses.mapM read names = .ok terms later) :
    heap.ReadsRaw admitted addresses terms names later := by
  induction addresses generalizing names terms with
  | nil =>
    cases ended
    exact .nil proper
  | cons address addresses ih =>
    rw [List.mapM_cons] at ended
    obtain ⟨term, middle, first, rest⟩ := bind_eq_ok.1 ended
    obtain ⟨others, last, second, final⟩ := bind_eq_ok.1 rest
    cases final
    have one := each address List.mem_cons_self names middle term proper first
    exact one.cons (ih (fun other member ↦ each other (List.mem_cons_of_mem _ member))
      one.proper second)

theorem readsRaw_extractBelow {missing : Nat} (formed : heap.Formed admitted missing)
    {path : Std.TreeSet Address} {address : Address} {names later : VarNames}
    (proper : names.Proper heap)
    {term : Term} (ended : heap.extractBelow path address names = .ok term later) :
    heap.ReadsRaw admitted [address] [term] names later := by
  have stands {address found : Address} {value : Value}
    (read : heap.value address = .ok (found, value))
      {D : Type} [Domain D] (θ : Valuation D) (solution : heap.Solution θ) :
      θ address = value.stands θ found := by
    obtain ⟨same, shown⟩ := solution.value read
    exact same.trans shown
  fun_induction heap.extractBelow path address generalizing names later term with
  | case1 | case5 => cases ended
  | case2 path address found read =>
    have given : Extract.name found names = .ok (names.name found).1 (names.name found).2 := rfl
    simp only [map_apply, given] at ended
    cases ended
    obtain ⟨still, keeps, named⟩ := proper.name (value_eq_ok_iff.1 read).2
    refine ⟨[.var _], rfl, by simp [Term.AllFunctors], still, keeps,
      fun θ solution β names_stand ↦ ?_⟩
    have own : θ found = β (names.name found).1 := names_stand found _ named
    simp [stands read θ solution, Value.stands, own]
  | case3 path address found symbol read =>
    cases ended
    exact ⟨[.atom symbol], rfl, by simp [Term.AllFunctors], proper, .refl _,
      fun θ solution β _ ↦ by simp [stands read θ solution, Value.stands]⟩
  | case4 path address found number read =>
    cases ended
    exact ⟨[.num number], rfl, by simp [Term.AllFunctors], proper, .refl _,
      fun θ solution β _ ↦ by simp [stands read θ solution, Value.stands]⟩
  | case6 path address found functor header read _ ih =>
    obtain ⟨args, last, args_read, final⟩ := bind_eq_ok.1 ended
    cases final
    obtain ⟨raws, rfl, kinds, inner⟩ :=
      readsRaw_mapM (fun argument _ _ _ _ proper ended ↦ ih argument proper ended) proper args_read
    obtain ⟨kind, -⟩ := formed.functor header functor (value_eq_ok_iff.1 read).2.1
    -- the raw terms are as many as the functor has arguments
    have count : raws.length = functor.arity := by
      simpa [arguments] using (exists_of_mapM args_read).1
    refine ⟨[.struct functor.symbol raws], ?_, ?_, inner.proper, inner.keeps,
      fun θ solution β names_stand ↦ ?_⟩
    · rw [List.map_singleton, Term.collapse_struct]
    · rw [List.forall_mem_singleton, Term.allFunctors_struct, count]
      exact ⟨kind, kinds⟩
    · have values := inner.eq θ solution β names_stand
      simp [stands read θ solution, Value.stands, values]

/-- Where no functor is without arguments, the terms read are those that the addresses stand for. -/
theorem ReadsRaw.reads (kinds : ∀ functor, admitted functor → 0 < functor.arity)
    {addresses : List Address} {terms : List Term} {names later : VarNames}
    (raw : heap.ReadsRaw admitted addresses terms names later) :
    heap.Reads addresses terms names later := by
  obtain ⟨raws, rfl, all, reads⟩ := raw
  have same : raws.map Term.collapse = raws :=
    (List.map_congr_left fun term member ↦
      Term.Canonical.collapse ((all term member).mono kinds)).trans
      (List.map_id' _)
  rwa [same]

theorem readsRaw_extractNamed {missing : Nat} (formed : heap.Formed admitted missing)
    {address : Address} {names later : VarNames} (proper : names.Proper heap) {term : Term}
    (ended : heap.extractNamed address names = (.ok term, later)) :
    heap.ReadsRaw admitted [address] [term] names later := by
  unfold extractNamed at ended
  generalize run : (heap.extractBelow ∅ address).run names = result at ended
  cases result with
  | error fault last => cases ended
  | ok found last =>
    cases ended
    exact readsRaw_extractBelow formed proper run

theorem reads_extractNamed (kinds : ∀ functor, admitted functor → 0 < functor.arity)
    {missing : Nat} (formed : heap.Formed admitted missing) {address : Address}
    {names later : VarNames} (proper : names.Proper heap) {term : Term}
    (ended : heap.extractNamed address names = (.ok term, later)) :
    heap.Reads [address] [term] names later :=
  (readsRaw_extractNamed formed proper ended).reads kinds

/-! ### Reading ends well -/

/-- The headers passed on the way to an address that stands for something finite all stand for more,
so no structure is met again. -/
theorem Formed.exists_extractBelow {θ : Valuation D} (solution : heap.Solution θ)
    (formed : heap.Formed admitted 0) {sizes : Domain.Sizes D} {path : Std.TreeSet Address}
    {address : Nat} (inside : address < heap.size) (finite : sizes.Finite (θ address))
    (above : ∀ header ∈ path, sizes.size (θ address) < sizes.size (θ header)) (names : VarNames) :
    ∃ term later, heap.extractBelow path address names = .ok term later := by
  fun_induction heap.extractBelow path address generalizing names with
  | case1 path address fault read =>
    obtain ⟨found, value, other⟩ := formed.exists_value inside
    cases read.symm.trans other
  | case2 | case3 | case4 => exact ⟨_, _, rfl⟩
  | case5 path address found functor header read passed =>
    have more := above header passed
    rw [(solution.eq_header read).2] at more
    exact absurd more (Nat.lt_irrefl _)
  | case6 path address found functor header read _ ih =>
    obtain ⟨at_header, same⟩ := solution.eq_header read
    rw [same] at finite above
    obtain ⟨args, later, args_read⟩ := exists_mapM_ok (fun argument member names ↦ by
      obtain ⟨argument_finite, smaller⟩ := solution.arg sizes at_header member finite
      refine ih argument (formed.argument_lt read member) argument_finite
        (fun other passed ↦ ?_) names
      rcases mem_insert_iff.1 passed with rfl | earlier
      · exact smaller
      · exact Nat.lt_trans smaller (above other earlier)) names
    exact ⟨_, later, bind_eq_ok.2 ⟨args, later, args_read, rfl⟩⟩

/-- Every address that stands for something finite can be read. -/
theorem Formed.exists_extractNamed_of_finite {θ : Valuation D} (solution : heap.Solution θ)
    (formed : heap.Formed admitted 0) (sizes : Domain.Sizes D) {address : Nat}
    (inside : address < heap.size) (finite : sizes.Finite (θ address)) (names : VarNames) :
    ∃ term later, heap.extractNamed address names = (.ok term, later) := by
  obtain ⟨term, later, run⟩ : ∃ term later, (heap.extractBelow ∅ address).run names =
    .ok term later :=
    formed.exists_extractBelow solution inside finite (by simp) names
  exact ⟨term, later, by rw [extractNamed, run]⟩

/-- Every address of an acyclic heap can be read. -/
theorem Formed.exists_extractNamed [Sized D] {θ : Valuation D} (solution : heap.Solution θ)
    (formed : heap.Formed admitted 0) {address : Nat} (inside : address < heap.size)
    (names : VarNames) : ∃ term later, heap.extractNamed address names = (.ok term, later) :=
  formed.exists_extractNamed_of_finite solution (.ofSized D) inside trivial names

/-! ### Groundness -/

/-- An unbound cell lies inside what one of the addresses stands for. -/
def Open (D : Type) [Domain D] (heap : Heap) (addresses : List Address) : Prop :=
  ∃ free : Nat, heap.cells[free]? = some (.ref free) ∧ ∃ address ∈ addresses,
    ∀ θ : Valuation D, heap.Solution θ → Domain.Part (θ free) (θ address)

private theorem open_of_isGroundBelow {path : Std.TreeSet Address} {address : Address}
    (ended : heap.isGroundBelow path address = .ok false) : heap.Open D [address] := by
  have stands {address found : Address} {value : Value}
    (read : heap.value address = .ok (found, value))
      (θ : Valuation D) (solution : heap.Solution θ) : θ address = value.stands θ found := by
    obtain ⟨same, shown⟩ := solution.value read
    exact same.trans shown
  fun_induction heap.isGroundBelow path address with
  | case1 | case3 | case4 | case5 => cases ended
  | case2 path address found read =>
    refine ⟨found, (value_eq_ok_iff.1 read).2, address, List.mem_singleton_self _,
      fun θ solution ↦ ?_⟩
    rw [stands read θ solution]
    exact .refl
  | case6 path address found functor header read _ ih =>
    obtain ⟨argument, member, inner⟩ := Except.exists_of_allM ended
    obtain ⟨free, unbound, other, same, part⟩ := ih argument inner
    cases List.mem_singleton.1 same
    refine ⟨free, unbound, address, List.mem_singleton_self _, fun θ solution ↦ ?_⟩
    rw [stands read θ solution]
    exact .arg (List.mem_map_of_mem member) (part θ solution)

private theorem isGround_of_mapM {read : Address → Extract Term}
    {test : Address → Except Fault Bool} {addresses : List Address}
    (each : ∀ address ∈ addresses, ∀ (names later : VarNames) (term : Term),
      test address = .ok true → read address names = .ok term later → term.isGround = true)
    {names later : VarNames} {terms : List Term} (ground : addresses.allM test = .ok true)
    (ended : addresses.mapM read names = .ok terms later) :
    ∀ term ∈ terms, term.isGround = true := by
  induction addresses generalizing names terms with
  | nil =>
    cases ended
    simp
  | cons address addresses ih =>
    rw [List.allM] at ground
    obtain ⟨holds, first_ground, rest_ground⟩ := Except.bind_eq_ok.1 ground
    cases holds with
    | false => cases rest_ground
    | true =>
      rw [List.mapM_cons] at ended
      obtain ⟨term, middle, first, rest⟩ := bind_eq_ok.1 ended
      obtain ⟨others, last, second, final⟩ := bind_eq_ok.1 rest
      cases final
      refine List.forall_mem_cons.2
        ⟨each address List.mem_cons_self _ _ _ first_ground first, ih (fun other member ↦ ?_)
          rest_ground second⟩
      exact each other (List.mem_cons_of_mem _ member)

/-- What is read where no unbound cell is met is ground. -/
theorem isGround_extractBelow {path : Std.TreeSet Address} {address : Address}
    {names later : VarNames} {term : Term} (ground : heap.isGroundBelow path address = .ok true)
    (ended : heap.extractBelow path address names = .ok term later) : term.isGround = true := by
  fun_induction heap.extractBelow path address generalizing names later term with
  | case1 | case5 => cases ended
  | case2 path address found read =>
    rw [isGroundBelow_eq, read] at ground
    cases ground
  | case3 | case4 =>
    cases ended
    rfl
  | case6 path address found functor header read fresh ih =>
    rw [isGroundBelow_eq, read] at ground
    simp only [fresh, if_false] at ground
    obtain ⟨args, last, args_read, final⟩ := bind_eq_ok.1 ended
    cases final
    have inner :=
      isGround_of_mapM (fun argument _ _ _ _ ground read ↦ ih argument ground read) ground args_read
    rw [Term.isGround_iff]
    intro v occurs
    obtain ⟨arg, member, inside⟩ := Term.mem_occurrences_apply.1 occurs
    exact Term.isGround_iff.1 (inner arg member) v inside

end Heap

namespace Builtin

variable {heap : Heap} {admitted : Functor → Prop}

/-- What is found of ground terms: their terms, which every solution agrees on but for structures
without arguments, or an unbound cell inside one of them. -/
theorem groundTerms_eq_ok (D : Type) [Domain D] (formed : heap.Formed admitted 0)
    {addresses : List Address}
    {result : Option (List Term)} (ended : groundTerms heap addresses = .ok result) :
    match result with
    | some terms => ∃ raws : List Term, raws.map Term.collapse = terms ∧
        (∀ raw ∈ raws, raw.isGround = Bool.true) ∧
        ∀ θ : Valuation D, heap.Solution θ → ∀ β, addresses.map θ = raws.map (Term.eval β)
    | none => heap.Open D addresses := by
  induction addresses generalizing result with
  | nil =>
    cases ended
    exact ⟨[], rfl, by simp, fun _ _ _ ↦ rfl⟩
  | cons address addresses ih =>
    rw [groundTerms] at ended
    obtain ⟨ground, tested, rest⟩ := Except.bind_eq_ok.1 ended
    cases ground with
    | false =>
      cases rest
      obtain ⟨free, unbound, other, same, part⟩ := Heap.open_of_isGroundBelow (D := D) tested
      exact ⟨free, unbound, other, List.mem_cons.2 (.inl (List.mem_singleton.1 same)), part⟩
    | true =>
      obtain ⟨term, read, rest⟩ := Except.bind_eq_ok.1 rest
      obtain ⟨terms, others, rest⟩ := Except.bind_eq_ok.1 rest
      cases rest
      have inner := ih others
      have proper : VarNames.Proper {} heap := VarNames.proper_reserving [] heap
      cases terms with
      | none =>
        obtain ⟨free, unbound, other, member, part⟩ := inner
        exact ⟨free, unbound, other, List.mem_cons_of_mem _ member, part⟩
      | some terms =>
        obtain ⟨raws, rfl, all_ground, same⟩ := inner
        have own_ground : term.isGround = Bool.true := by
          unfold Heap.extract Heap.extractNamed at read
          generalize run : (heap.extractBelow ∅ address).run {} = last at read
          cases last with
          | error fault names => cases read
          | ok found names =>
            cases read
            exact Heap.isGround_extractBelow tested run
        obtain ⟨_, at_raw, -, reads⟩ := Heap.readsRaw_extractNamed formed proper (Prod.ext read rfl)
        obtain ⟨raw, rfl, rfl⟩ := List.map_eq_singleton_iff.1 at_raw
        rw [Term.isGround_collapse] at own_ground
        refine ⟨raw :: raws, rfl, List.forall_mem_cons.2 ⟨own_ground, all_ground⟩,
          fun θ solution β ↦ ?_⟩
        obtain ⟨γ, stands⟩ := reads.proper.exists_stands θ
        have own := reads.eq θ solution γ stands
        simp only [List.map_cons, List.map_nil, List.cons.injEq, and_true] at own
        rw [List.map_cons, List.map_cons, own, same θ solution β,
          raw.eval_of_isGround own_ground γ β]

end Builtin
end HornMachine
