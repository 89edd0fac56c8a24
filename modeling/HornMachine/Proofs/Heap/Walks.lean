import HornMachine.Proofs.Heap.Shown

/-!
# Walks down the structures at an address

A walk goes down the structures at an address from left to right and turns back at a structure that
it is inside of already. On the way it sees unbound cells and such structures. Reading a term and
testing for unbound variables are both such walks: reading stops at the first structure seen inside
itself, and the test at the first thing seen at all.

Main statement: in a well-formed heap every walk ends; it sees a structure inside itself exactly if
one that is reached reaches itself, and this is when reading fails. Otherwise reading gives the
finite term that the address unfolds to, and the test says whether it is ground. On a cyclic term,
too, the test goes by what is seen first (`Formed.walks_exact`).
-/

namespace HornMachine.Heap

open Relation (TransGen ReflTransGen)

variable {heap : Heap} {admitted : Functor → Prop} {missing : Nat}

/-! ### Walks and unfoldings -/

/-- What a walk sees on its way. -/
inductive Sight where
  | free (cell : Address)
  /-- The header of a structure that the walk is inside of. -/
  | again (header : Address)

mutual

/-- What a walk sees at an address, below the headers of a path. -/
inductive Sees (heap : Heap) : List Address → Address → List Sight → Prop
  | unbound {path : List Address} {address found : Address}
    (read : heap.value address = .ok (found, .unbound)) :
    Sees heap path address [.free found]
  | atom {path : List Address} {address found : Address} {symbol : Symbol}
    (read : heap.value address = .ok (found, .atom symbol)) : Sees heap path address []
  | num {path : List Address} {address found : Address} {value : Int}
    (read : heap.value address = .ok (found, .num value)) : Sees heap path address []
  | again {path : List Address} {address found header : Address} {functor : Functor}
    (read : heap.value address = .ok (found, .compound functor header)) (passed : header ∈ path) :
    Sees heap path address [.again header]
  | inside {path : List Address} {address found header : Address} {functor : Functor}
    {sights : List Sight}
    (read : heap.value address = .ok (found, .compound functor header)) (fresh : header ∉ path)
    (below : SeesAll heap (header :: path) (arguments functor header) sights) :
    Sees heap path address sights

/-- What a walk sees at some addresses, one after the other. -/
inductive SeesAll (heap : Heap) : List Address → List Address → List Sight → Prop
  | nil {path : List Address} : SeesAll heap path [] []
  | cons {path : List Address} {address : Address} {addresses : List Address}
    {here later : List Sight}
    (first : Sees heap path address here) (rest : SeesAll heap path addresses later) :
    SeesAll heap path (address :: addresses) (here ++ later)

end

mutual

/-- The finite term that an address unfolds to, with the unbound cells themselves for its variables.
A structure without arguments is an atom. -/
inductive Unfolds (heap : Heap) : Address → Term → Prop
  | unbound {address found : Address} (read : heap.value address = .ok (found, .unbound)) :
    Unfolds heap address (.var found)
  | atom {address found : Address} {symbol : Symbol}
    (read : heap.value address = .ok (found, .atom symbol)) :
    Unfolds heap address (.atom symbol)
  | num {address found : Address} {value : Int}
    (read : heap.value address = .ok (found, .num value)) :
    Unfolds heap address (.num value)
  | compound {address found header : Address} {functor : Functor} {args : List Term}
    (read : heap.value address = .ok (found, .compound functor header))
    (each : UnfoldsAll heap (arguments functor header) args) :
    Unfolds heap address (.apply functor.symbol args)

/-- The finite terms that some addresses unfold to. -/
inductive UnfoldsAll (heap : Heap) : List Address → List Term → Prop
  | nil : UnfoldsAll heap [] []
  | cons {address : Address} {addresses : List Address} {term : Term} {terms : List Term}
    (first : Unfolds heap address term) (rest : UnfoldsAll heap addresses terms) :
    UnfoldsAll heap (address :: addresses) (term :: terms)

end

mutual

/-- An address unfolds to one term at most. -/
theorem Unfolds.unique {address : Address} {term other : Term} :
    heap.Unfolds address term → heap.Unfolds address other → other = term
  | .unbound read, others => by
    cases others with
    | unbound again => cases read.symm.trans again; rfl
    | atom again | num again | compound again => cases read.symm.trans again
  | .atom read, others => by
    cases others with
    | atom again => cases read.symm.trans again; rfl
    | unbound again | num again | compound again => cases read.symm.trans again
  | .num read, others => by
    cases others with
    | num again => cases read.symm.trans again; rfl
    | unbound again | atom again | compound again => cases read.symm.trans again
  | .compound read each, others => by
    cases others with
    | compound again other_each =>
      cases read.symm.trans again
      rw [each.unique other_each]
    | unbound again | atom again | num again => cases read.symm.trans again

theorem UnfoldsAll.unique {addresses : List Address} {terms others : List Term} :
    heap.UnfoldsAll addresses terms → heap.UnfoldsAll addresses others → others = terms
  | .nil, .nil => rfl
  | .cons first rest, .cons other_first other_rest => by
    rw [first.unique other_first, rest.unique other_rest]

end

/-! ### Walks end -/

/-- The headers of a path and the set of them stay the same when a structure is entered. -/
theorem mem_insert_iff_mem_cons {passed : Std.TreeSet Address} {path : List Address}
    (same : ∀ header, header ∈ passed ↔ header ∈ path) (entered other : Address) :
    other ∈ passed.insert entered ↔ other ∈ entered :: path := by
  rw [mem_insert_iff, List.mem_cons, same]

private theorem exists_seesAll {path addresses : List Address}
    (each : ∀ address ∈ addresses, ∃ sights, heap.Sees path address sights) :
    ∃ sights, heap.SeesAll path addresses sights := by
  induction addresses with
  | nil => exact ⟨[], .nil⟩
  | cons address addresses ih =>
    obtain ⟨⟨here, first⟩, others⟩ := List.forall_mem_cons.1 each
    obtain ⟨later, rest⟩ := ih others
    exact ⟨here ++ later, .cons first rest⟩

private theorem Formed.exists_sees_below (formed : heap.Formed admitted 0)
    {passed : Std.TreeSet Address}
    {path : List Address} (same : ∀ header, header ∈ passed ↔ header ∈ path) {address : Nat}
    (inside : address < heap.size) : ∃ sights, heap.Sees path address sights := by
  -- reading goes down the same way, and each structure that it enters leaves fewer to enter
  induction passed, address using extractBelow.induct heap generalizing path with
  | case1 passed address fault read =>
    obtain ⟨found, value, other⟩ := formed.exists_value inside
    cases read.symm.trans other
  | case2 passed address found read => exact ⟨_, .unbound read⟩
  | case3 passed address found symbol read => exact ⟨_, .atom read⟩
  | case4 passed address found number read => exact ⟨_, .num read⟩
  | case5 passed address found functor header read met =>
    exact ⟨_, .again read ((same header).1 met)⟩
  | case6 passed address found functor header read fresh ih =>
    obtain ⟨sights, below⟩ := exists_seesAll fun argument member ↦
      ih argument (mem_insert_iff_mem_cons same header) (formed.argument_lt read member)
    exact ⟨sights, .inside read (mt (same header).2 fresh) below⟩

/-- A walk ends, since it goes inside no structure twice on one path. -/
theorem Formed.exists_sees (formed : heap.Formed admitted 0) {address : Nat}
    (inside : address < heap.size) :
    ∃ sights, heap.Sees [] address sights := by
  have same (header : Address) : header ∈ (∅ : Std.TreeSet Address) ↔
    header ∈ ([] : List Address) := by simp
  exact formed.exists_sees_below same inside

/-! ### Testing for unbound variables -/

/-- What the first thing seen says about groundness. -/
def verdict : List Sight → Except Fault Bool
  | [] => .ok true
  | .free _ :: _ => .ok false
  | .again _ :: _ => .error .cyclicTerm

mutual

/-- The test goes by what is seen first. -/
theorem Sees.isGroundBelow {passed : Std.TreeSet Address} {path : List Address} {address : Address}
    {sights : List Sight} (same : ∀ header, header ∈ passed ↔ header ∈ path) :
    heap.Sees path address sights → heap.isGroundBelow passed address = verdict sights
  | .unbound read | .atom read | .num read => by
    rw [isGroundBelow_eq, read]
    rfl
  | .again read met => by
    rw [isGroundBelow_eq, read]
    exact if_pos ((same _).2 met)
  | .inside read fresh below => by
    rw [isGroundBelow_eq, read]
    exact (if_neg (mt (same _).1 fresh)).trans
      (below.allM_isGroundBelow (mem_insert_iff_mem_cons same _))

private theorem SeesAll.allM_isGroundBelow {passed : Std.TreeSet Address}
    {path addresses : List Address}
    {sights : List Sight} (same : ∀ header, header ∈ passed ↔ header ∈ path) :
    heap.SeesAll path addresses sights → addresses.allM (heap.isGroundBelow passed) = verdict sights
  | .nil => rfl
  | @SeesAll.cons _ _ _ _ here _ first rest => by
    rw [List.allM, first.isGroundBelow same]
    cases here with
    | nil => exact rest.allM_isGroundBelow same
    | cons sight _ => cases sight <;> rfl

end

/-! ### Naming unbound cells -/

/-- The names that reading gives: to each unbound cell it sees before a structure inside itself. -/
def namedBy : List Sight → VarNames → VarNames
  | [], names => names
  | .free cell :: later, names => namedBy later (names.name cell).2
  | .again _ :: _, names => names

private theorem namedBy_append (here later : List Sight) (names : VarNames) :
    ((∀ header, .again header ∉ here) →
      namedBy (here ++ later) names = namedBy later (namedBy here names)) ∧
      ((∃ header, .again header ∈ here) → namedBy (here ++ later) names = namedBy here names) := by
  induction here generalizing names with
  | nil => exact ⟨fun _ ↦ rfl, by simp⟩
  | cons sight here ih =>
    cases sight with
    | free cell => simpa [namedBy] using ih (names.name cell).2
    | again header => exact ⟨fun unseen ↦ absurd List.mem_cons_self (unseen header), fun _ ↦ rfl⟩

/-- Reading stops at the first structure seen inside itself, with the names given before. -/
def ReadsBy {α : Type} (sights : List Sight) (names : VarNames) :
    EStateM.Result Fault VarNames α → Prop
  | .ok _ later => later = namedBy sights names ∧ ∀ header, .again header ∉ sights
  | .error fault later =>
    fault = .cyclicTerm ∧ later = namedBy sights names ∧ ∃ header, .again header ∈ sights

mutual

/-- Reading goes by all that is seen. -/
theorem Sees.readsBy {passed : Std.TreeSet Address} {path : List Address} {address : Address}
    {sights : List Sight} (same : ∀ header, header ∈ passed ↔ header ∈ path) (names : VarNames) :
    heap.Sees path address sights → ReadsBy sights names (heap.extractBelow passed address names)
  | .unbound read => by
    rw [extractBelow_eq, read]
    exact ⟨rfl, by simp⟩
  | .atom read | .num read => by
    rw [extractBelow_eq, read]
    exact ⟨rfl, by simp⟩
  | .again read met => by
    rw [extractBelow_eq, read]
    simp only [(same _).2 met, if_true]
    exact ⟨rfl, rfl, _, List.mem_singleton_self _⟩
  | .inside read fresh below => by
    have all := below.readsBy (mem_insert_iff_mem_cons same _) names
    rw [extractBelow_eq, read]
    simp only [mt (same _).1 fresh, if_false, bind_apply]
    split
    · next ended =>
      rw [ended] at all
      exact all
    · next ended =>
      rw [ended] at all
      exact all

private theorem SeesAll.readsBy {passed : Std.TreeSet Address} {path addresses : List Address}
    {sights : List Sight} (same : ∀ header, header ∈ passed ↔ header ∈ path) (names : VarNames) :
    heap.SeesAll path addresses sights →
      ReadsBy sights names (addresses.mapM (heap.extractBelow passed) names)
  | .nil => ⟨rfl, by simp⟩
  | @SeesAll.cons _ _ address addresses here later first rest => by
    have one := first.readsBy same names
    obtain ⟨goes_on, stops⟩ := namedBy_append here later names
    rw [List.mapM_cons, bind_apply]
    cases ended : heap.extractBelow passed address names with
    | error fault next =>
      rw [ended] at one
      obtain ⟨rfl, rfl, header, seen⟩ := one
      exact ⟨rfl, (stops ⟨header, seen⟩).symm, header, List.mem_append_left _ seen⟩
    | ok term next =>
      rw [ended] at one
      obtain ⟨rfl, unseen⟩ := one
      have others := rest.readsBy same (namedBy here names)
      simp only [bind_apply]
      cases read : addresses.mapM (heap.extractBelow passed) (namedBy here names) with
      | error fault last =>
        rw [read] at others
        obtain ⟨rfl, rfl, header, seen⟩ := others
        exact ⟨rfl, (goes_on unseen).symm, header, List.mem_append_right _ seen⟩
      | ok terms last =>
        rw [read] at others
        obtain ⟨rfl, rest_unseen⟩ := others
        refine ⟨(goes_on unseen).symm, fun header seen ↦ ?_⟩
        exact (List.mem_append.1 seen).elim (unseen header) (rest_unseen header)

end

/-- The test and reading both come to what a walk sees. -/
structure Follows (heap : Heap) (address : Address) (sights : List Sight) : Prop where
  test : heap.isGround address = verdict sights
  reads : ∀ names, (∀ header, .again header ∉ sights) →
    ∃ term, heap.extractNamed address names = (.ok term, namedBy sights names)
  stops : ∀ names, (∃ header, .again header ∈ sights) →
    heap.extractNamed address names = (.error .cyclicTerm, namedBy sights names)

theorem Sees.follows {address : Address} {sights : List Sight}
    (sees : heap.Sees [] address sights) :
    heap.Follows address sights := by
  have goes_by (names : VarNames) :
    ReadsBy sights names ((heap.extractBelow ∅ address).run names) :=
    sees.readsBy (by simp) names
  refine ⟨sees.isGroundBelow (by simp), fun names unseen ↦ ?_, fun names ⟨header, seen⟩ ↦ ?_⟩
  · have goes := goes_by names
    rw [extractNamed]
    cases ended : (heap.extractBelow ∅ address).run names with
    | ok term later =>
      rw [ended] at goes
      exact ⟨term, by rw [goes.1]⟩
    | error fault later =>
      rw [ended] at goes
      obtain ⟨-, -, header, seen⟩ := goes
      exact absurd seen (unseen header)
  · have goes := goes_by names
    rw [extractNamed]
    cases ended : (heap.extractBelow ∅ address).run names with
    | ok term later =>
      rw [ended] at goes
      exact absurd seen (goes.2 header)
    | error fault later =>
      rw [ended] at goes
      rw [goes.1, goes.2.1]

/-! ### Structures inside themselves -/

/-- A structure contains the one that an argument of it leads to. -/
theorem contains_of_argument {address found header inner argument last : Address}
    {functor other : Functor} (read : heap.value address = .ok (found, .compound functor header))
    (member : argument ∈ arguments functor header)
    (inside : heap.value argument = .ok (last, .compound other inner)) :
    heap.Contains header inner :=
  ⟨functor, argument, last, other, (value_eq_ok_iff.1 read).2.1, member, inside⟩

mutual

/-- A structure that is seen again is reached, and it reaches itself unless the walk began inside
it. -/
theorem Sees.loops {path : List Address} {address header : Address} {sights : List Sight} :
    heap.Sees path address sights → .again header ∈ sights →
      ∃ found functor outer, heap.value address = .ok (found, .compound functor outer) ∧
        ReflTransGen heap.Contains outer header ∧
        (header ∈ path ∨ TransGen heap.Contains header header)
  | .unbound _, seen => by simp at seen
  | .atom _, seen | .num _, seen => by simp at seen
  | .again read passed, seen => by
    obtain rfl : header = _ := by simpa using seen
    exact ⟨_, _, _, read, .refl, .inl passed⟩
  | .inside read _ below, seen => by
    obtain ⟨argument, member, found, functor, inner, inside, reaches, loop⟩ := below.loops seen
    have contains := contains_of_argument read member inside
    refine ⟨_, _, _, read, reaches.head contains, ?_⟩
    rcases loop with passed | loop
    · rcases List.mem_cons.1 passed with rfl | earlier
      · exact .inr (.head' contains reaches)
      · exact .inl earlier
    · exact .inr loop

theorem SeesAll.loops {path addresses : List Address} {header : Address} {sights : List Sight} :
    heap.SeesAll path addresses sights → .again header ∈ sights →
      ∃ address ∈ addresses, ∃ found functor outer, heap.value address =
        .ok (found, .compound functor outer) ∧
        ReflTransGen heap.Contains outer header ∧
        (header ∈ path ∨ TransGen heap.Contains header header)
  | .nil, seen => by simp at seen
  | .cons first rest, seen => by
    rcases List.mem_append.1 seen with here | later
    · exact ⟨_, List.mem_cons_self, first.loops here⟩
    · obtain ⟨address, member, loop⟩ := rest.loops later
      exact ⟨address, List.mem_cons_of_mem _ member, loop⟩

end

mutual

/-- A walk that sees no structure inside itself sees the variables of the term that the address
unfolds to. -/
theorem Sees.exists_unfolds {path : List Address} {address : Address} {sights : List Sight} :
    heap.Sees path address sights → (∀ header, .again header ∉ sights) →
      ∃ term, heap.Unfolds address term ∧ sights = term.occurrences.map .free
  | .unbound read, _ => ⟨_, .unbound read, by simp [Term.occurrences]⟩
  | .atom read, _ => ⟨_, .atom read, by simp⟩
  | .num read, _ => ⟨_, .num read, by simp⟩
  | .again _ _, unseen => by simp at unseen
  | .inside read _ below, unseen => by
    obtain ⟨args, each, rfl⟩ := below.exists_unfoldsAll unseen
    exact ⟨_, .compound read each, by rw [Term.occurrences_apply, Term.occurrencesList_eq_flatMap]⟩

private theorem SeesAll.exists_unfoldsAll {path addresses : List Address} {sights : List Sight} :
    heap.SeesAll path addresses sights → (∀ header, .again header ∉ sights) →
      ∃ terms, heap.UnfoldsAll addresses terms ∧ sights = (terms.flatMap Term.occurrences).map .free
  | .nil, _ => ⟨[], .nil, rfl⟩
  | .cons first rest, unseen => by
    obtain ⟨term, here, rfl⟩ :=
      first.exists_unfolds fun header seen ↦ unseen header (List.mem_append_left _ seen)
    obtain ⟨terms, later, rfl⟩ :=
      rest.exists_unfoldsAll fun header seen ↦ unseen header (List.mem_append_right _ seen)
    exact ⟨term :: terms, .cons here later, by rw [List.flatMap_cons, List.map_append]⟩

end

mutual

/-- What unfolds to a finite term reaches no cycle. -/
theorem Unfolds.acyclicAt {address : Address} {term : Term} :
    heap.Unfolds address term → heap.AcyclicAt address
  | .unbound read | .atom read | .num read => by
    intro found functor header inner again
    cases read.symm.trans again
  | .compound read each => by
    intro found functor header inner again reaches loop
    cases read.symm.trans again
    -- the way to the cycle, or the cycle, goes on from one of the arguments
    obtain ⟨next, ⟨functor, argument, last, other, at_header, member, inside⟩, further⟩ :=
      TransGen.head'_iff.1 (loop.trans_right reaches)
    cases at_header.symm.trans (value_eq_ok_iff.1 read).2.1
    exact each.acyclicAt argument member last other next inner inside further loop

theorem UnfoldsAll.acyclicAt {addresses : List Address} {terms : List Term} :
    heap.UnfoldsAll addresses terms → ∀ address ∈ addresses, heap.AcyclicAt address
  | .nil => nofun
  | .cons first rest => List.forall_mem_cons.2 ⟨first.acyclicAt, rest.acyclicAt⟩

end

/-- Structures inside themselves are seen exactly where one that is reached reaches itself. -/
theorem exists_again_iff {address : Address} {sights : List Sight}
    (sees : heap.Sees [] address sights) :
    (∃ header, .again header ∈ sights) ↔ ¬heap.AcyclicAt address := by
  constructor
  · rintro ⟨header, seen⟩ acyclic
    obtain ⟨found, functor, outer, read, reaches, passed | loop⟩ := sees.loops seen
    · cases passed
    · exact acyclic found functor outer header read reaches loop
  · intro cyclic
    by_contra none
    obtain ⟨term, unfolds, -⟩ := sees.exists_unfolds fun header seen ↦ none ⟨header, seen⟩
    exact cyclic unfolds.acyclicAt

/-! ### Reading -/

section

variable {names later last : VarNames} {cell : Var → Address}

private theorem unfoldsAll_mapM {read : Address → Extract Term} {addresses : List Address}
    {terms : List Term} (stays : ∀ address ∈ addresses, ∀ names : VarNames, names.Proper heap →
      (lastNames (read address names)).Proper heap ∧ names.Keeps (lastNames (read address names)))
    (each : ∀ address ∈ addresses, ∀ (names later : VarNames) (term : Term), names.Proper heap →
      read address names = .ok term later → later.Keeps last →
      (∀ v ∈ term.occurrences, last.names[cell v]? = some v) →
      heap.Unfolds address (term.subst fun v ↦ .var (cell v)))
    (proper : names.Proper heap) (ended : addresses.mapM read names = .ok terms later)
    (keeps : later.Keeps last)
    (known : ∀ term ∈ terms, ∀ v ∈ term.occurrences, last.names[cell v]? = some v) :
    heap.UnfoldsAll addresses (terms.map fun term ↦ term.subst fun v ↦ .var (cell v)) := by
  induction addresses generalizing names terms with
  | nil =>
    cases ended
    exact .nil
  | cons address addresses ih =>
    obtain ⟨here, others⟩ := List.forall_mem_cons.1 each
    obtain ⟨stay, stay_others⟩ := List.forall_mem_cons.1 stays
    rw [List.mapM_cons] at ended
    obtain ⟨term, middle, first, rest⟩ := bind_eq_ok.1 ended
    obtain ⟨more, next, second, final⟩ := bind_eq_ok.1 rest
    cases final
    obtain ⟨known_here, known_others⟩ := List.forall_mem_cons.1 known
    have middle_proper : middle.Proper heap := by
      have proper := (stay names proper).1
      rwa [first] at proper
    have kept : middle.Keeps _ := (keeps_mapM stay_others middle_proper).2
    rw [second] at kept
    exact .cons (here names middle term proper first (kept.trans keeps) known_here)
      (ih stay_others others middle_proper second known_others)

/-- With the cells that its variables are names of put for them, a term that was read is what the
address unfolds to. -/
theorem unfolds_extractBelow {path : Std.TreeSet Address} {address : Address} {term : Term}
    (proper : names.Proper heap) (ended : heap.extractBelow path address names = .ok term later)
    (keeps : later.Keeps last) (last_proper : last.Proper heap)
    (known : ∀ v ∈ term.occurrences, last.names[cell v]? = some v) :
    heap.Unfolds address (term.subst fun v ↦ .var (cell v)) := by
  fun_induction heap.extractBelow path address generalizing names later term with
  | case1 | case5 => cases ended
  | case2 path address found read =>
    have given : Extract.name found names = .ok (names.name found).1 (names.name found).2 := rfl
    simp only [map_apply, given] at ended
    cases ended
    have named := keeps.kept _ _ (proper.name (value_eq_ok_iff.1 read).2).2.2
    have same := last_proper.injective _ _ _ named (known _ (Term.mem_occurrences_var.2 rfl))
    rw [Term.subst_var, ← same]
    exact .unbound read
  | case3 path address found symbol read =>
    cases ended
    rw [Term.subst_atom]
    exact .atom read
  | case4 path address found number read =>
    cases ended
    rw [Term.subst_num]
    exact .num read
  | case6 path address found functor header read _ ih =>
    obtain ⟨args, next, args_read, final⟩ := bind_eq_ok.1 ended
    cases final
    have known_args : ∀ arg ∈ args, ∀ v ∈ arg.occurrences, last.names[cell v]? = some v :=
      fun arg member v occurs ↦ known v (Term.mem_occurrences_apply.2 ⟨arg, member, occurs⟩)
    rw [Term.subst_apply]
    exact .compound read (unfoldsAll_mapM (fun argument _ _ ↦ keeps_extractBelow _ argument)
      (fun argument _ _ _ _ proper ended keeps known ↦ ih argument proper ended keeps known)
      proper args_read keeps known_args)

end

/-- What is read at an address is the term that it unfolds to, numbered. -/
theorem Formed.unfolds_of_extract (formed : heap.Formed admitted 0) {address : Nat}
    (inside : address < heap.size) {read : Term} (ended : heap.extract address = .ok read) :
    ∃ term, heap.Unfolds address term ∧ term.numbered = read := by
  obtain ⟨proper, cell, known, numbered⟩ := formed.exists_cells inside (Prod.ext ended rfl)
  refine ⟨_, ?_, numbered⟩
  rw [extract, extractNamed] at ended
  rw [extractNamed] at proper known
  cases run : (heap.extractBelow ∅ address).run {} with
  | error fault last =>
    rw [run] at ended
    cases ended
  | ok found last =>
    rw [run] at ended proper known
    cases ended
    exact unfolds_extractBelow (VarNames.proper_reserving [] heap) run (.refl _) proper known

/-- Reading fails at cyclic terms, and nowhere else. -/
theorem Formed.extract_eq_error_iff (formed : heap.Formed admitted 0) {address : Nat}
    (inside : address < heap.size) :
    heap.extract address = .error .cyclicTerm ↔ ¬heap.AcyclicAt address := by
  obtain ⟨sights, sees⟩ := formed.exists_sees inside
  rw [← exists_again_iff sees]
  constructor
  · intro failed
    by_contra unseen
    obtain ⟨term, ended⟩ := sees.follows.reads {} fun header seen ↦ unseen ⟨header, seen⟩
    cases failed.symm.trans (congrArg Prod.fst ended)
  · exact fun seen ↦ congrArg Prod.fst (sees.follows.stops {} seen)

/-- Nothing is read at an address that is not there. -/
theorem value_of_size_le {address : Address} (outside : heap.size ≤ address) :
    heap.value address = .error (.badAddress address) := by
  have missing : heap.cell address = .error (.badAddress address) := by
    rw [cell, Array.getElem?_eq_none outside]
  rw [value, deref, derefWithin, missing]
  rfl

/-! ### Both together -/

private theorem verdict_eq_iff (sights : List Sight) :
    (verdict sights = .ok false ↔ ∃ cell later, sights = .free cell :: later) ∧
      (verdict sights = .error .cyclicTerm ↔ ∃ header later, sights = .again header :: later) ∧
      (verdict sights = .ok true ↔ sights = []) := by
  cases sights with
  | nil => simp [verdict]
  | cons sight later => cases sight <;> simp [verdict]

private theorem verdict_occurrences (term : Term) :
    verdict (term.occurrences.map .free) = .ok term.isGround := by
  cases met : term.occurrences with
  | nil => exact congrArg _ (Term.isGround_iff.2 (by simp [met])).symm
  | cons v later =>
    have open_term : ¬term.isGround = true :=
      fun ground ↦ Term.isGround_iff.1 ground v (by simp [met])
    rw [Bool.not_eq_true] at open_term
    rw [open_term]
    rfl

/-- Where no cycle is reached the address unfolds to one term, which is read and tested. -/
theorem Formed.exists_unfolds (formed : heap.Formed admitted 0) {address : Nat}
    (inside : address < heap.size) (acyclic : heap.AcyclicAt address) :
    ∃ term, (∀ other, heap.Unfolds address other ↔ other = term) ∧
      heap.extract address = .ok term.numbered ∧ heap.isGround address = .ok term.isGround := by
  obtain ⟨sights, sees⟩ := formed.exists_sees inside
  have unseen (header : Address) (again : .again header ∈ sights) : False :=
    (exists_again_iff sees).1 ⟨header, again⟩ acyclic
  obtain ⟨term, unfolds, rfl⟩ := sees.exists_unfolds unseen
  obtain ⟨read, ended⟩ := sees.follows.reads {} unseen
  have extracted : heap.extract address = .ok read := congrArg Prod.fst ended
  obtain ⟨other, other_unfolds, rfl⟩ := formed.unfolds_of_extract inside extracted
  rw [unfolds.unique other_unfolds] at extracted
  refine ⟨term, fun other ↦ ⟨unfolds.unique, fun same ↦ same ▸ unfolds⟩, extracted, ?_⟩
  rw [sees.follows.test, verdict_occurrences]

/-- In a well-formed heap reading an address fails as cyclic exactly if a structure that is reached
from it reaches itself; else it gives what the address unfolds to, numbered, and the test says
whether that is ground. On cyclic terms, too, the test goes by what a walk from left to right sees
first, and reading names the unbound cells that the walk sees before it meets a structure inside
itself. -/
theorem Formed.walks_exact (formed : heap.Formed (fun _ ↦ True) 0) (address : Address) :
    (heap.extract address = .error .cyclicTerm ↔ ¬heap.AcyclicAt address) ∧
    (address < heap.size → heap.AcyclicAt address →
      ∃ term, (∀ other, heap.Unfolds address other ↔ other = term) ∧
        heap.extract address = .ok term.numbered ∧ heap.isGround address = .ok term.isGround) ∧
    (address < heap.size → ∃ sights, heap.Sees [] address sights) ∧
    (∀ sights, heap.Sees [] address sights → heap.Follows address sights ∧
      ((∃ header, .again header ∈ sights) ↔ ¬heap.AcyclicAt address) ∧
      (heap.isGround address = .ok false ↔ ∃ cell later, sights = .free cell :: later) ∧
      (heap.isGround address = .error .cyclicTerm ↔
        ∃ header later, sights = .again header :: later) ∧
      (heap.isGround address = .ok true ↔ sights = [])) ∧
    (heap.size ≤ address → heap.extract address = .error (.badAddress address) ∧
      heap.isGround address = .error (.badAddress address)) := by
  have outer (outside : heap.size ≤ address) : heap.extract address = .error (.badAddress address) ∧
      heap.isGround address = .error (.badAddress address) := by
    constructor
    · rw [extract, extractNamed, extractBelow_eq, value_of_size_le outside]
      rfl
    · rw [isGround, isGroundBelow_eq, value_of_size_le outside]
  refine ⟨?_, formed.exists_unfolds, formed.exists_sees, fun sights sees ↦
    ⟨sees.follows, exists_again_iff sees, by rw [sees.follows.test]; exact verdict_eq_iff sights⟩,
      outer⟩
  rcases Nat.lt_or_ge address heap.size with inside | outside
  · exact formed.extract_eq_error_iff inside
  · rw [(outer outside).1]
    refine iff_of_false (by simp) (not_not_intro fun found functor header inner read ↦ ?_)
    cases read.symm.trans (value_of_size_le outside)

/-- A structure with an unbound cell and itself for its arguments. -/
def knot : Heap := (({} : Heap).pushStructure ⟨⟨0⟩, 2⟩).pushVar.push (.ref 0)

/-- Further on, a structure that is shared by the arguments of another. -/
def knotted : Heap :=
  ((((knot.pushStructure ⟨⟨1⟩, 1⟩).push (.num 5)).pushStructure ⟨⟨2⟩, 2⟩).push (.ref 4)).push
    (.ref 4)

private theorem formed_knotted : knotted.Formed (fun _ ↦ True) 0 := by
  have knot_formed : knot.Formed (fun _ ↦ True) 0 :=
    (Formed.empty.pushStructure trivial).pushVar.push (Nat.zero_le _)
  have shared : ((knot.pushStructure ⟨⟨1⟩, 1⟩).push (.num 5)).Formed (fun _ ↦ True) 0 :=
    (knot_formed.pushStructure trivial).push trivial
  have outer : (((knot.pushStructure ⟨⟨1⟩, 1⟩).push (.num 5)).pushStructure ⟨⟨2⟩, 2⟩).Formed
    (fun _ ↦ True) 2 :=
    shared.pushStructure trivial
  have first : Formed.Simple (((knot.pushStructure ⟨⟨1⟩, 1⟩).push (.num 5)).pushStructure ⟨⟨2⟩, 2⟩)
    (.ref 4) := by
    simp [Formed.Simple, knot]
  exact (outer.push first).push (by simp [Formed.Simple, knot])

/-- A structure with what stands at an address for its argument. -/
def enclose (heap : Heap) (target : Address) : Heap :=
  (heap.pushStructure ⟨⟨0⟩, 1⟩).push (.ref target)

private theorem Formed.enclose (formed : heap.Formed (fun _ ↦ True) 0) {target : Address}
    (inside : target ≤ heap.size + 2) : (heap.enclose target).Formed (fun _ ↦ True) 0 := by
  have simple : Formed.Simple (heap.pushStructure ⟨⟨0⟩, 1⟩) (.ref target) := by
    rwa [Formed.Simple, size_pushStructure]
  exact (formed.pushStructure trivial).push simple

/-- Three structures in a ring: each but the first has the one before for its argument, and the
first the last. -/
def ring : Heap := (((({} : Heap).enclose 2).enclose 0).enclose 3).set 2 (.ref 6)

private theorem formed_ring : ring.Formed (fun _ ↦ True) 0 := by
  have row : (((({} : Heap).enclose 2).enclose 0).enclose 3).Formed (fun _ ↦ True) 0 :=
    ((Formed.empty.enclose (by decide)).enclose (by decide)).enclose (by decide)
  have last : Memory.Target .off (((({} : Heap).enclose 2).enclose 0).enclose 3) 2 6 :=
    ⟨rfl, .inr ⟨.str 7, rfl, nofun, nofun⟩⟩
  exact row.assign last

/-- The test sees the unbound cell before the structure inside itself; what is shared is read twice.
Around the ring nothing else is seen before the first structure is met again. -/
theorem walks_exact_knotted :
    knotted.Formed (fun _ ↦ True) 0 ∧
      knotted.extract 0 = .error .cyclicTerm ∧ knotted.isGround 0 = .ok false ∧
      knotted.AcyclicAt 7 ∧ knotted.isGround 7 = .ok true ∧
    ring.Formed (fun _ ↦ True) 0 ∧
      ring.extract 0 = .error .cyclicTerm ∧ ring.isGround 0 = .error .cyclicTerm := by
  have knot : knotted.Sees [] 0 [.free 2, .again 1] :=
    .inside rfl (by simp) (.cons (.unbound rfl)
      (.cons (.again rfl (List.mem_singleton_self 1)) .nil))
  have inner {address : Address} (read : knotted.value address = .ok (4, .compound ⟨⟨1⟩, 1⟩ 5)) :
      knotted.Sees [8] address [] := .inside read (by simp) (.cons (.num rfl) .nil)
  have shared : knotted.Sees [] 7 [] :=
    .inside rfl (by simp) (.cons (inner rfl) (.cons (inner rfl) .nil))
  obtain ⟨cyclic, -, -, sees, -⟩ := formed_knotted.walks_exact 0
  obtain ⟨-, -, -, sees_shared, -⟩ := formed_knotted.walks_exact 7
  obtain ⟨-, again, free, -, -⟩ := sees _ knot
  obtain ⟨-, never, -, -, ground⟩ := sees_shared _ shared
  have first : ring.Sees [4, 7, 1] 5 [.again 1] := .again rfl (by decide)
  have second : ring.Sees [7, 1] 8 [.again 1] := .inside rfl (by decide) (.cons first .nil)
  have third : ring.Sees [1] 2 [.again 1] := .inside rfl (by decide) (.cons second .nil)
  have around : ring.Sees [] 0 [.again 1] := .inside rfl (by decide) (.cons third .nil)
  obtain ⟨cyclic_ring, -, -, sees_ring, -⟩ := formed_ring.walks_exact 0
  obtain ⟨-, again_ring, -, met, -⟩ := sees_ring _ around
  exact ⟨formed_knotted, cyclic.2 (again.1 ⟨1, by simp⟩), free.2 ⟨2, _, rfl⟩, by simpa using never,
    ground.2 rfl, formed_ring, cyclic_ring.2 (again_ring.1 ⟨1, by simp⟩), met.2 ⟨1, _, rfl⟩⟩

end HornMachine.Heap
