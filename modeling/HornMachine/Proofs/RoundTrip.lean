import HornMachine.Proofs.Code.Acceptance
import HornMachine.Proofs.Heap.Layout
import HornMachine.Proofs.Heap.Shown
import HornMachine.Proofs.Machine.Safety
import Mathlib.Data.Nat.Nth

/-!
# Terms put on the heap and read back

Terms are put on the heap with cells for their variables and read back with names for these cells.
Loading adds cells only, also where it is broken off; a structure that is too wide is the one reason
for that. Main statement: read back in order, with names that avoid reserved variables, the terms
are those that were loaded but for one renaming, which takes the variables in the order of their
first occurrences to the smallest variables that are not reserved; reading them again with the same
names gives the same (`readTerms_loadAll`).
-/

namespace HornMachine

/-! ### Structures that are too wide -/

namespace Heap.Load

private theorem exists_loadArgs_of_firstTooWide? {args : List Term} {wide : Term}
    (each : ∀ arg ∈ args, arg.tooWide? = some wide →
      ∀ state, ∃ later, load arg state = .error (.arityOverflow wide.args.length) later)
    (found : Term.firstTooWide? args = some wide) (slot : Address) (state : Loading) :
    ∃ later, loadArgs slot args state = .error (.arityOverflow wide.args.length) later := by
  induction args generalizing slot state with
  | nil => cases found
  | cons arg args ih =>
    obtain ⟨here, others⟩ := List.forall_mem_cons.1 each
    rw [Term.firstTooWide?] at found
    cases arg with
    | atom symbol | num value =>
      obtain ⟨later, failed⟩ := ih others found (slot + 1) _
      exact ⟨later, failed⟩
    | var v =>
      rw [loadArgs]
      simp only [bind_apply, variableAt]
      cases state.vars[v]? <;> exact ih others found _ _
    | struct symbol inner =>
      rw [loadArgs, bind_apply]
      cases searched : (Term.struct symbol inner).tooWide? with
      | some first =>
        rw [searched] at found
        cases found
        obtain ⟨later, failed⟩ := here searched state
        exact ⟨later, by rw [failed]⟩
      | none =>
        rw [searched] at found
        obtain ⟨target, next, loaded⟩ := exists_load (Rule.tooWide?_eq_none_iff.1 searched) state
        rw [loaded]
        exact ih others found _ _

/-- Loading stops at the first structure that is too wide. -/
theorem exists_load_of_tooWide? {term wide : Term} (found : term.tooWide? = some wide)
    (state : Loading) :
    ∃ later, load term state = .error (.arityOverflow wide.args.length) later := by
  induction term generalizing state with
  | atom symbol | var v | num value => cases found
  | struct symbol args ih =>
    rw [Term.tooWide?] at found
    by_cases many : args.length > Functor.maxArity
    · rw [if_pos many] at found
      cases found
      exact ⟨state, by rw [load, if_pos many]; rfl⟩
    · rw [if_neg many] at found
      rw [load, if_neg many]
      simp only [bind_apply, pushStructure, reserve]
      obtain ⟨later, failed⟩ :=
        exists_loadArgs_of_firstTooWide? (fun arg member ↦ ih arg member) found _ _
      rw [failed]
      exact ⟨later, rfl⟩

end Heap.Load

namespace Machine

/-- Loading terms stops at the first structure that is too wide. -/
theorem loadAll_of_firstTooWide? {terms : List Term} {wide : Term}
    (found : Term.firstTooWide? terms = some wide) (memory : Memory)
    (vars : Std.HashMap Var Address) :
    (loadAll memory terms vars).1 = .error (.arityOverflow wide.args.length) := by
  induction terms generalizing memory vars with
  | nil => cases found
  | cons term terms ih =>
    rw [Term.firstTooWide?] at found
    rw [loadAll, Heap.load, EStateM.run]
    cases searched : term.tooWide? with
    | some first =>
      rw [searched] at found
      cases found
      obtain ⟨later, failed⟩ :=
        Heap.Load.exists_load_of_tooWide? searched { heap := memory.heap, vars }
      rw [failed]
    | none =>
      rw [searched] at found
      obtain ⟨address, state, loaded⟩ :=
        Heap.Load.exists_load (Rule.tooWide?_eq_none_iff.1 searched)
        { heap := memory.heap, vars }
      rw [loaded]
      simp only [ih found, Except.map]

end Machine

/-! ### Terms on the heap -/

namespace Machine

open Heap (Loading)
open Heap.Loading (Assigns sound_of_formed meets_empty)

variable {memory later : Memory} {terms : List Term} {addresses : List Address}

/-- Terms that were loaded stand at their addresses, with a cell for each variable. -/
theorem shown_loadAll {admitted : Functor → Prop} (formed : memory.heap.Formed admitted 0)
    (kinds : ∀ term ∈ terms, term.AllFunctors admitted)
    (ended : loadAll memory terms ∅ = (.ok addresses, later)) :
    later.heap.Formed admitted 0 ∧ (∀ address ∈ addresses, address < later.heap.size) ∧
      ∃ cell : Var → Address, Set.InjOn cell {v | v ∈ terms.flatMap Term.occurrences} ∧
        List.Forall₂ later.heap.Shown addresses (terms.map fun term ↦ term.subst fun v ↦
          .var (cell v)) := by
  obtain ⟨more, run, -⟩ := mapM_of_loadAll ended
  obtain ⟨loads, inside⟩ :=
    Heap.Loading.loads_mapM (D := Tree) kinds (sound_of_formed formed (by simp)) run
  obtain ⟨-, placed⟩ := Heap.Loading.places_mapM run
  have grown := loads.sound.formed
  let cell (v : Var) : Address := (more[v]?).getD 0
  have known {v : Var} (occurs : v ∈ terms.flatMap Term.occurrences) :
    more[v]? = some (cell v) := by
    obtain ⟨place, found⟩ := placed v occurs
    simp only [cell, found, Option.getD_some]
  refine ⟨grown, inside, cell, ?_, ?_⟩
  · -- variables can stand for different terms
    have before := meets_empty.2 (formed.solution_trees fun place ↦ place)
    obtain ⟨θ, -, -, assigns⟩ :=
      loads.forth _ Tree.leaf before (fun v address found ↦ by simp at found) trivial
    intro v v_occurs w w_occurs same
    have at_v := assigns v (cell v) (known v_occurs)
    have at_w := assigns w (cell w) (known w_occurs)
    rw [same, at_w] at at_v
    exact (Tree.leaf_inj.1 at_v).symm
  · have solution := grown.solution_trees fun place ↦ place
    have assigns : Assigns more (later.heap.trees fun place ↦ place)
        fun v ↦ later.heap.trees (fun place ↦ place) (cell v) := by
      intro v address found
      simp only [cell, found, Option.getD_some]
    have values := (loads.back _ (meets_empty.2 solution)).2 _ assigns
    have shown {term : Term} (member : term ∈ terms) :
        (term.subst fun v ↦ .var (cell v)).tree =
          term.eval fun v ↦ later.heap.trees (fun place ↦ place) (cell v) := by
      rw [Term.tree, Term.eval_subst]
      refine Term.eval_congr fun v occurs ↦ ?_
      have free :=
        (loads.sound.vars v (cell v) (known (List.mem_flatMap.2 ⟨term, member, occurs⟩))).2
      rw [Heap.trees_of_unbound _ (Heap.value_of_free free), Term.eval_var]
    have stand : List.Forall₂ (· = ·) (addresses.map (later.heap.trees fun place ↦ place))
        ((terms.map fun term ↦ term.subst fun v ↦ .var (cell v)).map Term.tree) := by
      rw [List.forall₂_eq_eq_eq, values, List.map_map]
      exact List.map_congr_left fun term member ↦ (shown member).symm
    rwa [List.forall₂_map_left_iff, List.forall₂_map_right_iff] at stand

end Machine

/-! ### Reading with names -/

namespace VarNames

variable {names later : VarNames} {heap : Heap} {term : Term}

/-- The name of a cell. -/
def called (names : VarNames) (cell : Address) : Var := (names.names[cell]?).getD 0

/-- A term that has cells for its variables, with the names of the cells instead. -/
def renamed (names : VarNames) (term : Term) : Term :=
  term.subst fun cell ↦ .var (names.called cell)

/-- All cells in a term have names. -/
def Knows (names : VarNames) (term : Term) : Prop :=
  ∀ cell ∈ term.occurrences, ∃ v, names.names[cell]? = some v

private theorem called_eq {cell : Address} {v : Var} (known : names.names[cell]? = some v) :
    names.called cell = v := by
  rw [called, known, Option.getD_some]

theorem Knows.mono (knows : names.Knows term) (keeps : names.Keeps later) : later.Knows term := by
  intro cell occurs
  obtain ⟨v, known⟩ := knows cell occurs
  exact ⟨v, keeps.kept cell v known⟩

/-- A cell that has a name keeps it. -/
theorem Knows.renamed_eq (knows : names.Knows term) (keeps : names.Keeps later) :
    later.renamed term = names.renamed term := by
  refine Term.subst_congr fun cell occurs ↦ ?_
  obtain ⟨v, known⟩ := knows cell occurs
  rw [called_eq known, called_eq (keeps.kept cell v known)]

/-- Cells of one name are the same. -/
theorem Proper.called_injOn (proper : names.Proper heap) :
    Set.InjOn names.called {cell | ∃ v, names.names[cell]? = some v} := by
  rintro cell ⟨v, known⟩ other ⟨w, other_known⟩ same
  rw [called_eq known, called_eq other_known] at same
  exact proper.injective cell other v known (same ▸ other_known)

/-- Where variables went to cells of their own and the cells have names, the variables were
renamed. -/
theorem Proper.exists_perm_renamed (proper : names.Proper heap) {terms : List Term}
    {cell : Var → Address} (apart : Set.InjOn cell {v | v ∈ terms.flatMap Term.occurrences})
    (knows : ∀ term ∈ terms, names.Knows (term.subst fun v ↦ .var (cell v))) :
    ∃ ρ : Equiv.Perm Var, ∀ term ∈ terms,
      names.renamed (term.subst fun v ↦ .var (cell v)) = term.subst fun v ↦ .var (ρ v) := by
  have named (v : Var) (occurs : v ∈ terms.flatMap Term.occurrences) :
    ∃ w, names.names[cell v]? = some w := by
    obtain ⟨term, member, inside⟩ := List.mem_flatMap.1 occurs
    refine knows term member (cell v) ?_
    rw [Term.occurrences_rename]
    exact List.mem_map_of_mem inside
  have injective : Set.InjOn (fun v ↦ names.called (cell v))
      ((terms.flatMap Term.occurrences).toFinset : Set Var) := by
    rw [List.coe_toFinset]
    exact proper.called_injOn.comp apart named
  obtain ⟨ρ, agrees⟩ := exists_perm_of_injOn injective
  refine ⟨ρ, fun term member ↦ ?_⟩
  rw [renamed, Term.subst_subst]
  refine Term.subst_congr fun v occurs ↦ ?_
  rw [Term.subst_var, agrees v (List.mem_toFinset.2 (List.mem_flatMap.2 ⟨term, member, occurs⟩))]

end VarNames

section Reading

variable {heap : Heap} {admitted : Functor → Prop} (formed : heap.Formed admitted 0)

include formed

/-- The term at an address is read with the names of its cells. -/
theorem Heap.Formed.extractNamed_shown {address : Address} (inside : address < heap.size)
    {term : Term}
    (shown : heap.Shown address term) {names : VarNames} (proper : names.Proper heap) :
    ∃ later, heap.extractNamed address names = (.ok (later.renamed term.collapse), later) ∧
      later.Proper heap ∧ names.Keeps later ∧ later.Knows term := by
  have solution := formed.solution_trees fun cell ↦ cell
  obtain ⟨still, keeps, raw, read, reads⟩ := readsAs_extractNamed formed inside proper
  cases ended : heap.extractNamed address names with
  | mk result later =>
    rw [ended] at still keeps read reads
    cases raw with
    | none => exact absurd shown (reads _ solution term)
    | some raw =>
      have named : ∀ v ∈ raw.occurrences, ∃ cell : Address, later.names[cell]? = some v := by
        intro v occurs
        refine still.exists_named (θ := heap.trees fun cell ↦ cell)
          (fun β γ stands also ↦ ?_) occurs
        exact (reads.2 _ solution β stands).symm.trans (reads.2 _ solution γ also)
      choose! cell known using named
      obtain rfl : term = raw.subst fun v ↦ .var (cell v) :=
        Term.tree_injective (shown.symm.trans (reads.shown still formed known))
      have back : later.renamed (raw.subst fun v ↦ .var (cell v)).collapse = raw.collapse := by
        rw [Term.collapse_rename, VarNames.renamed, Term.subst_subst]
        refine (Term.subst_congr fun v occurs ↦ ?_).trans raw.collapse.subst_self
        rw [Term.subst_var, VarNames.called_eq (known v (Term.mem_occurrences_collapse.1 occurs))]
      refine ⟨later, ?_, still, keeps, fun place occurs ↦ ?_⟩
      · rw [back]
        exact congrArg (·, later) read
      · rw [Term.occurrences_rename] at occurs
        obtain ⟨v, inside, rfl⟩ := List.mem_map.1 occurs
        exact ⟨v, known v inside⟩

/-- Terms are read one after another with the names of their cells, which are given in order. -/
theorem Exec.readTerms_shown {addresses : List Address}
    (inside : ∀ address ∈ addresses, address < heap.size)
    {terms : List Term} (shown : List.Forall₂ heap.Shown addresses terms)
    (canonical : ∀ term ∈ terms, term.Canonical) {names : VarNames} {met : List Var}
    (counts : names.Counts heap met) :
    ∃ later, readTerms heap addresses names = .ok (terms.map later.renamed, later) ∧
      later.Counts heap (met ++ (terms.map later.renamed).flatMap Term.occurrences) ∧
      names.Keeps later ∧ ∀ term ∈ terms, later.Knows term := by
  induction shown generalizing names met with
  | nil => exact ⟨names, rfl, by simpa using counts, .refl _, by simp⟩
  | @cons address term addresses terms here _ ih =>
    obtain ⟨address_inside, others_inside⟩ := List.forall_mem_cons.1 inside
    obtain ⟨term_canonical, others_canonical⟩ := List.forall_mem_cons.1 canonical
    obtain ⟨middle, read, -, keeps, knows⟩ :=
      formed.extractNamed_shown address_inside here counts.proper
    rw [term_canonical.collapse] at read
    obtain ⟨last, others, ordered, more, each⟩ :=
      ih others_inside others_canonical (counts.extractNamed read)
    have same := knows.renamed_eq more
    refine ⟨last, ?_, ?_, keeps.trans more, List.forall_mem_cons.2 ⟨knows.mono more, each⟩⟩
    · rw [List.map_cons, same]
      simp only [readTerms, read]
      exact Except.bind_eq_ok.2 ⟨_, rfl, Except.bind_eq_ok.2 ⟨_, others, rfl⟩⟩
    · rw [List.map_cons, List.flatMap_cons, ← List.append_assoc, same]
      exact ordered

end Reading

/-! ### There and back -/

/-- The numbers below a bound that have a property, in order. -/
theorem filter_range_eq_map_nth (holds : Nat → Prop) [DecidablePred holds] (bound : Nat) :
    (List.range bound).filter (holds ·) = (List.range (Nat.count holds bound)).map
    (Nat.nth holds) := by
  induction bound with
  | zero => rfl
  | succ bound ih =>
    rw [List.range_succ, List.filter_append, ih, Nat.count_succ]
    by_cases last : holds bound
    · simp [last, List.range_succ, Nat.nth_count last]
    · simp [last]

/-- Names that were given in order are the smallest ones that are not reserved. -/
theorem VarNames.Counts.eraseDups_eq {names : VarNames} {heap : Heap} {met ids : List Var}
    (counts : names.Counts heap met) (reserved : names.reserved = Std.TreeSet.ofList ids) :
    met.eraseDups = (List.range met.eraseDups.length).map (Nat.nth (· ∉ ids)) := by
  have free (v : Var) : v ∉ names.reserved ↔ v ∉ ids := by
    rw [reserved, Std.TreeSet.mem_ofList]
    simp
  have order : met.eraseDups = (List.range (Nat.count (· ∉ ids) names.next)).map
    (Nat.nth (· ∉ ids)) := by
    rw [counts.order, ← filter_range_eq_map_nth (· ∉ ids)]
    exact List.filter_congr fun v _ ↦ decide_eq_decide.2 (free v)
  have length := congrArg List.length order
  rw [List.length_map, List.length_range] at length
  rw [length]
  exact order

/-- The variables of terms, each once, in the order of their first occurrences. -/
def Term.firstVars (terms : List Term) : List Var := distinct (terms.flatMap occurrences)

namespace Machine

variable {memory : Memory}

/-- Terms that were loaded are read back, with the smallest variables that are not reserved for
theirs. -/
theorem exists_readTerms_loadAll (formed : memory.heap.Formed (fun _ ↦ True) 0) {terms : List Term}
    (canonical : ∀ term ∈ terms, term.Canonical) (fits : ∀ term ∈ terms, term.fits = true)
    (ids : List Var) :
    ∃ (addresses : List Address) (later : Memory) (ρ : Equiv.Perm Var) (names again : VarNames),
      loadAll memory terms ∅ = (.ok addresses, later) ∧
      (Term.firstVars terms).map ρ = (List.range (Term.firstVars terms).length).map
      (Nat.nth (· ∉ ids)) ∧
      Exec.readTerms later.heap addresses (.reserving ids) =
        .ok (terms.map fun term ↦ term.subst fun v ↦ .var (ρ v), names) ∧
      Exec.readTerms later.heap addresses names =
        .ok (terms.map fun term ↦ term.subst fun v ↦ .var (ρ v), again) := by
  obtain ⟨addresses, later, ended, -⟩ := exists_loadAll fits memory ∅
  obtain ⟨grown, inside, cell, apart, shown⟩ :=
    shown_loadAll formed (fun term _ ↦ term.allFunctors_true) ended
  have shown_canonical : ∀ term ∈ terms.map fun term ↦ term.subst fun v ↦ .var (cell v),
    term.Canonical :=
    List.forall_mem_map.2 fun term member ↦ (canonical term member).subst fun _ _ ↦ trivial
  obtain ⟨names, read, counts, keeps, knows⟩ :=
    Exec.readTerms_shown grown inside shown shown_canonical (.reserving ids later.heap)
  obtain ⟨again, reread, -, more, -⟩ :=
    Exec.readTerms_shown grown inside shown shown_canonical counts
  obtain ⟨ρ, renames⟩ := counts.proper.exists_perm_renamed apart (List.forall_mem_map.1 knows)
  have back : (terms.map fun term ↦ term.subst fun v ↦ .var (cell v)).map names.renamed =
      terms.map fun term ↦ term.subst fun v ↦ .var (ρ v) := by
    rw [List.map_map]
    exact List.map_congr_left renames
  have occurring : (terms.map fun term ↦ term.subst fun v ↦ .var (ρ v)).flatMap Term.occurrences =
      (terms.flatMap Term.occurrences).map ρ := by
    simp only [List.flatMap_map, List.map_flatMap, Term.occurrences_rename]
  have still : (terms.map fun term ↦ term.subst fun v ↦ .var (cell v)).map again.renamed =
      (terms.map fun term ↦ term.subst fun v ↦ .var (cell v)).map names.renamed :=
    List.map_congr_left fun term member ↦ (knows term member).renamed_eq more
  rw [List.nil_append, back, occurring] at counts
  rw [back] at read still
  rw [still] at reread
  refine ⟨addresses, later, ρ, names, again, ended, ?_, read, reread⟩
  have order := counts.eraseDups_eq keeps.reserved
  rwa [Term.eraseDups_map_of_injOn ρ.injective.injOn, List.length_map,
    ← Term.distinct_eq_eraseDups] at order

/-- Terms that are put on the heap are read back as they were, but for a renaming of their variables
that is settled by the order of these and by what is reserved. No cell that was there is changed,
also where a structure is too wide to be put on the heap. -/
theorem readTerms_loadAll (formed : memory.heap.Formed (fun _ ↦ True) 0) (terms : List Term)
    (ids : List Var) :
    (∀ address : Nat, address < memory.heap.size →
      (loadAll memory terms ∅).2.heap.cells[address]? = memory.heap.cells[address]?) ∧
    ((∀ term ∈ terms, term.Canonical) → (∀ term ∈ terms, term.fits = true) →
      ∃ (addresses : List Address) (later : Memory) (ρ : Equiv.Perm Var) (names again : VarNames),
        loadAll memory terms ∅ = (.ok addresses, later) ∧
        (Term.firstVars terms).map ρ = (List.range (Term.firstVars terms).length).map
        (Nat.nth (· ∉ ids)) ∧
        Exec.readTerms later.heap addresses (.reserving ids) =
          .ok (terms.map fun term ↦ term.subst fun v ↦ .var (ρ v), names) ∧
        Exec.readTerms later.heap addresses names =
          .ok (terms.map fun term ↦ term.subst fun v ↦ .var (ρ v), again)) ∧
    ((∃ term ∈ terms, term.fits = false) →
      ∃ wide, Term.firstTooWide? terms = some wide ∧ Functor.maxArity < wide.args.length ∧
        (loadAll memory terms ∅).1 = .error (.arityOverflow wide.args.length)) := by
  refine ⟨(extends_loadAll memory terms ∅).kept,
    fun canonical fits ↦ exists_readTerms_loadAll formed canonical fits ids, fun unfit ↦ ?_⟩
  obtain ⟨wide, found⟩ := Term.exists_firstTooWide? unfit
  obtain ⟨term, -, inside⟩ := Term.exists_mem_of_firstTooWide? found
  exact ⟨wide, found, (Term.tooWide?_eq_some inside).1, loadAll_of_firstTooWide? found memory ∅⟩

/-- Two terms that share a variable are read back with the variables 1 and 3 if 0 and 2 are
reserved, and a structure with 256 arguments is refused. -/
theorem readTerms_loadAll_shared :
    (∃ addresses later names,
      loadAll { heap := Heap.pushVar {} } [.struct ⟨0⟩ [.var 7, .var 9, .var 7],
        .struct ⟨1⟩ [.var 9]] ∅ =
        (.ok addresses, later) ∧
      Exec.readTerms later.heap addresses (.reserving [0, 2]) =
        .ok ([.struct ⟨0⟩ [.var 1, .var 3, .var 1], .struct ⟨1⟩ [.var 3]], names)) ∧
    (loadAll { heap := Heap.pushVar {} } [.struct ⟨0⟩ (List.replicate 256 (.num 0))] ∅).1 =
      .error (.arityOverflow 256) := by
  have formed : (Heap.pushVar {}).Formed (fun _ ↦ True) 0 := Heap.Formed.empty.pushVar
  constructor
  · obtain ⟨-, reads, -⟩ := @readTerms_loadAll { heap := Heap.pushVar {} } formed
      [.struct ⟨0⟩ [.var 7, .var 9, .var 7], .struct ⟨1⟩ [.var 9]] [0, 2]
    obtain ⟨addresses, later, ρ, names, again, ended, order, read, -⟩ :=
      reads (by simp [Term.Canonical, Term.AllFunctors, Term.AllFunctorsList])
        (by simp [Term.fits, Term.allFit, Functor.maxArity])
    have met : Term.firstVars [.struct ⟨0⟩ [.var 7, .var 9, .var 7], .struct ⟨1⟩ [.var 9]] =
      [7, 9] := by
      rw [Term.firstVars, Term.distinct_eq_eraseDups]
      rfl
    have first : Nat.nth (· ∉ [0, 2]) 0 = 1 :=
      Nat.nth_count (p := (· ∉ [0, 2])) (n := 1) (by decide)
    have second : Nat.nth (· ∉ [0, 2]) 1 = 3 :=
      Nat.nth_count (p := (· ∉ [0, 2])) (n := 3) (by decide)
    rw [met] at order
    simp only [List.map_cons, List.map_nil, List.length_cons, List.length_nil, List.range_succ,
      List.range_zero,
      List.nil_append, List.cons_append, first, second, List.cons.injEq, and_true] at order
    refine ⟨addresses, later, names, ended, ?_⟩
    simpa [order.1, order.2] using read
  · obtain ⟨-, -, refuses⟩ := @readTerms_loadAll { heap := Heap.pushVar {} } formed
      [.struct ⟨0⟩ (List.replicate 256 (.num 0))] []
    have many : Functor.maxArity < 256 := by decide
    have unfit : (Term.struct ⟨0⟩ (List.replicate 256 (.num 0))).fits = false := by
      rw [Term.fits, List.length_replicate]
      rfl
    obtain ⟨wide, found, -, failed⟩ := refuses ⟨_, List.mem_singleton_self _, unfit⟩
    rw [failed]
    simp only [Term.firstTooWide?, Term.tooWide?, List.length_replicate, if_pos many] at found
    cases found
    rw [Term.args, List.length_replicate]

end Machine

end HornMachine
