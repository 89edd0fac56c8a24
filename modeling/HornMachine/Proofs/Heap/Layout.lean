import HornMachine.Proofs.Heap.Loading
import HornMachine.Proofs.Machine.Counters

/-!
# How terms lie in memory

A header is followed by its argument cells, and these are plain: a nested structure lies elsewhere
and is referred to. The trail lists variables that are bound, each of them once. Main statements:
adding plain cells and binding free variables keep this (`Memory.Writes.clean`), beginning a
structure keeps it if no other one misses arguments (`Memory.Clean.pushStructure`), and so does
loading a term, also where it is broken off (`Heap.loadable_laid`).
-/

namespace HornMachine

/-- A cell that may be an argument of a structure: neither a structure nor a header. -/
def Cell.Plain : Cell → Prop
  | .ref _ | .atom _ | .num _ => True
  | .str _ | .functor _ => False

theorem Cell.Plain.ref (target : Address) : (Cell.ref target).Plain := trivial

namespace Heap

/-! ### Older cells -/

/-- Cells were added to a heap and none was changed. -/
structure Extends (heap later : Heap) : Prop where
  grown : heap.size ≤ later.size
  kept : ∀ address : Nat, address < heap.size → later.cells[address]? = heap.cells[address]?

namespace Extends

variable {heap later last : Heap}

theorem refl (heap : Heap) : heap.Extends heap := ⟨Nat.le_refl _, fun _ _ ↦ rfl⟩

theorem trans (one : heap.Extends later) (two : later.Extends last) : heap.Extends last where
  grown := Nat.le_trans one.grown two.grown
  kept address lower := by
    rw [two.kept address (Nat.lt_of_lt_of_le lower one.grown), one.kept address lower]

theorem push (extended : heap.Extends later) (cell : Cell) : heap.Extends (later.push cell) where
  grown := by
    have grown := extended.grown
    rw [size_push]
    omega
  kept address lower := by
    have inside := Nat.lt_of_lt_of_le lower extended.grown
    rw [Formed.getElem?_push_of_lt cell inside, extended.kept address lower]

/-- A cell that was added may still be filled in. -/
theorem set (extended : heap.Extends later) {place : Nat} (new : heap.size ≤ place) (cell : Cell) :
    heap.Extends (later.set place cell) where
  grown := by
    rw [size_set]
    exact extended.grown
  kept address lower := by
    have apart : place ≠ address := (Nat.lt_of_lt_of_le lower new).ne'
    rw [getElem?_set, if_neg fun both ↦ apart both.1, extended.kept address lower]

theorem begun (heap : Heap) (functor : Functor) : heap.Extends (Loading.begun heap functor) where
  grown := by
    rw [Loading.size_begun]
    omega
  kept _ lower := Loading.getElem?_begun_of_lt functor lower

end Extends

/-! ### Argument cells -/

/-- The argument cells that are there are plain. -/
def Laid (heap : Heap) : Prop :=
  ∀ (header : Nat) (functor : Functor) (index : Nat) (cell : Cell),
    heap.cells[header]? = some (.functor functor) → index < functor.arity →
    heap.cells[argument header index]? = some cell → cell.Plain

/-- No structure misses arguments. -/
def Filled (heap : Heap) : Prop :=
  ∀ (header : Nat) (functor : Functor), heap.cells[header]? = some (.functor functor) →
    header + functor.arity < heap.size

/-- No structure misses arguments, but for one whose header is given. -/
def FilledBut (heap : Heap) (unfinished : Address) : Prop :=
  ∀ (header : Nat) (functor : Functor), heap.cells[header]? = some (.functor functor) →
    header ≠ unfinished →
    header + functor.arity < heap.size

variable {heap : Heap} {cell : Cell}

private theorem laid_empty : ({} : Heap).Laid := fun header functor _ _ here ↦ by simp at here

private theorem filled_empty : ({} : Heap).Filled := fun header functor here ↦ by simp at here

/-- A header that is there after a plain cell was added was there before. -/
theorem functor_of_push (plain : cell.Plain) {header : Nat} {functor : Functor}
    (here : (heap.push cell).cells[header]? = some (.functor functor)) :
    heap.cells[header]? = some (.functor functor) := by
  rw [getElem?_push] at here
  split at here
  · cases here
    exact plain.elim
  · exact here

/-- So it is when a cell is replaced by a plain one. -/
theorem functor_of_set (plain : cell.Plain) {place header : Nat} {functor : Functor}
    (here : (heap.set place cell).cells[header]? = some (.functor functor)) :
    heap.cells[header]? = some (.functor functor) := by
  rw [getElem?_set] at here
  split at here
  · cases here
    exact plain.elim
  · exact here

theorem Laid.push (laid : heap.Laid) (plain : cell.Plain) : (heap.push cell).Laid := by
  intro header functor index found here lower at_argument
  rw [getElem?_push] at at_argument
  split at at_argument
  · cases at_argument
    exact plain
  · exact laid header functor index found (functor_of_push plain here) lower at_argument

theorem Filled.push (filled : heap.Filled) (plain : cell.Plain) : (heap.push cell).Filled := by
  intro header functor here
  have bound := filled header functor (functor_of_push plain here)
  rw [size_push]
  omega

theorem Laid.set (laid : heap.Laid) (plain : cell.Plain) (place : Nat) :
    (heap.set place cell).Laid := by
  intro header functor index found here lower at_argument
  rw [getElem?_set] at at_argument
  split at at_argument
  · cases at_argument
    exact plain
  · exact laid header functor index found (functor_of_set plain here) lower at_argument

theorem Filled.set (filled : heap.Filled) (plain : cell.Plain) (place : Nat) :
    (heap.set place cell).Filled := by
  intro header functor here
  rw [size_set]
  exact filled header functor (functor_of_set plain here)

/-- A structure may be begun if no other one misses arguments. -/
theorem Laid.pushStructure (laid : heap.Laid) (filled : heap.Filled) (functor : Functor) :
    (heap.pushStructure functor).Laid := by
  intro header other index found here lower at_argument
  have inside := lt_size_of_getElem? at_argument
  rw [size_pushStructure] at inside
  simp only [argument] at inside at_argument
  rw [getElem?_pushStructure] at here at_argument
  split at here
  · next last => omega
  · split at here
    · cases here
    · have bound := filled header other here
      rw [if_neg (by omega), if_neg (by omega)] at at_argument
      exact laid header other index found here lower at_argument

/-- The structure that was begun is the only one that may miss arguments. -/
theorem Filled.pushStructure (filled : heap.Filled) (functor : Functor) :
    (heap.pushStructure functor).FilledBut (heap.size + 1) := by
  intro header other here apart
  rw [getElem?_pushStructure, if_neg apart] at here
  split at here
  · cases here
  · have bound := filled header other here
    rw [size_pushStructure]
    omega

/-- Once the arguments of the remaining structure are there, none misses any. -/
theorem FilledBut.filled {unfinished : Nat} (others : heap.FilledBut unfinished) {functor : Functor}
    (here : heap.cells[unfinished]? = some (.functor functor))
    (enough : unfinished + functor.arity < heap.size) :
    heap.Filled := by
  intro header other there
  by_cases own : header = unfinished
  · subst own
    cases here.symm.trans there
    exact enough
  · exact others header other there own

/-- A structure with its argument cells reserved misses none, and they are plain. -/
theorem laid_begun (laid : heap.Laid) (filled : heap.Filled) (functor : Functor) :
    (Loading.begun heap functor).Laid ∧ (Loading.begun heap functor).Filled := by
  have reserved {address : Nat} {found : Cell} (member : address ∈ Loading.places heap functor)
      (here : (Loading.begun heap functor).cells[address]? = some found) : found = .ref 0 := by
    have above := member.1
    rw [Loading.begun, Loading.getElem?_foldl_push, size_pushStructure, if_neg (by omega)] at here
    exact List.eq_of_mem_replicate (List.mem_of_getElem? here)
  -- headers are older ones and the new one
  have headers {header : Nat} {other : Functor}
      (here : (Loading.begun heap functor).cells[header]? = some (.functor other)) :
      heap.cells[header]? = some (.functor other) ∨ (header = heap.size + 1 ∧ other = functor) := by
    have fresh (member : header ∈ Loading.places heap functor) : False := by
      cases reserved member here
    obtain old | ⟨-, new⟩ | ⟨at_header, new⟩ := Loading.getElem?_begun here fresh
    · exact .inl old
    · cases new
    · cases new
      exact .inr ⟨at_header, rfl⟩
  refine ⟨fun header other index found here lower at_argument ↦ ?_, fun header other here ↦ ?_⟩
  · obtain old | ⟨rfl, rfl⟩ := headers here
    · have bound := filled header other old
      rw [Loading.getElem?_begun_of_lt functor (by simp only [argument]; omega)] at at_argument
      exact laid header other index found old lower at_argument
    · have member : argument (heap.size + 1) index ∈ Loading.places heap other :=
        ⟨by simp only [argument]; omega, by simp only [argument]; omega⟩
      rw [reserved member at_argument]
      exact trivial
  · rw [Loading.size_begun]
    obtain old | ⟨rfl, rfl⟩ := headers here
    · have bound := filled header other old
      omega
    · omega

/-! ### Loading -/

/-- What adding plain cells at the end, reserving the cells of a structure and filling in cells from
`base` on keep. -/
structure Loadable (base : Nat) (holds : Heap → Prop) : Prop where
  grown : ∀ {heap : Heap}, holds heap → base ≤ heap.size
  push : ∀ {heap : Heap} {cell : Cell}, cell.Plain → holds heap → holds (heap.push cell)
  fill : ∀ {heap : Heap} {place : Nat} {cell : Cell}, base ≤ place → cell.Plain → holds heap →
    holds (heap.set place cell)
  begun : ∀ {heap : Heap} (functor : Functor), holds heap → holds (Loading.begun heap functor)

private theorem loadable_extends (heap : Heap) : Loadable heap.size heap.Extends where
  grown extended := extended.grown
  push _ extended := extended.push _
  fill new _ extended := extended.set new _
  begun functor extended := extended.trans (.begun _ functor)

theorem loadable_laid : Loadable 0 fun heap ↦ heap.Laid ∧ heap.Filled where
  grown _ := Nat.zero_le _
  push plain both := ⟨both.1.push plain, both.2.push plain⟩
  fill _ plain both := ⟨both.1.set plain _, both.2.set plain _⟩
  begun functor both := laid_begun both.1 both.2 functor

namespace Load

variable {base : Nat} {holds : Heap → Prop} (loadable : Loadable base holds)

include loadable

/-- Filling in argument cells keeps what loading an argument keeps. -/
theorem preserves_loadArgs {args : List Term}
    (each : ∀ arg ∈ args, Preserves (fun state ↦ holds state.heap) (load arg)) {slot : Nat}
    (new : base ≤ slot) : Preserves (fun state ↦ holds state.heap) (loadArgs slot args) := by
  have fills {slot : Nat} (new : base ≤ slot) {cell : Cell} (plain : cell.Plain) :
      Preserves (fun state ↦ holds state.heap) (fill slot cell) :=
    preserves_modify fun _ before ↦ loadable.fill new plain before
  induction args generalizing slot with
  | nil => exact preserves_pure _
  | cons arg args ih =>
    obtain ⟨here, others⟩ := List.forall_mem_cons.1 each
    have rest := ih others (Nat.le_succ_of_le new)
    cases arg with
    | atom symbol | num value => exact preserves_bind (fills new trivial) fun _ ↦ rest
    | var v =>
      have finds : Preserves (fun state ↦ holds state.heap) (variableAt v slot) := by
        intro state before
        unfold variableAt
        cases state.vars[v]? <;> exact before
      exact preserves_bind finds fun _ ↦ preserves_bind (fills new trivial) fun _ ↦ rest
    | struct symbol inner =>
      exact preserves_bind here fun _ ↦ preserves_bind (fills new trivial) fun _ ↦ rest

/-- Loading keeps it, whether it ends well or not. -/
theorem preserves_load (term : Term) : Preserves (fun state ↦ holds state.heap) (load term) := by
  induction term with
  | atom symbol | num value => exact fun _ before ↦ loadable.push trivial before
  | var v =>
    intro state before
    rw [load]
    unfold loadVar
    cases state.vars[v]? with
    | none => exact loadable.push trivial before
    | some address => exact before
  | struct symbol args ih =>
    intro state before
    by_cases wide : args.length > Functor.maxArity
    · rw [load, if_pos wide]
      exact before
    · rw [load, if_neg wide]
      have new : base ≤ (state.heap.pushStructure ⟨symbol, args.length⟩).size := by
        have grown := loadable.grown before
        rw [size_pushStructure]
        omega
      have inner :=
        preserves_bind (preserves_loadArgs loadable (fun arg member ↦ ih arg member) new)
        fun _ ↦ preserves_pure state.heap.size
      exact inner { state with heap := Loading.begun state.heap ⟨symbol, args.length⟩ }
        (loadable.begun _ before)

end Load

variable {base : Nat} {holds : Heap → Prop}

theorem Loadable.load (loadable : Loadable base holds) (before : holds heap) (term : Term)
    (vars : Std.HashMap Var Address) : holds (heap.load term vars).2.heap := by
  have kept := Load.preserves_load loadable term { heap, vars } before
  rw [Heap.load, EStateM.run]
  cases loaded : Load.load term { heap, vars } with
  | ok address state =>
    rw [loaded] at kept
    exact kept
  | error fault state =>
    rw [loaded] at kept
    exact kept

end Heap

/-- Loading terms one after another keeps what loading one keeps, also where it is broken off. -/
theorem Heap.Loadable.loadAll {base : Nat} {holds : Heap → Prop}
    (loadable : Heap.Loadable base holds)
    {memory : Memory} (before : holds memory.heap) (terms : List Term)
    (vars : Std.HashMap Var Address) :
    holds (Machine.loadAll memory terms vars).2.heap := by
  induction terms generalizing memory vars with
  | nil => exact before
  | cons term terms ih =>
    have first := loadable.load before term vars
    rw [Machine.loadAll]
    cases loaded : memory.heap.load term vars with
    | mk result state =>
      rw [loaded] at first
      cases result with
      | error fault => exact first
      | ok address => exact @ih { memory with heap := state.heap } first state.vars

/-- Loading terms keeps the cells there were, also where it is broken off. -/
theorem Machine.extends_loadAll (memory : Memory) (terms : List Term)
    (vars : Std.HashMap Var Address) :
    memory.heap.Extends (loadAll memory terms vars).2.heap :=
  (Heap.loadable_extends memory.heap).loadAll (.refl _) terms vars

/-! ### Memory -/

namespace Memory

/-- Pointers lead where they should, argument cells are plain, and the trail lists bound variables,
each of them once. The structure begun last may miss arguments. -/
structure Clean (memory : Memory) : Prop where
  formed : ∃ missing, memory.heap.Formed (fun _ ↦ True) missing
  laid : memory.heap.Laid
  bound : ∀ address ∈ memory.trail, ∃ target, memory.heap.Refers target address
  once : memory.trail.toList.Nodup

/-- No structure misses arguments. -/
structure Whole (memory : Memory) : Prop extends memory.Clean where
  filled : memory.heap.Filled

variable {memory later : Memory}

theorem whole_empty : ({} : Memory).Whole where
  formed := ⟨0, .empty⟩
  laid := Heap.laid_empty
  bound := by simp
  once := List.nodup_nil
  filled := Heap.filled_empty

/-- Where no structure misses arguments, the heap is well formed without exception. -/
theorem Whole.formed_zero (whole : memory.Whole) : memory.heap.Formed (fun _ ↦ True) 0 := by
  obtain ⟨missing, formed⟩ := whole.formed
  exact { formed with functor := fun header functor here ↦
    ⟨trivial, whole.filled header functor here⟩ }

private theorem plain_of_simple {heap : Heap} {cell : Cell}
    (simple : Heap.Formed.Simple heap cell) :
    cell.Plain := by
  cases cell with
  | str | functor => exact simple.elim
  | ref | atom | num => exact trivial

namespace Clean

/-- Bound variables stay bound where their cells are kept. -/
theorem bound_of_extends (clean : memory.Clean) {heap : Heap}
    (extended : memory.heap.Extends heap) :
    ∀ address ∈ memory.trail, ∃ target, heap.Refers target address := by
  intro address member
  obtain ⟨target, here, bound⟩ := clean.bound address member
  exact ⟨target, (extended.kept address (Heap.lt_size_of_getElem? here)).trans here, bound⟩

theorem push (clean : memory.Clean) {cell : Cell} (simple : Heap.Formed.Simple memory.heap cell) :
    ({ memory with heap := memory.heap.push cell } : Memory).Clean where
  formed := by
    obtain ⟨missing, formed⟩ := clean.formed
    exact ⟨_, formed.push simple⟩
  laid := clean.laid.push (plain_of_simple simple)
  bound := clean.bound_of_extends ((Heap.Extends.refl _).push cell)
  once := clean.once

/-- A structure may be begun if no other one misses arguments. -/
theorem pushStructure (clean : memory.Clean) (filled : memory.heap.Filled) (functor : Functor) :
    ({ memory with heap := memory.heap.pushStructure functor } : Memory).Clean where
  formed := ⟨_, (Whole.formed_zero ⟨clean, filled⟩).pushStructure trivial⟩
  laid := clean.laid.pushStructure filled functor
  bound := clean.bound_of_extends (((Heap.Extends.refl _).push _).push _)
  once := clean.once

/-- A variable that is bound was not on the trail, since it was free. -/
theorem assign (clean : memory.Clean) {check : OccursCheck} {address target : Nat}
    (admissible : Target check memory.heap address target) :
    (memory.assign address target).Clean where
  formed := by
    obtain ⟨missing, formed⟩ := clean.formed
    exact ⟨_, formed.assign admissible⟩
  laid := clean.laid.set (.ref target) address
  bound other member := by
    have inside := Heap.lt_size_of_getElem? admissible.unbound
    by_cases same : address = other
    · subst same
      exact ⟨target, by simp [Memory.assign, Heap.getElem?_set, inside], admissible.ne⟩
    · obtain older | rfl := Array.mem_push.1 member
      · obtain ⟨next, here, bound⟩ := clean.bound other older
        exact ⟨next, by simpa [Memory.assign, Heap.getElem?_set, same] using here, bound⟩
      · exact absurd rfl same
  once := by
    have fresh : address ∉ memory.trail := by
      intro member
      obtain ⟨next, here, bound⟩ := clean.bound address member
      cases admissible.unbound.symm.trans here
      exact bound rfl
    rw [Memory.assign, Array.toList_push, List.nodup_append]
    refine ⟨clean.once, List.nodup_singleton _, fun other member last new ↦ ?_⟩
    rw [List.mem_singleton.1 new]
    rintro rfl
    exact fresh (Array.mem_toList_iff.1 member)

end Clean

/-- Memories that one leads to by adding plain cells and binding free variables. -/
inductive Writes (memory : Memory) : Memory → Prop
  | refl : Writes memory memory
  | push {later : Memory} (before : Writes memory later) {cell : Cell}
    (simple : Heap.Formed.Simple later.heap cell) :
    Writes memory { later with heap := later.heap.push cell }
  | assign {later : Memory} (before : Writes memory later) {check : OccursCheck}
    {address target : Address} (admissible : Target check later.heap address target) :
    Writes memory (later.assign address target)

namespace Writes

theorem clean (writes : memory.Writes later) (before : memory.Clean) : later.Clean := by
  induction writes with
  | refl => exact before
  | push _ simple ih => exact ih.push simple
  | assign _ admissible ih => exact ih.assign admissible

/-- The headers are those there were. -/
theorem functor_iff (writes : memory.Writes later) {header : Nat} {functor : Functor} :
    later.heap.cells[header]? = some (.functor functor) ↔
      memory.heap.cells[header]? = some (.functor functor) := by
  induction writes with
  | refl => rfl
  | push _ simple ih =>
    refine ⟨fun here ↦ ih.1 (Heap.functor_of_push (plain_of_simple simple) here), fun here ↦ ?_⟩
    have before := ih.2 here
    rw [Heap.Formed.getElem?_push_of_lt _ (Heap.lt_size_of_getElem? before), before]
  | @assign middle _ check address target admissible ih =>
    refine ⟨fun here ↦ ih.1 (Heap.functor_of_set (.ref target) here), fun here ↦ ?_⟩
    have before := ih.2 here
    have apart : address ≠ header := by
      rintro rfl
      cases admissible.unbound.symm.trans before
    rw [Memory.assign, Heap.getElem?_set, if_neg fun both ↦ apart both.1, before]

private theorem size_le (writes : memory.Writes later) : memory.heap.size ≤ later.heap.size := by
  induction writes with
  | refl => exact Nat.le_refl _
  | push _ _ ih =>
    rw [Heap.size_push]
    exact Nat.le_succ_of_le ih
  | assign _ _ ih =>
    rw [Memory.assign, Heap.size_set]
    exact ih

theorem filledBut (writes : memory.Writes later) {unfinished : Address}
    (before : memory.heap.FilledBut unfinished) : later.heap.FilledBut unfinished :=
  fun header functor here apart ↦
  Nat.lt_of_lt_of_le (before header functor (writes.functor_iff.1 here) apart) writes.size_le

theorem whole (writes : memory.Writes later) (before : memory.Whole) : later.Whole :=
  ⟨writes.clean before.toClean, fun header functor here ↦
    Nat.lt_of_lt_of_le (before.filled header functor (writes.functor_iff.1 here)) writes.size_le⟩

theorem binds {check : OccursCheck} {last : Memory} (writes : memory.Writes later)
    (binds : Binds check later last) : memory.Writes last := by
  induction binds with
  | refl => exact writes
  | step _ admissible ih => exact ih.assign admissible

end Writes

/-- Loading a ground term that fits adds structures with all their arguments. -/
theorem Whole.loadAlone (whole : memory.Whole) {term : Term} (ground : term.isGround = true)
    {address : Address} {heap : Heap} (loaded : memory.heap.loadAlone term = (.ok address, heap)) :
    ({ memory with heap } : Memory).Whole := by
  obtain ⟨formed, -⟩ :=
    narrows_loadAlone Term whole.formed_zero ground term.allFunctors_true loaded
  have same : (memory.heap.load term ∅).2.heap = heap := congrArg Prod.snd loaded
  obtain ⟨laid, filled⟩ := Heap.loadable_laid.load ⟨whole.laid, whole.filled⟩ term ∅
  have extended := (Heap.loadable_extends memory.heap).load (.refl _) term ∅
  rw [same] at laid filled extended
  exact ⟨⟨⟨0, formed⟩, laid, whole.bound_of_extends extended, whole.once⟩, filled⟩

end Memory
end HornMachine
