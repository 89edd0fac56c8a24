import HornMachine.Heap.Load
import HornMachine.Proofs.Heap.Formed
import HornMachine.Proofs.Heap.Rewind
import Mathlib.Order.Interval.Set.Basic

/-!
# Terms put on the heap

While a term is loaded, argument cells of structures that were begun are reserved: they are there,
but what they hold does not count yet. Reserved cells are left out of what the heap says until they
are filled in. Main statements: a loaded heap is well formed, its equations say that the address
returned stands for the term, and every solution of the heap before becomes one of the heap after
for any terms of the term's variables.
-/

namespace HornMachine.Heap

namespace Loading

variable {D : Type} [Domain D]

/-- A valuation that meets the equations of all cells that are not reserved. -/
def Meets (reserved : Set Nat) (heap : Heap) (θ : Valuation D) : Prop :=
  ∀ (address : Nat) (cell : Cell), heap.cells[address]? = some cell → address ∉ reserved →
    cell.Holds θ address

/-- The cells of variables stand for the given terms. -/
def Assigns (vars : Std.HashMap Var Address) (θ : Valuation D) (β : Var → D) : Prop :=
  ∀ (v : Var) (address : Nat), vars[v]? = some address → θ address = β v

/-- A state of loading that is well formed but for the reserved cells. -/
structure Sound (admitted : Functor → Prop) (reserved : Set Nat) (state : Loading) : Prop where
  inside : ∀ address ∈ reserved, address < state.heap.size
  ref : ∀ address target : Nat, state.heap.cells[address]? = some (.ref target) →
    address ∉ reserved → target < state.heap.size ∧ target ∉ reserved
  ends : ∀ address ∉ reserved, Acc state.heap.Refers address
  str : ∀ address header : Nat, state.heap.cells[address]? = some (.str header) →
    address ∉ reserved →
    ∃ functor, state.heap.cells[header]? = some (.functor functor) ∧ header ∉ reserved
  functor : ∀ (header : Nat) (functor : Functor),
    state.heap.cells[header]? = some (.functor functor) → header ∉ reserved →
    admitted functor ∧ header + functor.arity < state.heap.size
  vars : ∀ (v : Var) (address : Nat), state.vars[v]? = some address →
    address ∉ reserved ∧ state.heap.cells[address]? = some (.ref address)

variable {admitted : Functor → Prop} {reserved : Set Nat} {state : Loading}

/-- Without reserved cells the heap is well formed. -/
theorem Sound.formed (sound : Sound admitted ∅ state) : state.heap.Formed admitted 0 where
  ref address target here := (sound.ref address target here (Set.notMem_empty _)).1
  ends address := sound.ends address (Set.notMem_empty _)
  str address header here := by
    obtain ⟨functor, at_header, -⟩ := sound.str address header here (Set.notMem_empty _)
    exact ⟨functor, at_header⟩
  functor header functor here := sound.functor header functor here (Set.notMem_empty _)

theorem sound_of_formed {heap : Heap} (formed : heap.Formed admitted 0)
    {vars : Std.HashMap Var Address}
    (free : ∀ (v : Var) (address : Nat), vars[v]? = some address →
      heap.cells[address]? = some (.ref address)) : Sound admitted ∅ { heap, vars } where
  inside := by simp
  ref address target here _ := ⟨formed.ref address target here, Set.notMem_empty _⟩
  ends address _ := formed.ends address
  str address header here _ := by
    obtain ⟨functor, at_header⟩ := formed.str address header here
    exact ⟨functor, at_header, Set.notMem_empty _⟩
  functor header functor here _ := formed.functor header functor here
  vars v address known := ⟨Set.notMem_empty _, free v address known⟩

theorem meets_empty {heap : Heap} {θ : Valuation D} : Meets ∅ heap θ ↔ heap.Solution θ :=
  ⟨fun meets address cell here ↦ meets address cell here (Set.notMem_empty _),
    fun solution address cell here _ ↦ solution address cell here⟩

private theorem Sound.size_notMem (sound : Sound admitted reserved state) :
    state.heap.size ∉ reserved :=
  fun member ↦ Nat.lt_irrefl _ (sound.inside _ member)

/-- What the heap says depends on the terms of its cells only. -/
theorem Sound.meets_congr (sound : Sound admitted reserved state) {θ θ' : Valuation D}
    (same : ∀ address : Nat, address < state.heap.size → θ' address = θ address)
    (meets : Meets reserved state.heap θ) : Meets reserved state.heap θ' := by
  intro address cell here counts
  have inside := lt_size_of_getElem? here
  have holds := meets address cell here counts
  cases cell with
  | ref target =>
    rw [Cell.Holds, same address inside, same target (sound.ref address target here counts).1]
    exact holds
  | str header =>
    obtain ⟨functor, at_header, -⟩ := sound.str address header here counts
    rw [Cell.Holds, same address inside, same header (lt_size_of_getElem? at_header)]
    exact holds
  | functor functor =>
    obtain ⟨-, bound⟩ := sound.functor address functor here counts
    rw [Cell.Holds] at holds ⊢
    rw [same address inside, holds]
    refine congrArg _ (List.map_congr_left fun argument member ↦ ?_)
    obtain ⟨-, below⟩ := Heap.mem_arguments_iff.1 member
    exact (same _ (by omega)).symm
  | atom symbol | num value =>
    rw [Cell.Holds, same address inside]
    exact holds

omit [Domain D] in
private theorem Sound.assigns_congr (sound : Sound admitted reserved state) {θ θ' : Valuation D}
    {β : Var → D} (same : ∀ address : Nat, address < state.heap.size → θ' address = θ address)
    (assigns : Assigns state.vars θ β) : Assigns state.vars θ' β := by
  intro v address known
  rw [same address (lt_size_of_getElem? (sound.vars v address known).2), assigns v address known]

/-! ### Adding and filling in cells -/

private theorem meets_push {heap : Heap} {cell : Cell} {θ : Valuation D}
    (counts : heap.size ∉ reserved) :
    Meets reserved (heap.push cell) θ ↔ Meets reserved heap θ ∧ cell.Holds θ heap.size := by
  constructor
  · intro meets
    refine ⟨fun address other here unreserved ↦ ?_, ?_⟩
    · refine meets address other ?_ unreserved
      rw [getElem?_push, if_neg (Nat.ne_of_lt (lt_size_of_getElem? here)), here]
    · exact meets heap.size cell (by simp [getElem?_push]) counts
  · rintro ⟨meets, holds⟩ address other here unreserved
    rw [getElem?_push] at here
    split at here
    · next last =>
      cases here
      exact last ▸ holds
    · exact meets address other here unreserved

private theorem meets_set {heap : Heap} {place : Nat} {cell : Cell} {θ : Valuation D}
    (counts : place ∉ reserved) (inside : place < heap.size) :
    Meets reserved (heap.set place cell) θ ↔
      Meets (insert place reserved) heap θ ∧ cell.Holds θ place := by
  constructor
  · intro meets
    refine ⟨fun address other here unreserved ↦ ?_, ?_⟩
    · rw [Set.mem_insert_iff, not_or] at unreserved
      refine meets address other ?_ unreserved.2
      rw [getElem?_set, if_neg fun both ↦ unreserved.1 both.1.symm, here]
    · exact meets place cell (by rw [getElem?_set, if_pos ⟨rfl, inside⟩]) counts
  · rintro ⟨meets, holds⟩ address other here unreserved
    rw [getElem?_set] at here
    split at here
    · next both =>
      cases here
      exact both.1 ▸ holds
    · next apart =>
      refine meets address other here ?_
      rw [Set.mem_insert_iff, not_or]
      exact ⟨fun same ↦ apart ⟨same.symm, inside⟩, unreserved⟩

/-- References end as before where the cells that count are as before. -/
theorem Sound.acc_of_same (sound : Sound admitted reserved state) {later : Heap}
    (same : ∀ address : Nat, address < state.heap.size → address ∉ reserved →
      later.cells[address]? = state.heap.cells[address]?)
    {address : Nat} (inside : address < state.heap.size) (counts : address ∉ reserved) :
    Acc later.Refers address := by
  induction sound.ends address counts with
  | intro address _ ih =>
    refine Acc.intro _ fun target refers ↦ ?_
    have here : state.heap.cells[address]? = some (.ref target) := by
      rw [← same address inside counts]
      exact refers.1
    obtain ⟨target_inside, target_counts⟩ := sound.ref address target here counts
    exact ih target ⟨here, refers.2⟩ target_inside target_counts

/-- A constant, or a variable, is added at the end. -/
theorem Sound.push (sound : Sound admitted reserved state) {cell : Cell}
    (simple : Formed.Simple state.heap cell)
    (counts : ∀ target, cell = .ref target → target = state.heap.size) :
    Sound admitted reserved { state with heap := state.heap.push cell } := by
  have kept {address : Nat} {found : Cell} (here : state.heap.cells[address]? = some found) :
      (state.heap.push cell).cells[address]? = some found := by
    rw [Formed.getElem?_push_of_lt cell (lt_size_of_getElem? here), here]
  have last := sound.size_notMem
  refine ⟨fun address member ↦ ?_, fun address target here unreserved ↦ ?_,
    fun address unreserved ↦ ?_, fun address header here unreserved ↦ ?_,
    fun header functor here unreserved ↦ ?_, fun v address known ↦ ?_⟩
  · rw [size_push]
    exact Nat.lt_succ_of_lt (sound.inside address member)
  · rw [getElem?_push] at here
    rw [size_push]
    split at here
    · cases here
      rw [counts target rfl]
      exact ⟨Nat.lt_succ_self _, last⟩
    · obtain ⟨inside, unreserved⟩ := sound.ref address target here unreserved
      exact ⟨Nat.lt_succ_of_lt inside, unreserved⟩
  · by_cases inside : address < state.heap.size
    · exact sound.acc_of_same (fun _ lower _ ↦ Formed.getElem?_push_of_lt cell lower) inside
        unreserved
    · refine acc_refers_of_cell fun target here ↦ ?_
      rw [getElem?_push] at here
      split at here
      · next new =>
        cases here
        rw [counts target rfl, new]
      · exact absurd (lt_size_of_getElem? here) inside
  · rw [getElem?_push] at here
    split at here
    · cases here
      exact simple.elim
    · obtain ⟨functor, found, unreserved⟩ := sound.str address header here unreserved
      exact ⟨functor, kept found, unreserved⟩
  · rw [getElem?_push] at here
    split at here
    · cases here
      exact simple.elim
    · obtain ⟨kind, bound⟩ := sound.functor header functor here unreserved
      rw [size_push]
      exact ⟨kind, Nat.lt_succ_of_lt bound⟩
  · obtain ⟨unreserved, free⟩ := sound.vars v address known
    exact ⟨unreserved, kept free⟩

/-- A reserved cell is filled in with a constant, as a variable, or with a reference to a cell that
counts. -/
theorem Sound.fill {place : Nat} (sound : Sound admitted (insert place reserved) state)
    (fresh : place ∉ reserved) {cell : Cell} (flat : ∀ header, cell ≠ .str header)
    (open_ : ∀ functor, cell ≠ .functor functor)
    (counts : ∀ target : Nat, cell = .ref target → target = place ∨
      (target < state.heap.size ∧ target ∉ insert place reserved)) :
    Sound admitted reserved { state with heap := state.heap.set place cell } := by
  have inside : place < state.heap.size := sound.inside place (Set.mem_insert _ _)
  have elsewhere {address : Nat} (apart : address ≠ place) :
      (state.heap.set place cell).cells[address]? = state.heap.cells[address]? := by
    rw [getElem?_set, if_neg fun both ↦ apart both.1.symm]
  have here_now : (state.heap.set place cell).cells[place]? = some cell := by
    rw [getElem?_set, if_pos ⟨rfl, inside⟩]
  have counted {address : Nat} (unreserved : address ∉ reserved) (apart : address ≠ place) :
      address ∉ insert place reserved := by
    rw [Set.mem_insert_iff, not_or]
    exact ⟨apart, unreserved⟩
  have older {address : Nat} (lower : address < state.heap.size)
      (unreserved : address ∉ insert place reserved) :
      Acc (state.heap.set place cell).Refers address :=
    sound.acc_of_same (fun other _ unreserved ↦
      elsewhere fun same ↦ unreserved (same ▸ Set.mem_insert _ _)) lower unreserved
  refine ⟨fun address member ↦ ?_, fun address target here unreserved ↦ ?_,
    fun address unreserved ↦ ?_, fun address header here unreserved ↦ ?_,
    fun header functor here unreserved ↦ ?_, fun v address known ↦ ?_⟩
  · rw [size_set]
    exact sound.inside address (Set.mem_insert_of_mem _ member)
  · rw [size_set]
    by_cases same : address = place
    · subst same
      cases here_now.symm.trans here
      rcases counts target rfl with rfl | ⟨lower, unreserved⟩
      · exact ⟨inside, fresh⟩
      · exact ⟨lower, fun member ↦ unreserved (Set.mem_insert_of_mem _ member)⟩
    · rw [elsewhere same] at here
      obtain ⟨lower, unreserved⟩ := sound.ref address target here (counted unreserved same)
      exact ⟨lower, fun member ↦ unreserved (Set.mem_insert_of_mem _ member)⟩
  · by_cases same : address = place
    · subst same
      refine Acc.intro _ fun target refers ↦ ?_
      cases here_now.symm.trans refers.1
      rcases counts target rfl with own | ⟨lower, unreserved⟩
      · exact absurd own refers.2
      · exact older lower unreserved
    · by_cases lower : address < state.heap.size
      · exact older lower (counted unreserved same)
      · refine acc_refers_of_cell fun target here ↦ ?_
        rw [elsewhere same] at here
        exact absurd (lt_size_of_getElem? here) lower
  · by_cases same : address = place
    · subst same
      cases here_now.symm.trans here
      exact absurd rfl (flat header)
    · rw [elsewhere same] at here
      obtain ⟨functor, found, unreserved⟩ :=
        sound.str address header here (counted unreserved same)
      refine ⟨functor, ?_, fun member ↦ unreserved (Set.mem_insert_of_mem _ member)⟩
      rw [elsewhere fun own ↦ unreserved (own ▸ Set.mem_insert _ _), found]
  · by_cases same : header = place
    · subst same
      cases here_now.symm.trans here
      exact absurd rfl (open_ functor)
    · rw [elsewhere same] at here
      rw [size_set]
      exact sound.functor header functor here (counted unreserved same)
  · obtain ⟨unreserved, free⟩ := sound.vars v address known
    refine ⟨fun member ↦ unreserved (Set.mem_insert_of_mem _ member), ?_⟩
    rw [elsewhere fun own ↦ unreserved (own ▸ Set.mem_insert _ _), free]

/-! ### Beginning a structure -/

/-- The heap with a structure whose argument cells are reserved. -/
def begun (heap : Heap) (functor : Functor) : Heap :=
  (List.replicate functor.arity (Cell.ref 0)).foldl Heap.push (heap.pushStructure functor)

theorem getElem?_foldl_push (cells : List Cell) (heap : Heap) (address : Nat) :
    (cells.foldl Heap.push heap).cells[address]? =
      if address < heap.size then heap.cells[address]? else cells[address - heap.size]? := by
  induction cells generalizing heap with
  | nil =>
    split
    · rfl
    · next outside => simpa [size] using outside
  | cons cell cells ih =>
    rw [List.foldl_cons, ih, size_push, getElem?_push]
    by_cases lower : address < heap.size
    · rw [if_pos (Nat.lt_succ_of_lt lower), if_neg (Nat.ne_of_lt lower), if_pos lower]
    · by_cases last : address = heap.size
      · subst last
        simp
      · rw [if_neg (by omega), if_neg lower]
        obtain ⟨rest, split⟩ : ∃ rest, address - heap.size = rest + 1 :=
          ⟨address - heap.size - 1, by omega⟩
        rw [split, List.getElem?_cons_succ]
        congr 1
        omega

private theorem size_foldl_push (cells : List Cell) (heap : Heap) :
    (cells.foldl Heap.push heap).size = heap.size + cells.length := by
  induction cells generalizing heap with
  | nil => rfl
  | cons cell cells ih =>
    rw [List.foldl_cons, ih, size_push, List.length_cons]
    omega

theorem size_begun (heap : Heap) (functor : Functor) :
    (begun heap functor).size = heap.size + 2 + functor.arity := by
  rw [begun, size_foldl_push, size_pushStructure, List.length_replicate]

/-- Argument cells of a structure begun at the end of a heap. -/
def places (heap : Heap) (functor : Functor) : Set Nat :=
  Set.Ico (heap.size + 2) (heap.size + 2 + functor.arity)

theorem getElem?_begun_of_lt {heap : Heap} (functor : Functor) {address : Nat}
    (lower : address < heap.size) :
    (begun heap functor).cells[address]? = heap.cells[address]? := by
  rw [begun, getElem?_foldl_push, size_pushStructure, if_pos (by omega),
    getElem?_pushStructure_of_lt functor lower]

/-- Cells that are new and count are the structure cell and the header. -/
theorem getElem?_begun {heap : Heap} {functor : Functor} {address : Nat} {cell : Cell}
    (here : (begun heap functor).cells[address]? = some cell)
    (counts : address ∉ places heap functor) :
    heap.cells[address]? = some cell ∨
      (address = heap.size ∧ cell = .str (heap.size + 1)) ∨
      (address = heap.size + 1 ∧ cell = .functor functor) := by
  have inside := lt_size_of_getElem? here
  rw [size_begun] at inside
  have lower : address < heap.size + 2 := by
    by_contra outside
    exact counts ⟨Nat.le_of_not_lt outside, inside⟩
  rw [begun, getElem?_foldl_push, size_pushStructure, if_pos lower, Heap.pushStructure,
    getElem?_push, getElem?_push, size_push] at here
  split at here
  · next header =>
    cases here
    exact .inr (.inr ⟨header, rfl⟩)
  · split at here
    · next pointer =>
      cases here
      exact .inr (.inl ⟨pointer, rfl⟩)
    · exact .inl here

private theorem getElem?_begun_size (heap : Heap) (functor : Functor) :
    (begun heap functor).cells[heap.size]? = some (.str (heap.size + 1)) ∧
      (begun heap functor).cells[heap.size + 1]? = some (.functor functor) := by
  constructor
  · rw [begun, getElem?_foldl_push, size_pushStructure, if_pos (by omega)]
    exact getElem?_pushStructure_size heap functor
  · rw [begun, getElem?_foldl_push, size_pushStructure, if_pos (by omega), Heap.pushStructure,
      getElem?_push, size_push, if_pos rfl]

theorem Sound.begun (sound : Sound admitted reserved state) {functor : Functor}
    (kind : admitted functor) :
    Sound admitted (reserved ∪ places state.heap functor)
      { state with heap := begun state.heap functor } := by
  have kept {address : Nat} {found : Cell} (here : state.heap.cells[address]? = some found) :
      (Loading.begun state.heap functor).cells[address]? = some found := by
    rw [getElem?_begun_of_lt functor (lt_size_of_getElem? here), here]
  have free {address : Nat} (lower : address < state.heap.size + 2)
      (unreserved : address ∉ reserved) : address ∉ reserved ∪ places state.heap functor := by
    rintro (member | ⟨above, -⟩)
    · exact unreserved member
    · omega
  have beyond {address : Nat} (above : state.heap.size ≤ address) : address ∉ reserved := by
    intro member
    have := sound.inside address member
    omega
  refine ⟨fun address member ↦ ?_, fun address target here unreserved ↦ ?_,
    fun address unreserved ↦ ?_, fun address header here unreserved ↦ ?_,
    fun header other here unreserved ↦ ?_, fun v address known ↦ ?_⟩
  · rw [size_begun]
    rcases member with member | ⟨-, below⟩
    · have := sound.inside address member
      omega
    · exact below
  · rw [size_begun]
    rw [Set.mem_union, not_or] at unreserved
    rcases getElem?_begun here unreserved.2 with old | ⟨-, other⟩ | ⟨-, other⟩
    · obtain ⟨lower, counts⟩ := sound.ref address target old unreserved.1
      exact ⟨by omega, free (by omega) counts⟩
    · cases other
    · cases other
  · rw [Set.mem_union, not_or] at unreserved
    by_cases inside : address < state.heap.size
    · exact sound.acc_of_same (fun _ lower _ ↦ getElem?_begun_of_lt functor lower) inside
        unreserved.1
    · refine acc_refers_of_cell fun target here ↦ ?_
      rcases getElem?_begun here unreserved.2 with old | ⟨-, other⟩ | ⟨-, other⟩
      · exact absurd (lt_size_of_getElem? old) inside
      · cases other
      · cases other
  · rw [Set.mem_union, not_or] at unreserved
    rcases getElem?_begun here unreserved.2 with old | ⟨-, new⟩ | ⟨-, other⟩
    · obtain ⟨found, at_header, counts⟩ := sound.str address header old unreserved.1
      have lower := lt_size_of_getElem? at_header
      exact ⟨found, kept at_header, free (by omega) counts⟩
    · cases new
      exact ⟨functor, (getElem?_begun_size state.heap functor).2,
        free (by omega) (beyond (Nat.le_succ _))⟩
    · cases other
  · rw [size_begun]
    rw [Set.mem_union, not_or] at unreserved
    rcases getElem?_begun here unreserved.2 with old | ⟨-, other⟩ | ⟨last, new⟩
    · obtain ⟨kind, bound⟩ := sound.functor header other old unreserved.1
      exact ⟨kind, by omega⟩
    · cases other
    · cases new
      exact ⟨kind, by omega⟩
  · obtain ⟨unreserved, own⟩ := sound.vars v address known
    have lower := lt_size_of_getElem? own
    exact ⟨free (by omega) unreserved, kept own⟩

private theorem meets_begun (sound : Sound admitted reserved state) {functor : Functor}
    {θ : Valuation D} :
    Meets (reserved ∪ places state.heap functor) (Loading.begun state.heap functor) θ ↔
      Meets reserved state.heap θ ∧ θ state.heap.size = θ (state.heap.size + 1) ∧
        θ (state.heap.size + 1) =
          Domain.struct functor.symbol ((arguments functor (state.heap.size + 1)).map θ) := by
  have beyond {address : Nat} (above : state.heap.size ≤ address)
      (lower : address < state.heap.size + 2) :
      address ∉ reserved ∪ places state.heap functor := by
    rintro (member | ⟨above, -⟩)
    · have := sound.inside address member
      omega
    · omega
  have new := getElem?_begun_size state.heap functor
  constructor
  · intro meets
    refine ⟨fun address cell here unreserved ↦ ?_,
      meets _ _ new.1 (beyond (Nat.le_refl _) (by omega)),
      meets _ _ new.2 (beyond (Nat.le_succ _) (by omega))⟩
    have lower := lt_size_of_getElem? here
    refine meets address cell (by rw [getElem?_begun_of_lt functor lower, here]) ?_
    rintro (member | ⟨above, -⟩)
    · exact unreserved member
    · omega
  · rintro ⟨meets, pointer, header⟩ address cell here unreserved
    rw [Set.mem_union, not_or] at unreserved
    rcases getElem?_begun here unreserved.2 with old | ⟨rfl, rfl⟩ | ⟨rfl, rfl⟩
    · exact meets address cell old unreserved.1
    · exact pointer
    · exact header

/-! ### Steps of loading -/

/-- Loading leads from a state with some cells reserved to a later one. Valuations of the later heap
are those of the earlier one that meet what was claimed, and a valuation of the earlier heap that
meets what is needed becomes one of the later heap for any terms of the variables. -/
structure Loads (D : Type) [Domain D] (admitted : Functor → Prop) (first last : Set Nat)
    (state later : Loading) (needs claims : Valuation D → (Var → D) → Prop) : Prop where
  sound : Sound admitted last later
  grown : state.heap.size ≤ later.heap.size
  fewer : ∀ address ∈ last, address < state.heap.size → address ∈ first
  kept : ∀ address : Nat, address < state.heap.size → address ∉ first →
    later.heap.cells[address]? = state.heap.cells[address]?
  vars : ∀ (v : Var) (address : Nat), state.vars[v]? = some address →
    later.vars[v]? = some address
  /-- What holds later held before, and the claim holds. -/
  back : ∀ θ, Meets last later.heap θ →
    Meets first state.heap θ ∧ ∀ β, Assigns later.vars θ β → claims θ β
  forth : ∀ θ β, Meets first state.heap θ → Assigns state.vars θ β → needs θ β →
    ∃ θ', (∀ address : Nat, address < state.heap.size → θ' address = θ address) ∧
      Meets last later.heap θ' ∧ Assigns later.vars θ' β

variable {first middle last : Set Nat} {later final : Loading}
  {needs claims needs' claims' : Valuation D → (Var → D) → Prop}

omit [Domain D] in
theorem Assigns.of_vars {vars more : Std.HashMap Var Address} {θ : Valuation D} {β : Var → D}
    (kept : ∀ (v : Var) (address : Nat), vars[v]? = some address → more[v]? = some address)
    (assigns : Assigns more θ β) : Assigns vars θ β :=
  fun v address known ↦ assigns v address (kept v address known)

/-- Variables have the values of their cells. -/
theorem exists_assigns (vars : Std.HashMap Var Address) (θ : Valuation D) :
    ∃ β, Assigns vars θ β := by
  refine ⟨fun v ↦ (vars[v]?.map θ).getD default, fun v address known ↦ ?_⟩
  simp [known]

/-- Loading in two steps. -/
theorem Loads.trans (one : Loads D admitted first middle state later needs claims)
    (two : Loads D admitted middle last later final needs' claims')
    {both : Valuation D → (Var → D) → Prop} {result : Valuation D → (Var → D) → Prop}
    (enough : ∀ θ β, both θ β → needs θ β)
    (between : ∀ θ θ' β, (∀ address : Nat, address < state.heap.size → θ' address = θ address) →
      both θ β → claims θ' β → needs' θ' β)
    (concludes : ∀ θ β, claims θ β → claims' θ β → Meets middle later.heap θ → result θ β) :
    Loads D admitted first last state final both result where
  sound := two.sound
  grown := Nat.le_trans one.grown two.grown
  fewer address member lower :=
    one.fewer address (two.fewer address member (Nat.lt_of_lt_of_le lower one.grown)) lower
  kept address lower counts := by
    have counts_later : address ∉ middle := fun member ↦ counts (one.fewer address member lower)
    rw [two.kept address (Nat.lt_of_lt_of_le lower one.grown) counts_later,
      one.kept address lower counts]
  vars v address known := two.vars v address (one.vars v address known)
  back θ meets := by
    obtain ⟨meets_later, claimed_later⟩ := two.back θ meets
    obtain ⟨meets_first, claimed⟩ := one.back θ meets_later
    refine ⟨meets_first, fun β assigns ↦ ?_⟩
    exact concludes θ β (claimed β (assigns.of_vars two.vars)) (claimed_later β assigns) meets_later
  forth θ β meets assigns needed := by
    obtain ⟨θ', same, meets_later, assigns_later⟩ := one.forth θ β meets assigns (enough θ β needed)
    have claimed := (one.back θ' meets_later).2 β assigns_later
    obtain ⟨θ'', same_later, meets_final, assigns_final⟩ :=
      two.forth θ' β meets_later assigns_later (between θ θ' β same needed claimed)
    refine ⟨θ'', fun address lower ↦ ?_, meets_final, assigns_final⟩
    rw [same_later address (Nat.lt_of_lt_of_le lower one.grown), same address lower]

/-- Needs and claims may be stated with what is known of the variables. -/
theorem Loads.congr (one : Loads D admitted first last state later needs claims)
    (enough : ∀ θ β, Assigns state.vars θ β → needs' θ β → needs θ β)
    (concludes : ∀ θ β, Assigns later.vars θ β → claims θ β → claims' θ β) :
    Loads D admitted first last state later needs' claims' where
  sound := one.sound
  grown := one.grown
  fewer := one.fewer
  kept := one.kept
  vars := one.vars
  back θ meets := by
    obtain ⟨meets, claimed⟩ := one.back θ meets
    exact ⟨meets, fun β assigns ↦ concludes θ β assigns (claimed β assigns)⟩
  forth θ β meets assigns needed := one.forth θ β meets assigns (enough θ β assigns needed)

/-- A constant is added. -/
theorem loads_push (sound : Sound admitted reserved state) (cell : Cell) {term : D}
    (simple : Formed.Simple state.heap cell) (constant : ∀ target, cell ≠ .ref target)
    (holds : ∀ (θ : Valuation D) (address : Nat), cell.Holds θ address ↔ θ address = term) :
    Loads D admitted reserved reserved state { state with heap := state.heap.push cell }
      (fun _ _ ↦ True) (fun θ _ ↦ θ state.heap.size = term) where
  sound := sound.push simple fun target same ↦ absurd same (constant target)
  grown := by simp
  fewer address member _ := member
  kept address lower _ := Formed.getElem?_push_of_lt cell lower
  vars _ _ known := known
  back θ meets := by
    obtain ⟨meets, own⟩ := (meets_push sound.size_notMem).1 meets
    exact ⟨meets, fun _ _ ↦ (holds θ _).1 own⟩
  forth θ β meets assigns _ := by
    have same (address : Nat) (lower : address < state.heap.size) :
        extend θ state.heap.size [term] address = θ address := extend_of_lt lower
    refine ⟨_, same, (meets_push sound.size_notMem).2 ⟨sound.meets_congr same meets, ?_⟩,
      sound.assigns_congr same assigns⟩
    exact (holds _ _).2 (extend_add 0)

/-- A reserved cell is filled in. -/
theorem loads_fill {place : Nat} (sound : Sound admitted (insert place reserved) state)
    (fresh : place ∉ reserved) (cell : Cell) (flat : ∀ header, cell ≠ .str header)
    (open_ : ∀ functor, cell ≠ .functor functor)
    (counts : ∀ target : Nat, cell = .ref target → target = place ∨
      (target < state.heap.size ∧ target ∉ insert place reserved)) :
    Loads D admitted (insert place reserved) reserved state
      { state with heap := state.heap.set place cell }
      (fun θ _ ↦ cell.Holds θ place) (fun θ _ ↦ cell.Holds θ place) where
  sound := sound.fill fresh flat open_ counts
  grown := by simp
  fewer address member _ := Set.mem_insert_of_mem _ member
  kept address lower counted := by
    rw [getElem?_set, if_neg]
    exact fun both ↦ counted (both.1 ▸ Set.mem_insert _ _)
  vars _ _ known := known
  back θ meets := by
    obtain ⟨meets, own⟩ := (meets_set fresh (sound.inside _ (Set.mem_insert _ _))).1 meets
    exact ⟨meets, fun _ _ ↦ own⟩
  forth θ β meets assigns own :=
    ⟨θ, fun _ _ ↦ rfl, (meets_set fresh (sound.inside _ (Set.mem_insert _ _))).2 ⟨meets, own⟩,
      assigns⟩

/-- What argument cells from `slot` on are to stand for. -/
def Stand (slot : Nat) (args : List Term) (θ : Valuation D) (β : Var → D) : Prop :=
  (addresses slot args.length).map θ = args.map (Term.eval β)

/-- A structure is begun and its arguments are loaded. -/
theorem loads_struct (sound : Sound admitted reserved state) {symbol : Symbol} {args : List Term}
    (inner : Loads D admitted (reserved ∪ places state.heap ⟨symbol, args.length⟩) reserved
      { state with heap := begun state.heap ⟨symbol, args.length⟩ } later
      (Stand (state.heap.size + 2) args) (Stand (state.heap.size + 2) args)) :
    Loads D admitted reserved reserved state later (fun _ _ ↦ True)
      (fun θ β ↦ θ state.heap.size = (Term.struct symbol args).eval β) where
  sound := inner.sound
  grown := by
    have grown := inner.grown
    rw [size_begun] at grown
    omega
  fewer address member _ := member
  kept address lower counts := by
    rw [inner.kept address (by rw [size_begun]; omega), getElem?_begun_of_lt _ lower]
    rintro (member | ⟨above, -⟩)
    · exact counts member
    · omega
  vars := inner.vars
  back θ meets := by
    obtain ⟨meets, stand⟩ := inner.back θ meets
    obtain ⟨meets, pointer, header⟩ := (meets_begun sound).1 meets
    refine ⟨meets, fun β assigns ↦ ?_⟩
    rw [pointer, header, Term.eval_struct, arguments_eq_addresses]
    exact congrArg _ (stand β assigns)
  forth θ β meets assigns _ := by
    let values := args.map (Term.eval β)
    let whole := Domain.struct symbol values
    have same (address : Nat) (lower : address < state.heap.size) :
        extend θ state.heap.size (whole :: whole :: values) address = θ address :=
      extend_of_lt lower
    have own : extend θ state.heap.size (whole :: whole :: values) state.heap.size = whole :=
      extend_add 0
    have header : extend θ state.heap.size (whole :: whole :: values) (state.heap.size + 1) =
      whole :=
      extend_add 1
    have slots : (addresses (state.heap.size + 2) args.length).map
        (extend θ state.heap.size (whole :: whole :: values)) = values := by
      refine List.ext_getElem (by simp [addresses, values]) fun index left right ↦ ?_
      rw [List.getElem_map]
      simp only [addresses, List.getElem_map, List.getElem_range]
      rw [Nat.add_assoc, extend_add, Nat.add_comm 2 index]
      simp [List.getD_eq_getElem?_getD, List.getElem?_eq_getElem right]
    have meets_begun : Meets (reserved ∪ places state.heap ⟨symbol, args.length⟩)
        (begun state.heap ⟨symbol, args.length⟩)
        (extend θ state.heap.size (whole :: whole :: values)) := by
      refine (Loading.meets_begun sound).2 ⟨sound.meets_congr same meets, own.trans header.symm, ?_⟩
      rw [header, arguments_eq_addresses]
      exact congrArg _ slots.symm
    obtain ⟨θ', same_later, meets_later, assigns_later⟩ := inner.forth _ β meets_begun
      (sound.assigns_congr same assigns) slots
    refine ⟨θ', fun address lower ↦ ?_, meets_later, assigns_later⟩
    rw [same_later address (by rw [size_begun]; omega), same address lower]

/-! ### Loading terms -/

/-- Loading a term: its address counts and stands for the term. -/
def LoadsTerm (D : Type) [Domain D] (admitted : Functor → Prop) (term : Term) : Prop :=
  ∀ (reserved : Set Nat) (state later : Loading) (address : Nat), Sound admitted reserved state →
    Load.load term state = .ok address later →
    Loads D admitted reserved reserved state later (fun _ _ ↦ True)
        (fun θ β ↦ θ address = term.eval β) ∧
      address < later.heap.size ∧ address ∉ reserved

/-- A cell for each argument, and none of the others. -/
theorem union_Ico_succ (reserved : Set Nat) (slot count : Nat) :
    reserved ∪ Set.Ico slot (slot + (count + 1)) =
      insert slot (reserved ∪ Set.Ico (slot + 1) (slot + 1 + count)) := by
  ext address
  simp only [Set.mem_union, Set.mem_Ico, Set.mem_insert_iff]
  constructor
  · rintro (member | bounds)
    · exact .inr (.inl member)
    · by_cases same : address = slot
      · exact .inl same
      · exact .inr (.inr (by omega))
  · rintro (rfl | member | bounds)
    · exact .inr (by omega)
    · exact .inl member
    · exact .inr (by omega)

/-- The first argument cell is filled in and the others follow. -/
theorem loads_cons {slot : Nat} {arg : Term} {args : List Term}
    (one : Loads D admitted first middle state later
      (fun θ β ↦ θ slot = arg.eval β) (fun θ β ↦ θ slot = arg.eval β))
    (two : Loads D admitted middle last later final (Stand (slot + 1) args) (Stand (slot + 1) args))
    (inside : slot + (args.length + 1) ≤ state.heap.size) :
    Loads D admitted first last state final (Stand slot (arg :: args))
      (Stand slot (arg :: args)) := by
  have cons (θ : Valuation D) (β : Var → D) :
      Stand slot (arg :: args) θ β ↔ θ slot = arg.eval β ∧ Stand (slot + 1) args θ β := by
    rw [Stand, Stand, List.length_cons, addresses_succ, List.map_cons, List.map_cons,
      List.cons.injEq]
  refine one.trans two (fun θ β stand ↦ ((cons θ β).1 stand).1) (fun θ θ' β same stand _ ↦ ?_)
    fun θ β own stand _ ↦ (cons θ β).2 ⟨own, stand⟩
  have rest := ((cons θ β).1 stand).2
  rw [Stand] at rest ⊢
  rw [← rest]
  refine List.map_congr_left fun address member ↦ same address ?_
  obtain ⟨-, below⟩ := mem_addresses.1 member
  omega

/-- The variables known once one more is. -/
theorem getElem?_insert_eq_some {vars : Std.HashMap Var Address} {v w : Var} {place address : Nat}
    (unknown : vars[v]? = none) :
    (vars.insert v place)[w]? = some address ↔ (w = v ∧ address = place) ∨
    vars[w]? = some address := by
  rw [Std.HashMap.getElem?_insert]
  by_cases same : v = w
  · subst same
    simp [unknown, eq_comm]
  · simp [same, Ne.symm same]

/-- A variable is added at the end of the heap. -/
theorem loads_newVar (sound : Sound admitted reserved state) {v : Var}
    (unknown : state.vars[v]? = none) :
    Loads D admitted reserved reserved state
      { heap := state.heap.pushVar, vars := state.vars.insert v state.heap.size }
      (fun _ _ ↦ True) (fun θ β ↦ θ state.heap.size = β v) := by
  have added : Sound admitted reserved { state with heap := state.heap.pushVar } :=
    sound.push (Nat.le_refl _) (by simp)
  refine ⟨⟨added.inside, added.ref, added.ends, added.str, added.functor, fun w address here ↦ ?_⟩,
    by simp, fun _ member _ ↦ member, fun _ lower _ ↦ Formed.getElem?_push_of_lt _ lower,
    fun w address here ↦ (getElem?_insert_eq_some unknown).2 (.inr here),
    fun θ meets ↦ ?_, fun θ β meets assigns _ ↦ ?_⟩
  · rcases (getElem?_insert_eq_some unknown).1 here with ⟨rfl, rfl⟩ | older
    · exact ⟨sound.size_notMem, by simp [pushVar, getElem?_push]⟩
    · exact added.vars w address older
  · refine ⟨((meets_push sound.size_notMem).1 meets).1, fun β assigns ↦ ?_⟩
    exact assigns v state.heap.size (by simp)
  · have same (address : Nat) (lower : address < state.heap.size) :
        extend θ state.heap.size [β v] address = θ address := extend_of_lt lower
    have own : extend θ state.heap.size [β v] state.heap.size = β v := extend_add 0
    refine ⟨_, same, (meets_push sound.size_notMem).2 ⟨sound.meets_congr same meets, rfl⟩,
      fun w address here ↦ ?_⟩
    rcases (getElem?_insert_eq_some unknown).1 here with ⟨rfl, rfl⟩ | older
    · exact own
    · exact sound.assigns_congr same assigns w address older

/-- A reserved cell becomes a new variable. -/
theorem loads_fillVar {place : Nat} (sound : Sound admitted (insert place reserved) state)
    (fresh : place ∉ reserved) {v : Var} (unknown : state.vars[v]? = none) :
    Loads D admitted (insert place reserved) reserved state
      { heap := state.heap.set place (.ref place), vars := state.vars.insert v place }
      (fun θ β ↦ θ place = β v) (fun θ β ↦ θ place = β v) := by
  have filled := loads_fill (D := D) sound fresh (.ref place) (by simp) (by simp)
    (fun target same ↦ .inl (by cases same; rfl))
  have inside := sound.inside place (Set.mem_insert _ _)
  refine ⟨⟨filled.sound.inside, filled.sound.ref, filled.sound.ends, filled.sound.str,
    filled.sound.functor, fun w address here ↦ ?_⟩, filled.grown, filled.fewer, filled.kept,
    fun w address here ↦ (getElem?_insert_eq_some unknown).2 (.inr here),
    fun θ meets ↦ ⟨(filled.back θ meets).1, fun β assigns ↦ assigns v place (by simp)⟩,
    fun θ β meets assigns own ↦ ?_⟩
  · rcases (getElem?_insert_eq_some unknown).1 here with ⟨rfl, rfl⟩ | older
    · exact ⟨fresh, by rw [getElem?_set, if_pos ⟨rfl, inside⟩]⟩
    · exact filled.sound.vars w address older
  · obtain ⟨θ', same, meets', assigns'⟩ := filled.forth θ β meets assigns rfl
    refine ⟨θ', same, meets', fun w address here ↦ ?_⟩
    rcases (getElem?_insert_eq_some unknown).1 here with ⟨rfl, rfl⟩ | older
    · rw [same address inside, own]
    · exact assigns' w address older

/-- A reserved cell becomes a reference to a cell that counts. -/
theorem loads_fillRef {place target : Nat} (sound : Sound admitted (insert place reserved) state)
    (fresh : place ∉ reserved) (inside : target < state.heap.size)
    (counts : target ∉ insert place reserved) :
    Loads D admitted (insert place reserved) reserved state
      { state with heap := state.heap.set place (.ref target) }
      (fun θ _ ↦ θ place = θ target) (fun θ _ ↦ θ place = θ target) := by
  refine loads_fill sound fresh (.ref target) (by simp) (by simp) fun other same ↦ .inr ?_
  cases same
  exact ⟨inside, counts⟩

/-- A reserved cell becomes a reference to the cell of a variable. -/
theorem loads_fillKnown {place target : Nat} (sound : Sound admitted (insert place reserved) state)
    (fresh : place ∉ reserved) {v : Var} (known : state.vars[v]? = some target) :
    Loads D admitted (insert place reserved) reserved state
      { state with heap := state.heap.set place (.ref target) }
      (fun θ β ↦ θ place = β v) (fun θ β ↦ θ place = β v) := by
  obtain ⟨counts, free⟩ := sound.vars v target known
  refine (loads_fillRef sound fresh (lt_size_of_getElem? free) counts).congr
    (fun θ β assigns own ↦ ?_) fun θ β assigns own ↦ ?_
  · rw [own, assigns v target known]
  · rw [own, assigns v target known]

omit [Domain D] in
/-- Reserved cells are in the heap. -/
theorem Sound.add_le_size {slot count : Nat}
    (sound : Sound admitted (reserved ∪ Set.Ico slot (slot + count)) state)
    (some_reserved : count ≠ 0) :
    slot + count ≤ state.heap.size := by
  have last := sound.inside (slot + (count - 1)) (.inr ⟨by omega, by omega⟩)
  omega

private theorem loads_args {args : List Term} (each : ∀ arg ∈ args, LoadsTerm D admitted arg)
    {slot : Nat} (sound : Sound admitted (reserved ∪ Set.Ico slot (slot + args.length)) state)
    (apart : ∀ address : Nat, slot ≤ address → address ∉ reserved)
    {done : Unit} (ended : Load.loadArgs slot args state = .ok done later) :
    Loads D admitted (reserved ∪ Set.Ico slot (slot + args.length)) reserved state later
      (Stand slot args) (Stand slot args) := by
  induction args generalizing slot state with
  | nil =>
    cases ended
    simp only [List.length_nil, Nat.add_zero, Set.Ico_self, Set.union_empty] at sound ⊢
    exact ⟨sound, Nat.le_refl _, fun _ member _ ↦ member, fun _ _ _ ↦ rfl, fun _ _ known ↦ known,
      fun θ meets ↦ ⟨meets, fun _ _ ↦ rfl⟩, fun θ β meets assigns _ ↦
        ⟨θ, fun _ _ ↦ rfl, meets, assigns⟩⟩
  | cons arg args ih =>
    have inside : slot + (args.length + 1) ≤ state.heap.size :=
      sound.add_le_size (Nat.succ_ne_zero _)
    rw [List.length_cons, union_Ico_succ] at sound ⊢
    have fresh : slot ∉ reserved ∪ Set.Ico (slot + 1) (slot + 1 + args.length) := by
      rintro (member | ⟨above, -⟩)
      · exact apart slot (Nat.le_refl _) member
      · omega
    -- The first cell is filled in, and the others by the induction hypothesis.
    have rest {middle : Loading}
        (one : Loads D admitted
          (insert slot (reserved ∪ Set.Ico (slot + 1) (slot + 1 + args.length)))
          (reserved ∪ Set.Ico (slot + 1) (slot + 1 + args.length)) state middle
          (fun θ β ↦ θ slot = arg.eval β) (fun θ β ↦ θ slot = arg.eval β))
        (ended : Load.loadArgs (slot + 1) args middle = .ok done later) :=
      loads_cons one (ih (fun other member ↦ each other (List.mem_cons_of_mem _ member)) one.sound
        (fun address above ↦ apart address (by omega)) ended) inside
    cases arg with
    | atom symbol =>
      obtain ⟨_, middle, filled, ended⟩ := bind_eq_ok.1 ended
      cases filled
      have one := loads_fill (D := D) sound fresh (.atom symbol) (by simp) (by simp) (by simp)
      exact rest (by simpa [Cell.Holds] using one) ended
    | num value =>
      obtain ⟨_, middle, filled, ended⟩ := bind_eq_ok.1 ended
      cases filled
      have one := loads_fill (D := D) sound fresh (.num value) (by simp) (by simp) (by simp)
      exact rest (by simpa [Cell.Holds] using one) ended
    | var v =>
      obtain ⟨target, found, looked, ended⟩ := bind_eq_ok.1 ended
      obtain ⟨_, middle, filled, ended⟩ := bind_eq_ok.1 ended
      cases filled
      rw [Load.variableAt] at looked
      cases known : state.vars[v]? with
      | none =>
        rw [known] at looked
        cases looked
        exact rest (by simpa using loads_fillVar sound fresh known) ended
      | some address =>
        rw [known] at looked
        cases looked
        exact rest (by simpa using loads_fillKnown sound fresh known) ended
    | struct symbol inner =>
      obtain ⟨target, nested, loaded, ended⟩ := bind_eq_ok.1 ended
      obtain ⟨_, middle, filled, ended⟩ := bind_eq_ok.1 ended
      cases filled
      obtain ⟨one, target_inside, counts⟩ :=
        each _ List.mem_cons_self _ state nested target sound loaded
      have two := loads_fillRef (D := D) one.sound fresh target_inside counts
      refine rest (one.trans two (fun _ _ _ ↦ trivial) ?_ ?_) ended
      · intro θ θ' β same own stands
        rw [same slot (by omega), own, stands]
      · intro θ β stands own _
        rw [own, stands]

/-- Loading a structure begins it and loads its arguments. -/
theorem loads_args_of_struct {symbol : Symbol} {args : List Term}
    (sound : Sound admitted reserved state)
    (kind : admitted ⟨symbol, args.length⟩) (each : ∀ arg ∈ args, LoadsTerm D admitted arg)
    {address : Nat} (ended : Load.load (.struct symbol args) state = .ok address later) :
    address = state.heap.size ∧
      Loads D admitted (reserved ∪ places state.heap ⟨symbol, args.length⟩) reserved
        { state with heap := Loading.begun state.heap ⟨symbol, args.length⟩ } later
        (Stand (state.heap.size + 2) args) (Stand (state.heap.size + 2) args) := by
  rw [Load.load] at ended
  dsimp only at ended
  split at ended
  · cases ended
  · obtain ⟨_, pushed, structure_pushed, ended⟩ := bind_eq_ok.1 ended
    cases structure_pushed
    obtain ⟨_, reserving, args_reserved, ended⟩ := bind_eq_ok.1 ended
    cases args_reserved
    obtain ⟨_, filled, args_loaded, ended⟩ := bind_eq_ok.1 ended
    cases ended
    rw [size_pushStructure] at args_loaded
    refine ⟨rfl, loads_args each (sound.begun kind) (fun address above member ↦ ?_) args_loaded⟩
    have := sound.inside address member
    omega

/-- Loading a term of admitted functors. -/
theorem loadsTerm {term : Term} (kinds : term.AllFunctors admitted) :
    LoadsTerm D admitted term := by
  induction term with
  | atom symbol =>
    intro reserved state later address sound ended
    cases ended
    refine ⟨(loads_push sound (.atom symbol) trivial (by simp) fun θ address ↦ Iff.rfl).congr
      (fun _ _ _ needed ↦ needed) fun θ β _ own ↦ ?_, by simp, sound.size_notMem⟩
    rw [own, Term.eval_atom]
  | num value =>
    intro reserved state later address sound ended
    cases ended
    refine ⟨(loads_push sound (.num value) trivial (by simp) fun θ address ↦ Iff.rfl).congr
      (fun _ _ _ needed ↦ needed) fun θ β _ own ↦ ?_, by simp, sound.size_notMem⟩
    rw [own, Term.eval_num]
  | var v =>
    intro reserved state later address sound ended
    rw [Load.load, Load.loadVar] at ended
    cases known : state.vars[v]? with
    | none =>
      rw [known] at ended
      cases ended
      refine ⟨(loads_newVar sound known).congr (fun _ _ _ needed ↦ needed) fun θ β _ own ↦ ?_,
        by simp, sound.size_notMem⟩
      rw [own, Term.eval_var]
    | some place =>
      rw [known] at ended
      cases ended
      obtain ⟨counts, free⟩ := sound.vars v address known
      refine ⟨⟨sound, Nat.le_refl _, fun _ member _ ↦ member, fun _ _ _ ↦ rfl,
        fun _ _ known ↦ known, fun θ meets ↦ ⟨meets, fun β assigns ↦ ?_⟩,
        fun θ β meets assigns _ ↦ ⟨θ, fun _ _ ↦ rfl, meets, assigns⟩⟩, lt_size_of_getElem? free,
        counts⟩
      rw [Term.eval_var, assigns v address known]
  | struct symbol args ih =>
    intro reserved state later address sound ended
    obtain ⟨kind, inner⟩ := Term.allFunctors_struct.1 kinds
    obtain ⟨rfl, loaded⟩ := loads_args_of_struct sound kind
      (fun arg member ↦ ih arg member (inner arg member)) ended
    refine ⟨loads_struct sound loaded, ?_, sound.size_notMem⟩
    have grown := loaded.grown
    rw [size_begun] at grown
    omega

/-- A loaded structure is found at its address. -/
theorem value_of_load_struct {symbol : Symbol} {args : List Term} (sound : Sound admitted ∅ state)
    (kinds : (Term.struct symbol args).AllFunctors admitted) {address : Nat}
    (ended : Load.load (.struct symbol args) state = .ok address later) :
    later.heap.value address = .ok (address, .compound ⟨symbol, args.length⟩ (address + 1)) := by
  obtain ⟨kind, inner⟩ := Term.allFunctors_struct.1 kinds
  obtain ⟨rfl, loaded⟩ := loads_args_of_struct (D := Term) sound kind
    (fun arg member ↦ loadsTerm (inner arg member)) ended
  obtain ⟨at_address, at_header⟩ := getElem?_begun_size state.heap ⟨symbol, args.length⟩
  have outside (next : Nat) (new : next < state.heap.size + 2) :
      next ∉ ∅ ∪ places state.heap ⟨symbol, args.length⟩ := by
    simp only [places, Set.empty_union, Set.mem_Ico]
    omega
  have size := size_begun state.heap ⟨symbol, args.length⟩
  have here := (loaded.kept state.heap.size (by simp only [size]; omega)
    (outside _ (by omega))).trans at_address
  have header := (loaded.kept (state.heap.size + 1) (by simp only [size]; omega)
    (outside _ (by omega))).trans at_header
  rw [value_eq_ok_iff]
  refine ⟨?_, header, .inl here⟩
  rw [deref, derefWithin, cell_eq_ok_iff.2 here]
  rfl

/-! ### The cells of variables -/

/-- Variables keep their cells, and the given ones have one. -/
def Places (given : List Var) (vars more : Std.HashMap Var Address) : Prop :=
  (∀ (v : Var) (place : Nat), vars[v]? = some place → more[v]? = some place) ∧
    ∀ v ∈ given, ∃ place, more[v]? = some place

theorem Places.refl (vars : Std.HashMap Var Address) : Places [] vars vars :=
  ⟨fun _ _ known ↦ known, nofun⟩

theorem Places.trans {given others : List Var} {vars more most : Std.HashMap Var Address}
    (one : Places given vars more) (two : Places others more most) :
    Places (given ++ others) vars most := by
  refine ⟨fun v place known ↦ two.1 v place (one.1 v place known), fun v member ↦ ?_⟩
  rcases List.mem_append.1 member with first | second
  · obtain ⟨place, known⟩ := one.2 v first
    exact ⟨place, two.1 v place known⟩
  · exact two.2 v second

private theorem places_insert {vars : Std.HashMap Var Address} {v : Var} (unknown : vars[v]? = none)
    (place : Address) : Places [v] vars (vars.insert v place) := by
  refine ⟨fun w other known ↦ ?_, fun w member ↦ ?_⟩
  · rw [Std.HashMap.getElem?_insert, if_neg, known]
    intro same
    rw [← beq_iff_eq.1 same, unknown] at known
    cases known
  · rw [List.mem_singleton.1 member]
    exact ⟨place, Std.HashMap.getElem?_insert_self⟩

private theorem places_loadArgs {args : List Term}
    (each : ∀ arg ∈ args, ∀ (state later : Loading) (address : Address),
      Load.load arg state = .ok address later → Places arg.occurrences state.vars later.vars)
    {slot : Address} {state later : Loading}
    (ended : Load.loadArgs slot args state = .ok ⟨⟩ later) :
    Places (Term.occurrencesList args) state.vars later.vars := by
  induction args generalizing slot state with
  | nil =>
    cases ended
    exact .refl _
  | cons arg args ih =>
    obtain ⟨here, rest⟩ := List.forall_mem_cons.1 each
    rw [Term.occurrencesList]
    cases arg with
    | atom symbol | num value =>
      rw [Load.loadArgs] at ended
      obtain ⟨⟨⟩, next, filled, ended⟩ := bind_eq_ok.1 ended
      cases filled
      have others := ih rest ended
      rw [Term.occurrences, List.nil_append]
      exact others
    | var v =>
      rw [Load.loadArgs] at ended
      obtain ⟨target, next, placed, ended⟩ := bind_eq_ok.1 ended
      obtain ⟨⟨⟩, further, filled, ended⟩ := bind_eq_ok.1 ended
      cases filled
      have others := ih rest ended
      refine Places.trans ?_ others
      rw [Term.occurrences]
      unfold Load.variableAt at placed
      split at placed
      · next known =>
        cases placed
        exact ⟨fun _ _ known ↦ known, by simp [known]⟩
      · next unknown =>
        cases placed
        exact places_insert unknown slot
    | struct symbol inner =>
      rw [Load.loadArgs] at ended
      obtain ⟨target, next, loaded, ended⟩ := bind_eq_ok.1 ended
      obtain ⟨⟨⟩, further, filled, ended⟩ := bind_eq_ok.1 ended
      cases filled
      have others := ih rest ended
      exact (here state next target loaded).trans others

/-- Every variable of a term that was loaded has a cell. -/
theorem places_load {term : Term} {state later : Loading} {address : Address}
    (ended : Load.load term state = .ok address later) :
    Places term.occurrences state.vars later.vars := by
  induction term generalizing state later address with
  | atom symbol | num value =>
    cases ended
    rw [Term.occurrences]
    exact .refl _
  | var v =>
    rw [Load.load] at ended
    unfold Load.loadVar at ended
    rw [Term.occurrences]
    split at ended
    · next known =>
      cases ended
      exact ⟨fun _ _ known ↦ known, by simp [known]⟩
    · next unknown =>
      cases ended
      exact places_insert unknown _
  | struct symbol args ih =>
    rw [Load.load] at ended
    split at ended
    · cases ended
    · obtain ⟨found, next, pushed, ended⟩ := bind_eq_ok.1 ended
      obtain ⟨first, further, reserved, ended⟩ := bind_eq_ok.1 ended
      obtain ⟨⟨⟩, last, loaded, ended⟩ := bind_eq_ok.1 ended
      have kept : further.vars = state.vars := by
        cases pushed
        cases reserved
        rfl
      cases ended
      rw [Term.occurrences, ← kept]
      exact places_loadArgs (fun arg member _ _ _ ended ↦ ih arg member ended) loaded

/-! ### Several terms -/

/-- Loading terms that share variables. -/
theorem loads_mapM {terms : List Term} (kinds : ∀ term ∈ terms, term.AllFunctors admitted)
    {state later : Loading} (sound : Sound admitted ∅ state) {addresses : List Address}
    (ended : terms.mapM Load.load state = .ok addresses later) :
    Loads D admitted ∅ ∅ state later (fun _ _ ↦ True)
        (fun θ β ↦ addresses.map θ = terms.map (Term.eval β)) ∧
      ∀ address ∈ addresses, address < later.heap.size := by
  induction terms generalizing state addresses with
  | nil =>
    cases ended
    exact ⟨⟨sound, Nat.le_refl _, fun _ member _ ↦ member, fun _ _ _ ↦ rfl, fun _ _ known ↦ known,
      fun θ meets ↦ ⟨meets, fun _ _ ↦ rfl⟩, fun θ β meets assigns _ ↦
      ⟨θ, fun _ _ ↦ rfl, meets, assigns⟩⟩, by simp⟩
  | cons term terms ih =>
    obtain ⟨first_kinds, others_kinds⟩ := List.forall_mem_cons.1 kinds
    rw [List.mapM_cons] at ended
    obtain ⟨address, middle, loaded, rest⟩ := bind_eq_ok.1 ended
    obtain ⟨others, last, second, final⟩ := bind_eq_ok.1 rest
    cases final
    obtain ⟨one, inside, -⟩ := loadsTerm (D := D) first_kinds ∅ _ _ address sound loaded
    obtain ⟨two, others_inside⟩ := ih others_kinds one.sound second
    refine ⟨one.trans two (fun _ _ _ ↦ trivial) (fun _ _ _ _ _ _ ↦ trivial)
      fun θ β own others _ ↦ ?_, ?_⟩
    · rw [List.map_cons, List.map_cons, own, others]
    · exact List.forall_mem_cons.2 ⟨Nat.lt_of_lt_of_le inside two.grown, others_inside⟩

theorem places_mapM {terms : List Term} {state later : Loading} {addresses : List Address}
    (ended : terms.mapM Load.load state = .ok addresses later) :
    Places (terms.flatMap Term.occurrences) state.vars later.vars := by
  induction terms generalizing state addresses with
  | nil =>
    cases ended
    exact .refl _
  | cons term terms ih =>
    rw [List.mapM_cons] at ended
    obtain ⟨address, middle, loaded, rest⟩ := bind_eq_ok.1 ended
    obtain ⟨others, last, second, final⟩ := bind_eq_ok.1 rest
    cases final
    rw [List.flatMap_cons]
    exact (places_load loaded).trans (ih second)

end Loading
end HornMachine.Heap

namespace HornMachine.Memory

open Heap (Loading)
open Heap.Loading (Loads loadsTerm sound_of_formed meets_empty)

variable {D : Type} [Domain D] {admitted : Functor → Prop} {memory : Memory}

/-- A heap with more cells at its end can be taken back. -/
theorem rewinds_of_kept {heap : Heap} (grown : memory.heap.size ≤ heap.size)
    (kept : ∀ address : Nat, address < memory.heap.size →
      heap.cells[address]? = memory.heap.cells[address]?) :
    Rewinds { memory with heap } memory := by
  refine ⟨Nat.le_refl _, grown, ?_⟩
  rw [Nat.sub_self]
  refine Memory.ext ?_ rfl
  apply Heap.ext_getElem?
  intro address
  change (heap.truncate memory.heap.size).cells[address]? = _
  rw [Heap.getElem?_truncate]
  split
  · next lower => exact kept address lower
  · next outside => exact (Array.getElem?_eq_none (Nat.le_of_not_lt outside)).symm

/-- A structure that is added to the heap is found at its address. -/
theorem value_loadAlone_struct (formed : memory.heap.Formed admitted 0) {symbol : Symbol}
    {args : List Term} (kinds : (Term.struct symbol args).AllFunctors admitted) {address : Address}
    {heap : Heap} (ended : memory.heap.loadAlone (.struct symbol args) = (.ok address, heap)) :
    heap.value address = .ok (address, .compound ⟨symbol, args.length⟩ (address + 1)) := by
  simp only [Heap.loadAlone, Heap.load, EStateM.run] at ended
  cases loaded : Heap.Load.load (.struct symbol args) { heap := memory.heap } with
  | error fault state => simp [loaded] at ended
  | ok found state =>
    simp only [loaded, Prod.mk.injEq, Except.ok.injEq] at ended
    obtain ⟨rfl, rfl⟩ := ended
    exact Heap.Loading.value_of_load_struct (sound_of_formed formed (by simp)) kinds loaded

/-- A ground term is added to the heap: its address stands for it, and nothing else is said. -/
theorem narrows_loadAlone (D : Type) [Domain D] (formed : memory.heap.Formed admitted 0)
    {term : Term}
    (ground : term.isGround = true) (kinds : term.AllFunctors admitted) {address : Address}
    {heap : Heap} (ended : memory.heap.loadAlone term = (.ok address, heap)) :
    heap.Formed admitted 0 ∧ Rewinds { memory with heap } memory ∧ address < heap.size ∧
      (∀ θ : Valuation D, heap.Solution θ →
        memory.heap.Solution θ ∧ ∀ β, θ address = term.eval β) ∧
      ∀ θ : Valuation D, memory.heap.Solution θ → ∃ θ' : Valuation D,
        (∀ other : Nat, other < memory.heap.size → θ' other = θ other) ∧ heap.Solution θ' := by
  unfold Heap.loadAlone Heap.load at ended
  generalize run : (Heap.Load.load term).run { heap := memory.heap, vars := ∅ } = result at ended
  cases result with
  | error fault state => cases ended
  | ok found state =>
    cases ended
    have sound : Loading.Sound admitted ∅ { heap := memory.heap, vars := ∅ } :=
      sound_of_formed formed (by simp)
    obtain ⟨loads, inside, -⟩ := loadsTerm (D := D) kinds ∅ _ state address sound run
    refine ⟨loads.sound.formed,
      rewinds_of_kept loads.grown fun other lower ↦ loads.kept other lower (Set.notMem_empty _),
      inside, fun θ solution ↦ ?_, fun θ solution ↦ ?_⟩
    · obtain ⟨meets, stands⟩ := loads.back θ (meets_empty.2 solution)
      refine ⟨meets_empty.1 meets, fun β ↦ ?_⟩
      -- Cells of variables have some values, none of which the ground term mentions.
      have assigned : Loading.Assigns state.vars θ fun v ↦
          (state.vars[v]?.map θ).getD default := by
        intro v place known
        simp only [known, Option.map_some, Option.getD_some]
      rw [stands _ assigned, term.eval_of_isGround ground]
    · obtain ⟨θ', same, meets, -⟩ := loads.forth θ (fun _ ↦ default) (meets_empty.2 solution) (by
        intro v place known
        simp at known) trivial
      exact ⟨θ', same, meets_empty.1 meets⟩

end HornMachine.Memory
