import HornMachine.Proofs.Heap.Walks

/-!
# Loops over cells end

Testing for unbound variables and reading terms need no bound: each structure entered leaves fewer
to enter. Following references and unifying without the occurs check are bounded in the definitions,
so that they are functions. Here it is shown that neither bound is ever the reason to stop, on
cyclic heaps as well: references end, and no pair of headers is taken up twice. Main statement:
`Formed.settles`.
-/

namespace HornMachine

namespace Memory

open Heap

variable {size depth : Nat} {state next : Unifying} {a b : Address}

/-- A unification that stops for a reason of its own. -/
def Finishes (state : Unifying) : EStateM.Result Obstacle Unifying Unit → Prop
  | .ok () later => later.memory.heap.size = state.memory.heap.size ∧
      ∀ pair ∈ state.seen, pair ∈ later.seen
  | .error obstacle _ => obstacle ≠ .unfinished

theorem Finishes.of_later {result : EStateM.Result Obstacle Unifying Unit}
    (finishes : Finishes next result) (same : next.memory.heap.size = state.memory.heap.size)
    (kept : ∀ pair ∈ state.seen, pair ∈ next.seen) : Finishes state result := by
  cases result with
  | error obstacle last => exact finishes
  | ok done last =>
    exact ⟨finishes.1.trans same, fun pair member ↦ finishes.2 pair (kept pair member)⟩

theorem finishes_forM {run : Address × Address → Unification Unit}
    {pairs : List (Address × Address)}
    (each : ∀ pair ∈ pairs, ∀ next : Unifying, next.memory.heap.size = state.memory.heap.size →
      (∀ old ∈ state.seen, old ∈ next.seen) → Finishes next (run pair next)) :
    Finishes state ((pairs.forM run) state) := by
  induction pairs generalizing state with
  | nil => exact ⟨rfl, fun _ member ↦ member⟩
  | cons pair pairs ih =>
    have first := each pair List.mem_cons_self state rfl fun _ member ↦ member
    change Finishes state ((run pair >>= fun _ ↦ pairs.forM run) state)
    rw [bind_apply]
    cases ended : run pair state with
    | error obstacle next =>
      rw [ended] at first
      exact first
    | ok done next =>
      rw [ended] at first
      obtain ⟨same, kept⟩ := first
      refine Finishes.of_later (ih fun other member last size seen ↦ ?_) same kept
      exact each other (List.mem_cons_of_mem _ member) last (size.trans same) fun old member ↦
        seen old (kept old member)

/-- As long as the depth exceeds the number of pairs of headers that are not taken up yet, a
unification stops for a reason of its own. -/
theorem finishes_unifyWithin (count : state.memory.heap.size = size)
    (deep : size * size < depth + seenCount (Finset.range size) state.seen) :
    Finishes state (unifyWithin .off depth a b state) := by
  induction depth generalizing state a b with
  | zero =>
    have few := seenCount_le (Finset.range size) state.seen
    rw [Finset.card_range] at few
    omega
  | succ depth ih =>
    generalize ended : unifyWithin .off (depth + 1) a b state = result
    have move := move_unifyWithin Term .off depth state a b
    rw [ended] at move
    cases move with
    | fault _ _ | clash _ => exact nofun
    | settled _ | met _ _ _ _ => exact ⟨rfl, fun _ member ↦ member⟩
    | bind address target _ _ => exact ⟨size_set _ _ _, fun _ member ↦ member⟩
    | descend functor left right at_left at_right fresh _ _ run =>
      rw [← run]
      have inside {header : Nat}
        (here : state.memory.heap.cells[header]? = some (.functor functor)) :
          header ∈ Finset.range size := by
        rw [← count, Finset.mem_range]
        exact lt_size_of_getElem? here
      have same : (state.taken .off left right).memory.heap.size = state.memory.heap.size := by
        rw [memory_taken]
      refine Finishes.of_later (finishes_forM fun pair _ next kept seen ↦ ?_) same fun pair member ↦
        mem_seen_taken.2 (.inl member)
      have more := seenCount_lt (fun pair member ↦ seen pair (mem_seen_taken.2 (.inl member)))
        (fresh rfl) (seen _ (mem_seen_taken.2 (.inr ⟨rfl, rfl⟩))) (inside at_left) (inside at_right)
      exact ih ((kept.trans same).trans count) (by omega)

/-- Without the occurs check the depth given to a unification is enough, whatever the heap holds. -/
theorem unifyWithin_ne_unfinished (memory : Memory) (a b : Address) (last : Unifying) :
    unifyWithin .off memory.depthBound a b { memory } ≠ .error .unfinished last := by
  have deep : memory.heap.size * memory.heap.size < memory.depthBound := by
    rw [depthBound]
    exact Nat.mul_self_lt_mul_self (Nat.lt_succ_self _)
  intro unfinished
  have finishes : Finishes { memory } (unifyWithin .off memory.depthBound a b { memory }) :=
    finishes_unifyWithin rfl (Nat.lt_add_right _ deep)
  rw [unfinished] at finishes
  exact finishes rfl

end Memory

namespace Heap

/-- A finite term stands at an address. -/
def Finite (heap : Heap) (address : Address) : Prop :=
  ∃ θ : Valuation Tree, heap.Solution θ ∧ ∃ term : Term, θ address = term.tree

end Heap

/-- Every loop over the cells of a memory stops for a reason of its own. -/
structure Memory.Settles (memory : Memory) : Prop where
  deref : ∀ address < memory.heap.size, ∃ found, memory.heap.deref address = .ok found
  depth : ∀ a b last, unifyWithin .off memory.depthBound a b { memory } ≠ .error .unfinished last
  unify : ∀ a < memory.heap.size, ∀ b < memory.heap.size,
    ∃ unified later, memory.unify .off a b = (.ok unified, later)
  /-- At every address, cyclic or not, a walk down ends, and the test and reading come to what it
  sees. -/
  walk : ∀ address < memory.heap.size, ∃ sights, memory.heap.Sees [] address sights ∧
    memory.heap.Follows address sights
  ground : ∀ address < memory.heap.size, memory.heap.Finite address →
    ∃ answer, memory.heap.isGround address = .ok answer
  extract : ∀ address < memory.heap.size, memory.heap.Finite address → ∀ names,
    ∃ term later, memory.heap.extractNamed address names = (.ok term, later)
  /-- Where a structure inside itself is reached, reading says so. -/
  cyclic : ∀ address < memory.heap.size, ¬memory.heap.AcyclicAt address → ∀ names,
    ∃ later, memory.heap.extractNamed address names = (.error .cyclicTerm, later)

/-- So it is in a well-formed heap. -/
theorem Heap.Formed.settles {memory : Memory} {admitted : Functor → Prop}
    (formed : memory.heap.Formed admitted 0) : memory.Settles where
  deref address inside := by
    obtain ⟨found, value, read⟩ := formed.exists_value inside
    exact ⟨found, (value_eq_ok_iff.1 read).1⟩
  depth := memory.unifyWithin_ne_unfinished
  unify a a_inside b b_inside :=
    Memory.exists_unify formed (fun on ↦ OccursCheck.noConfusion on) a_inside b_inside
  walk address inside := (formed.exists_sees inside).imp fun _ sees ↦ ⟨sees, sees.follows⟩
  ground address inside := by
    rintro ⟨θ, solution, term, same⟩
    have finite (_ : True) : Tree.sizes.Finite (θ address) := ⟨term, same.symm⟩
    have fails := formed.failsOnly_isGround (fun _ ↦ solution) inside finite
    cases ended : memory.heap.isGround address with
    | ok answer => exact ⟨answer, rfl⟩
    | error fault => exact absurd trivial (fails fault ended).2
  extract address inside := by
    rintro ⟨θ, solution, term, same⟩ names
    exact formed.exists_extractNamed_of_finite solution Tree.sizes inside ⟨term, same.symm⟩ names
  cyclic address inside cyclic names := by
    obtain ⟨sights, sees⟩ := formed.exists_sees inside
    exact ⟨_, sees.follows.stops names ((Heap.exists_again_iff sees).2 cyclic)⟩

end HornMachine
