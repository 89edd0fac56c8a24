import HornMachine.Proofs.Bindings.OccursCheck
import HornMachine.Proofs.Heap.Rewind

/-!
# A failed unification commits nothing

Unification binds on the way, so that later pairs resolve differently, and it may fail after any
number of bindings. It can be taken back all the same: only unbound variables are bound, each of
them once, so undoing what was recorded since the beginning gives back what was there. Terms are
unified with bindings of variables and heap cells with a trail of addresses; main statement: in
both, a unification that fails leaves everything as it was, and one that succeeds has changed
nothing but variables that were unbound, each of which it has recorded once.
-/

namespace HornMachine

namespace Bindings

variable {check : OccursCheck} {bindings later : Bindings}

/-! ### Attempts whose state is kept -/

namespace Tentative

variable {α β : Type}

/-- The state in which an attempt stops. -/
def after (run : Tentative α) (state : Unifying) : Unifying :=
  match run state with
  | .ok _ later => later
  | .error _ later => later

/-- The same attempt, of which nothing is left if it fails. -/
def forget (run : Tentative α) : Unification α := fun state ↦
  match run state with
  | .ok value later => .ok (value, later)
  | .error obstacle _ => .error obstacle

private theorem forget_bind (run : Tentative α) (next : α → Tentative β) :
    forget (run >>= next) = forget run >>= fun value ↦ forget (next value) := by
  funext state
  change forget (run >>= next) state =
    (forget run state >>= fun result ↦ forget (next result.1) result.2)
  unfold forget
  rw [bind_apply]
  cases run state with
  | ok value later => rfl
  | error obstacle later => rfl

private theorem forget_forM {run : Term × Term → Tentative Unit}
    {other : Term × Term → Unification Unit}
    (each : ∀ pair, forget (run pair) = other pair) (pairs : List (Term × Term)) :
    forget (pairs.forM run) = pairs.forM other := by
  induction pairs with
  | nil => rfl
  | cons pair pairs ih =>
    change forget (run pair >>= fun _ ↦ pairs.forM run) = other pair >>= fun _ ↦ pairs.forM other
    rw [forget_bind, each, ih]

theorem bindChecked_apply (v : Var) (term : Term) (state : Unifying) :
    (Unification.bindChecked check v term : Tentative Unit) state =
      if check = .on ∧ state.bindings.occursIn v term = true then .error .clash state
      else .ok () { state with bindings := state.bindings.bind v term } := by
  cases check with
  | off => rfl
  | on => cases occurs : state.bindings.occursIn v term <;> simp [Unification.bindChecked,
    bind_apply,
      get_apply, modify_apply, throw_apply, occurs]

private theorem forget_bindChecked (v : Var) (term : Term) :
    forget (Unification.bindChecked check v term) = Unification.bindChecked check v term := by
  cases check with
  | off => rfl
  | on =>
    funext state
    unfold forget
    rw [bindChecked_apply]
    cases occurs : state.bindings.occursIn v term with
    | true =>
      change _ = (Unification.bindChecked .on v term : Unification Unit).run state
      simp [Unification.bindChecked, occurs]
      rfl
    | false =>
      change _ = (Unification.bindChecked .on v term : Unification Unit).run state
      simp [Unification.bindChecked, occurs]
      rfl

theorem takeUp_apply (left right : Term) (state : Unifying) :
    (Unification.takeUp check left right : Tentative Bool) state =
      if check = .off ∧ (left, right) ∈ state.seen then .ok false state
      else .ok true (state.taken check left right) := by
  cases check with
  | on => rfl
  | off =>
    by_cases met : (left, right) ∈ state.seen <;>
      simp [Unification.takeUp, bind_apply, get_apply, pure_apply, modify_apply, map_apply, met,
        Unifying.taken]

private theorem forget_takeUp (left right : Term) :
    forget (Unification.takeUp check left right) = Unification.takeUp check left right := by
  funext state
  change forget _ state = (Unification.takeUp check left right : Unification Bool).run state
  unfold forget
  rw [takeUp_apply, run_takeUp]
  by_cases met : check = .off ∧ (left, right) ∈ state.seen
  · rw [if_pos met, if_pos met]
  · rw [if_neg met, if_neg met]

/-- Keeping the state of an attempt that fails makes no other difference. -/
theorem forget_attempt (check : OccursCheck) (depth : Nat) (a b : Term) :
    forget (Unification.attempt check depth a b) = unifyWithin check depth a b := by
  induction depth generalizing a b with
  | zero => rfl
  | succ depth ih =>
    rw [unifyWithin, Unification.attempt, Unification.attempt, forget_bind]
    change (Unification.resolved a >>= _ : Unification Unit) = _
    congr 1
    funext left
    rw [forget_bind]
    change (Unification.resolved b >>= _ : Unification Unit) = _
    congr 1
    funext right
    cases left with
    | var x =>
      cases right with
      | var y =>
        by_cases same : x = y
        · simp only [same, if_true]
          rfl
        · simp only [same, if_false]
          exact forget_bindChecked x (.var y)
      | atom | num | struct => exact forget_bindChecked x _
    | atom p =>
      cases right with
      | var y => exact forget_bindChecked y _
      | atom q => by_cases same : p = q <;> simp only [same, if_true, if_false] <;> rfl
      | num | struct => rfl
    | num m =>
      cases right with
      | var y => exact forget_bindChecked y _
      | num n => by_cases same : m = n <;> simp only [same, if_true, if_false] <;> rfl
      | atom | struct => rfl
    | struct f xs =>
      cases right with
      | var y => exact forget_bindChecked y _
      | atom | num => rfl
      | struct g ys =>
        by_cases differ : f ≠ g ∨ xs.length ≠ ys.length
        · simp only [differ, if_true]
          rfl
        · simp only [differ, if_false]
          rw [forget_bind, forget_takeUp]
          congr 1
          funext taken
          cases taken with
          | false => rfl
          | true => exact forget_forM (fun pair ↦ ih pair.1 pair.2) _

/-! ### What an attempt has bound -/

/-- Bindings were added only, wherever the attempt stops. -/
def Adds (check : OccursCheck) (run : Tentative α) (state : Unifying) : Prop :=
  Extends check state.bindings (run.after state).bindings

private theorem adds_forM {run : Term × Term → Tentative Unit} {pairs : List (Term × Term)}
    (each : ∀ pair ∈ pairs, ∀ state : Unifying, WellFounded state.bindings.Linked →
      Adds check (run pair) state)
    {state : Unifying} (ends : WellFounded state.bindings.Linked) :
    Adds check (pairs.forM run) state := by
  induction pairs generalizing state with
  | nil => exact .refl
  | cons pair pairs ih =>
    have first := each pair List.mem_cons_self state ends
    change Adds check (run pair >>= fun _ ↦ pairs.forM run) state
    unfold Adds after at first ⊢
    rw [bind_apply]
    cases ended : run pair state with
    | error obstacle later =>
      rw [ended] at first
      exact first
    | ok done later =>
      rw [ended] at first
      exact first.trans (ih (fun other member ↦ each other (List.mem_cons_of_mem _ member))
        (first.linksEnd ends))

private theorem adds_bindChecked {state : Unifying} {v : Var} {term : Term}
    (unbound : state.bindings.lookup? v = none)
    (root : state.bindings.Root term) (other : term ≠ .var v) :
    Adds check (Unification.bindChecked check v term) state := by
  unfold Adds after
  rw [bindChecked_apply]
  by_cases refused : check = .on ∧ state.bindings.occursIn v term = true
  · rw [if_pos refused]
    exact .refl
  · rw [if_neg refused]
    refine .step .refl ⟨unbound, root, other, fun on ↦ ?_⟩
    simpa [on] using refused

private theorem adds_pure (value : α) (state : Unifying) :
    Adds check (pure value : Tentative α) state := .refl

private theorem adds_throw (obstacle : Obstacle) (state : Unifying) :
    Adds check (throw obstacle : Tentative α) state :=
  .refl

private theorem adds_resolved_bind {term : Term} {next : Term → Tentative α} {state : Unifying}
    (adds : Adds check (next (state.bindings.resolve term)) state) :
    Adds check (Unification.resolved term >>= next) state :=
  adds

private theorem adds_takeUp_bind {left right : Term} {next : Bool → Tentative α} {state : Unifying}
    (met : Adds check (next false) state)
    (fresh : Adds check (next true) (state.taken check left right)) :
    Adds check (Unification.takeUp check left right >>= next) state := by
  unfold Adds after at met fresh ⊢
  rw [bindings_taken] at fresh
  rw [bind_apply, takeUp_apply]
  by_cases known : check = .off ∧ (left, right) ∈ state.seen
  · rw [if_pos known]
    exact met
  · rw [if_neg known]
    exact fresh

/-- An attempt binds unbound variables only, whether it goes well or not. -/
theorem adds_attempt {depth : Nat} {state : Unifying} (ends : WellFounded state.bindings.Linked)
    (a b : Term) :
    Adds check (Unification.attempt check depth a b) state := by
  induction depth generalizing state a b with
  | zero => exact .refl
  | succ depth ih =>
    have root_a := root_resolve ends a
    have root_b := root_resolve ends b
    rw [Unification.attempt]
    refine adds_resolved_bind (adds_resolved_bind ?_)
    cases left : state.bindings.resolve a with
    | var x =>
      rw [left] at root_a
      cases right : state.bindings.resolve b with
      | var y =>
        rw [right] at root_b
        by_cases same : x = y
        · simp only [same, if_true]
          exact adds_pure _ _
        · simp only [same, if_false]
          exact adds_bindChecked (root_a x rfl) root_b (by simpa using Ne.symm same)
      | atom | num | struct =>
        rw [right] at root_b
        exact adds_bindChecked (root_a x rfl) root_b (by simp)
    | atom p =>
      rw [left] at root_a
      cases right : state.bindings.resolve b with
      | var y => exact adds_bindChecked (root_b y right) root_a (by simp)
      | atom q => by_cases same : p = q <;> simp only [same, if_true, if_false] <;> exact .refl
      | num | struct => exact adds_throw _ _
    | num m =>
      rw [left] at root_a
      cases right : state.bindings.resolve b with
      | var y => exact adds_bindChecked (root_b y right) root_a (by simp)
      | num n => by_cases same : m = n <;> simp only [same, if_true, if_false] <;> exact .refl
      | atom | struct => exact adds_throw _ _
    | struct f xs =>
      rw [left] at root_a
      cases right : state.bindings.resolve b with
      | var y => exact adds_bindChecked (root_b y right) root_a (by simp)
      | atom | num => exact adds_throw _ _
      | struct g ys =>
        by_cases differ : f ≠ g ∨ xs.length ≠ ys.length
        · simp only [differ, if_true]
          exact adds_throw _ _
        · simp only [differ, if_false]
          refine adds_takeUp_bind (adds_pure _ _)
            (adds_forM (fun pair _ next ends ↦ ih ends _ _) ?_)
          rwa [bindings_taken]

end Tentative

/-! ### Undoing what was bound -/

/-- Later bindings have some more, each of a variable that was unbound and that is bound once. -/
structure Adds (bindings later : Bindings) (made : List (Var × Term)) : Prop where
  entries : later.entries = made ++ bindings.entries
  nodup : (made.map Prod.fst).Nodup
  unbound : ∀ entry ∈ made, bindings.lookup? entry.1 = none

private theorem Extends.exists_adds (grown : Extends check bindings later) :
    ∃ made, bindings.Adds later made := by
  induction grown with
  | refl => exact ⟨[], rfl, List.nodup_nil, by simp⟩
  | @step middle before v term admissible ih =>
    obtain ⟨made, entries, nodup, unbound⟩ := ih
    refine ⟨(v, term) :: made, congrArg ((v, term) :: ·) entries, ?_, ?_⟩
    · refine List.nodup_cons.2 ⟨fun member ↦ ?_, nodup⟩
      obtain ⟨entry, inside, rfl⟩ := List.mem_map.1 member
      have absent := admissible.unbound
      rw [lookup?_eq, entries, List.lookup_eq_none_iff] at absent
      simpa using absent entry (List.mem_append_left _ inside)
    · intro entry member
      obtain rfl | inside := List.mem_cons.1 member
      · exact before.unbound admissible.unbound
      · exact unbound entry inside

namespace Adds

variable {made : List (Var × Term)}

/-- The trail goes on with the variables that were bound. -/
theorem trail (adds : bindings.Adds later made) :
    later.trail = bindings.trail ++ (made.map Prod.fst).reverse := by
  rw [Bindings.trail, adds.entries, List.map_append, List.reverse_append, Bindings.trail]

/-- Undoing what was bound since gives back the bindings. -/
theorem undoTo (adds : bindings.Adds later made) :
    later.undoTo bindings.entries.length = .ok bindings := by
  have length : later.entries.length = made.length + bindings.entries.length := by
    rw [adds.entries, List.length_append]
  rw [Bindings.undoTo, if_neg (by omega)]
  refine congrArg Except.ok (eq_of_entries_eq ?_)
  rw [ofEntries, adds.entries, List.length_append, Nat.add_sub_cancel, List.drop_left]

private theorem getElem?_foldl_erase (index : Std.TreeMap Var Term) (vars : List Var) (v : Var) :
    (vars.foldl (fun index v ↦ index.erase v) index)[v]? =
      if v ∈ vars then none else index[v]? := by
  induction vars generalizing index with
  | nil => simp
  | cons w vars ih =>
    rw [List.foldl_cons, ih, Std.TreeMap.getElem?_erase]
    by_cases here : w = v
    · subst here
      simp
    · simp [here, Ne.symm here]

/-- Taking the variables that were bound out of the map gives back what it said. -/
theorem erased (adds : bindings.Adds later made) (v : Var) :
    ((made.map Prod.fst).foldl (fun index v ↦ index.erase v) later.index)[v]? =
      bindings.lookup? v := by
  rw [getElem?_foldl_erase]
  split
  · next member =>
    obtain ⟨entry, inside, rfl⟩ := List.mem_map.1 member
    exact (adds.unbound entry inside).symm
  · next absent =>
    change later.lookup? v = _
    rw [lookup?_eq, lookup?_eq, adds.entries, List.lookup_append, List.lookup_eq_none_iff.2,
      Option.none_or]
    intro entry inside
    simpa using fun same : v = entry.1 ↦ absent (same ▸ List.mem_map_of_mem inside)

end Adds

/-- The bindings where an attempt to unify two terms stops, before any are undone. -/
def reached (check : OccursCheck) (bindings : Bindings) (a b : Term) : Bindings :=
  (Tentative.after (Unification.attempt check (bindings.depthBound a b) a b) { bindings }).bindings

private theorem exists_adds_reached (check : OccursCheck) (ends : WellFounded bindings.Linked)
    (a b : Term) :
    ∃ made, bindings.Adds (bindings.reached check a b) made := by
  have adds : Tentative.Adds check (Unification.attempt check (bindings.depthBound a b) a b)
    { bindings } :=
    Tentative.adds_attempt ends a b
  exact adds.exists_adds

/-- In place, terms are unified or everything is undone, as without keeping the state of an attempt
that fails. -/
theorem unifyInPlace_or (check : OccursCheck) (ends : WellFounded bindings.Linked) (a b : Term) :
    (bindings.unifyInPlace check a b = (true, bindings.reached check a b) ∧
      bindings.unify check a b = some (bindings.reached check a b)) ∨
    (bindings.unifyInPlace check a b = (false, bindings) ∧ bindings.unify check a b = none) := by
  obtain ⟨made, adds⟩ := exists_adds_reached check ends a b
  have same := congrFun (Tentative.forget_attempt check (bindings.depthBound a b) a b) { bindings }
  unfold reached Tentative.after at adds ⊢
  unfold unifyInPlace unify
  unfold Tentative.forget at same
  change _ = (unifyWithin check (bindings.depthBound a b) a b).run { bindings } at same
  rw [← same]
  dsimp only
  cases ended : (Unification.attempt check (bindings.depthBound a b) a b : Tentative Unit)
    { bindings } with
  | ok done state => exact .inl ⟨rfl, rfl⟩
  | error obstacle state =>
    rw [ended] at adds
    exact .inr ⟨by simp only [adds.undoTo], rfl⟩

end Bindings

/-! ### The heap -/

/-- Unbound variables were bound, each of them once, and recorded; nothing else was changed. -/
structure Memory.Commits (memory later : Memory) (bound : List Address) : Prop where
  trail : later.trail.toList = memory.trail.toList ++ bound
  nodup : bound.Nodup
  changed : ∀ address ∈ bound, memory.heap.cells[address]? = some (.ref address) ∧
    ∃ target, target ≠ address ∧ later.heap.cells[address]? = some (.ref target)
  kept : ∀ address ∉ bound, later.heap.cells[address]? = memory.heap.cells[address]?

private theorem Memory.Binds.exists_commits {check : OccursCheck} {memory later : Memory}
    (binds : Memory.Binds check memory later) : ∃ bound, memory.Commits later bound := by
  induction binds with
  | refl => exact ⟨[], by simp, List.nodup_nil, by simp, fun _ _ ↦ rfl⟩
  | @step middle _ address target admissible ih =>
    obtain ⟨bound, trail, nodup, changed, kept⟩ := ih
    have inside := Heap.lt_size_of_getElem? admissible.unbound
    -- a variable that was bound on the way refers to another cell, so this one is none of them
    have absent : address ∉ bound := by
      intro member
      obtain ⟨-, other, apart, here⟩ := changed address member
      exact apart (by simpa using here.symm.trans admissible.unbound)
    have cells (other : Address) : (middle.assign address target).heap.cells[other]? =
        if address = other then some (.ref target) else middle.heap.cells[other]? := by
      rw [Memory.assign, Heap.getElem?_set]
      simp [inside]
    refine ⟨bound ++ [address], ?_, ?_, fun other member ↦ ?_, fun other outside ↦ ?_⟩
    · rw [Memory.assign, Array.toList_push, trail, List.append_assoc]
    · exact List.nodup_append.2 ⟨nodup, List.nodup_singleton _, by
        rintro other member _ (_ | _) rfl
        · exact absent member
        · contradiction⟩
    · rw [cells]
      by_cases same : address = other
      · subst same
        exact ⟨kept address absent ▸ admissible.unbound, target, admissible.ne, if_pos rfl⟩
      · rw [if_neg same]
        exact changed other (by simpa [Ne.symm same] using member)
    · rw [List.mem_append, List.mem_singleton, not_or] at outside
      rw [cells, if_neg (Ne.symm outside.2), kept other outside.1]

/-! ### Both -/

/-- A unification that fails commits nothing. Of terms: where the attempt stops, it has only bound
variables that were unbound, each once, so that undoing them, which is to take them off the trail
and out of the map, gives back the bindings; they are there afterwards exactly if the terms unify.
On the heap: if it fails, all cells and the trail are as before, and if it succeeds, the only cells
changed are variables that were unbound, each of which is on the trail once more. -/
theorem failed_unification_commits_nothing (check : OccursCheck) {bindings : Bindings}
    (ends : WellFounded bindings.Linked) (a b : Term) :
    (∃ made, bindings.Adds (bindings.reached check a b) made ∧
      (bindings.unifyInPlace check a b = (true, bindings.reached check a b) ∨
        bindings.unifyInPlace check a b = (false, bindings) ∧ ∀ v : Var,
          ((made.map Prod.fst).foldl (fun index v ↦ index.erase v)
            (bindings.reached check a b).index)[v]? =
            bindings.lookup? v)) ∧
    (∀ (memory later : Memory) (left right : Address),
      memory.unify check left right = (.ok false, later) → later = memory) ∧
    ∀ (memory later : Memory) (left right : Address),
      memory.unify check left right = (.ok true, later) → ∃ bound, memory.Commits later bound := by
  refine ⟨?_, fun memory later left right failed ↦ Memory.unify_eq_self failed,
    fun memory later left right done ↦ (Memory.binds_unify done).exists_commits⟩
  obtain ⟨made, adds⟩ := Bindings.exists_adds_reached check ends a b
  obtain ⟨unified, -⟩ | ⟨undone, -⟩ := Bindings.unifyInPlace_or check ends a b
  · exact ⟨made, adds, .inl unified⟩
  · exact ⟨made, adds, .inr ⟨undone, adds.erased⟩⟩

/-- The structures `f(X, p)` and `f(q, r)` with a given atom for `r`. -/
def Memory.twoPairs (last : Symbol) : Memory where
  heap := ⟨#[.str 1, .functor ⟨⟨0⟩, 2⟩, .ref 2, .atom ⟨1⟩, .str 5, .functor ⟨⟨0⟩, 2⟩, .atom ⟨2⟩,
    .atom last]⟩

/-- A structure of two terms. -/
def Term.paired (left right : Term) : Term := .struct ⟨1⟩ [left, right]

/-- A variable is bound before different atoms are met, in terms and on the heap, and the binding is
undone; on the heap it stays if the atoms are the same. -/
theorem failed_unification_commits_nothing_pairs :
    WellFounded Bindings.oneLink.Linked ∧
    (∃ made, Bindings.oneLink.Adds (Bindings.oneLink.reached .on (.paired (.var 0) (.atom ⟨2⟩))
      (.paired (.struct ⟨0⟩ [.atom ⟨3⟩]) (.atom ⟨4⟩))) made ∧ made.map Prod.fst = [1]) ∧
    Bindings.oneLink.unifyInPlace .on (.paired (.var 0) (.atom ⟨2⟩))
      (.paired (.struct ⟨0⟩ [.atom ⟨3⟩]) (.atom ⟨4⟩)) = (false, Bindings.oneLink) ∧
    (Memory.twoPairs ⟨3⟩).unify .on 0 4 = (.ok false, Memory.twoPairs ⟨3⟩) ∧
    ∃ later, (Memory.twoPairs ⟨1⟩).unify .on 0 4 = (.ok true, later) ∧
      (Memory.twoPairs ⟨1⟩).Commits later [2] := by
  have ends := Bindings.acyclic_oneLink.linksEnd
  obtain ⟨⟨made, adds, unified⟩, failed, done⟩ := failed_unification_commits_nothing .on ends
    (.paired (.var 0) (.atom ⟨2⟩)) (.paired (.struct ⟨0⟩ [.atom ⟨3⟩]) (.atom ⟨4⟩))
  have differ : (Bindings.oneLink.unifyInPlace .on (.paired (.var 0) (.atom ⟨2⟩))
      (.paired (.struct ⟨0⟩ [.atom ⟨3⟩]) (.atom ⟨4⟩))).1 = false := by decide +kernel
  have reached : (Bindings.oneLink.reached .on (.paired (.var 0) (.atom ⟨2⟩))
      (.paired (.struct ⟨0⟩ [.atom ⟨3⟩]) (.atom ⟨4⟩))).trail = [0, 1] := by decide +kernel
  have lost : ((Memory.twoPairs ⟨3⟩).unify .on 0 4).1 = .ok false := by decide +kernel
  have won : ((Memory.twoPairs ⟨1⟩).unify .on 0 4).1 = .ok true := by decide +kernel
  have recorded : ((Memory.twoPairs ⟨1⟩).unify .on 0 4).2.trail.toList = [2] := by decide +kernel
  obtain ⟨bound, commits⟩ := done _ ((Memory.twoPairs ⟨1⟩).unify .on 0 4).2 0 4 (Prod.ext won rfl)
  refine ⟨ends, ⟨made, adds, ?_⟩, ?_, ?_, _, Prod.ext won rfl, ?_⟩
  · have trail : [0] ++ [1] = [0] ++ (made.map Prod.fst).reverse := reached.symm.trans adds.trail
    exact List.reverse_injective (List.append_cancel_left trail).symm
  · obtain same | ⟨undone, -⟩ := unified
    · rw [same] at differ
      cases differ
    · exact undone
  · exact Prod.ext lost (failed _ _ 0 4 (Prod.ext lost rfl))
  · have trail := commits.trail
    rw [recorded, show (Memory.twoPairs ⟨1⟩).trail.toList = [] from rfl, List.nil_append] at trail
    exact trail ▸ commits

end HornMachine
