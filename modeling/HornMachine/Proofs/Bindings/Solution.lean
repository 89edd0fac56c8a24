import HornMachine.Bindings.Unify
import HornMachine.Proofs.Computation
import HornMachine.Proofs.Term.Variant
import Mathlib.Data.List.Perm.Subperm
import Mathlib.Logic.Relation

/-!
# What bindings say

Bindings are read as equations: a bound variable stands for what its term stands for. They have
solutions among trees whenever chains of variables bound to variables end, though not among terms
if a variable lies inside its own term.

Main statements: following bindings at the root of a term ends at something that is not bound
(`root_resolve`) and keeps what the term stands for; substituting them gives a term of unbound
variables that stands for the same, and fails only where a variable reaches itself
(`substituted_apply`, `cyclic_of_apply`); the occurs check finds an unbound variable that is
reached, or else there is one that reaches itself (`reaches_of_reachesWithin`); and what
substituting bindings in variables gives shows what the solutions have in common
(`describes_apply`).
-/

namespace HornMachine

/-! ### Terms with computed variables -/

namespace Term

variable {ε : Type} {f : Var → Except ε Term}

/-- The term that was computed for a variable. -/
def computed (f : Var → Except ε Term) (v : Var) : Term :=
  match f v with
  | .ok term => term
  | .error _ => .var v

private theorem substListM_ok {terms built : List Term}
    (each : ∀ term ∈ terms, ∀ made, term.substM f = .ok made →
      (∀ v ∈ term.occurrences, f v = .ok (computed f v)) ∧ made = term.subst (computed f))
    (ended : substListM f terms = .ok built) :
    (∀ term ∈ terms, ∀ v ∈ term.occurrences, f v = .ok (computed f v)) ∧
      built = terms.map (subst (computed f)) := by
  induction terms generalizing built with
  | nil =>
    cases ended
    exact ⟨nofun, rfl⟩
  | cons term terms ih =>
    obtain ⟨here, later⟩ := List.forall_mem_cons.1 each
    obtain ⟨first, one, ended⟩ := Except.bind_eq_ok.1 ended
    obtain ⟨rest, others, ended⟩ := Except.bind_eq_ok.1 ended
    cases ended
    obtain ⟨computedHere, rfl⟩ := here first one
    obtain ⟨computedLater, rfl⟩ := ih later others
    exact ⟨List.forall_mem_cons.2 ⟨computedHere, computedLater⟩, rfl⟩

/-- A term that could be built is the term with what was computed for its variables. -/
theorem substM_ok {term built : Term} (ended : term.substM f = .ok built) :
    (∀ v ∈ term.occurrences, f v = .ok (computed f v)) ∧ built = term.subst (computed f) := by
  induction term generalizing built with
  | atom symbol =>
    cases ended
    exact ⟨by simp, by simp⟩
  | num value =>
    cases ended
    exact ⟨by simp, by simp⟩
  | var v =>
    have found : f v = .ok built := by simpa [substM] using ended
    simp [computed, found]
  | struct symbol args ih =>
    rw [substM] at ended
    obtain ⟨terms, each, made⟩ := Except.bind_eq_ok.1 ended
    cases made
    obtain ⟨found, rfl⟩ := substListM_ok (fun arg member made ended ↦ ih arg member ended) each
    refine ⟨fun v occurs ↦ ?_, (subst_struct _ _ _).symm⟩
    obtain ⟨arg, member, inside⟩ := mem_occurrences_struct.1 occurs
    exact found arg member v inside

/-- If a term could not be built, one of its variables could not be computed. -/
theorem failsOnly_substM {allowed : ε → Prop} {term : Term}
    (each : ∀ v ∈ term.occurrences, Except.FailsOnly allowed (f v)) :
    Except.FailsOnly allowed (term.substM f) := by
  induction term with
  | atom | num => exact Except.failsOnly_ok _
  | var v => exact each v (by simp)
  | struct symbol args ih =>
    rw [substM]
    refine Except.failsOnly_bind ?_ fun _ _ ↦ Except.failsOnly_ok _
    rw [occurrences] at each
    induction args with
    | nil => exact Except.failsOnly_ok _
    | cons arg args rest =>
      obtain ⟨here, later⟩ := List.forall_mem_cons.1 ih
      rw [occurrencesList, List.forall_mem_append] at each
      rw [substListM]
      refine Except.failsOnly_bind (here each.1) fun _ _ ↦ ?_
      exact Except.failsOnly_bind (rest later each.2) fun _ _ ↦ Except.failsOnly_ok _

/-- If every variable can be computed, so can the term. -/
theorem substM_eq_ok {g : Var → Term} {term : Term}
    (each : ∀ v ∈ term.occurrences, f v = .ok (g v)) :
    term.substM f = .ok (term.subst g) := by
  cases ended : term.substM f with
  | error error =>
    have fails : Except.FailsOnly (fun _ ↦ False) (term.substM f) :=
      failsOnly_substM fun v occurs ↦ by simp [each v occurs, Except.FailsOnly]
    exact (fails error ended).elim
  | ok built =>
    obtain ⟨-, rfl⟩ := substM_ok ended
    congr 1
    refine subst_congr fun v occurs ↦ ?_
    rw [computed, each v occurs]

private theorem anyVarList_iff {p : Var → Bool} {terms : List Term} :
    anyVarList p terms = true ↔ ∃ term ∈ terms, term.anyVar p = true := by
  induction terms with
  | nil => simp [anyVarList]
  | cons term terms ih => simp [anyVarList, ih]

theorem anyVar_iff {p : Var → Bool} {term : Term} :
    term.anyVar p = true ↔ ∃ v ∈ term.occurrences, p v = true := by
  induction term with
  | atom | num => simp [anyVar]
  | var v => simp [anyVar]
  | struct symbol args ih =>
    rw [anyVar, anyVarList_iff]
    constructor
    · rintro ⟨arg, member, found⟩
      obtain ⟨v, inside, holds⟩ := (ih arg member).1 found
      exact ⟨v, mem_occurrences_struct.2 ⟨arg, member, inside⟩, holds⟩
    · rintro ⟨v, occurs, holds⟩
      obtain ⟨arg, member, inside⟩ := mem_occurrences_struct.1 occurs
      exact ⟨arg, member, (ih arg member).2 ⟨v, inside, holds⟩⟩

end Term

namespace Bindings

open Relation (TransGen ReflTransGen)

variable {D : Type} [Domain D] {bindings : Bindings}

/-! ### Equations -/

/-- Values of variables that meet all bindings. -/
def Solution (bindings : Bindings) (β : Var → D) : Prop :=
  ∀ v term, bindings.lookup? v = some term → β v = term.eval β

theorem lookup?_empty (v : Var) : empty.lookup? v = none := by
  rw [lookup?_eq]
  rfl

theorem solution_empty (β : Var → D) : empty.Solution β := by
  intro v term found
  rw [lookup?_empty] at found
  cases found

theorem lookup?_bind (bindings : Bindings) (v w : Var) (term : Term) :
    (bindings.bind v term).lookup? w = if v = w then some term else bindings.lookup? w := by
  rw [lookup?, bind, Std.TreeMap.getElem?_insert, ← lookup?]
  simp

/-- Binding an unbound variable adds an equation. -/
theorem solution_bind {v : Var} (unbound : bindings.lookup? v = none) {term : Term} {β : Var → D} :
    (bindings.bind v term).Solution β ↔ bindings.Solution β ∧ β v = term.eval β := by
  constructor
  · intro solution
    refine ⟨fun w other found ↦ ?_, solution v term (by rw [lookup?_bind, if_pos rfl])⟩
    refine solution w other ?_
    rw [lookup?_bind, if_neg, found]
    rintro rfl
    rw [unbound] at found
    cases found
  · rintro ⟨solution, own⟩ w other found
    rw [lookup?_bind] at found
    split at found
    · next same =>
      cases found
      exact same ▸ own
    · exact solution w other found

/-- Different bound variables are no more than there are bindings. -/
theorem length_le_size {vars : List Var} (nodup : vars.Nodup)
    (bound : ∀ v ∈ vars, bindings.lookup? v ≠ none) : vars.length ≤ bindings.size := by
  have subset : vars ⊆ bindings.index.keys := fun v member ↦ by
    rw [Std.TreeMap.mem_keys, Std.TreeMap.mem_iff_isSome_getElem?]
    exact Option.isSome_iff_ne_none.2 (bound v member)
  have short := (List.subperm_of_subset nodup subset).length_le
  rwa [Std.TreeMap.length_keys] at short

/-! ### Links between variables -/

/-- The variable `v` is bound to the variable `w`. -/
def Linked (bindings : Bindings) (w v : Var) : Prop := bindings.lookup? v = some (.var w)

/-- A term that is not a bound variable. -/
def Root (bindings : Bindings) (term : Term) : Prop :=
  ∀ v, term = .var v → bindings.lookup? v = none

theorem linksEnd_empty : WellFounded empty.Linked :=
  ⟨fun v ↦ Acc.intro v fun w linked ↦ by
    rw [Linked, lookup?_empty] at linked
    cases linked⟩

/-- Links still end when an unbound variable is bound to anything but a bound variable or itself. -/
theorem linksEnd_bind (ends : WellFounded bindings.Linked) {v : Var} {term : Term}
    (root : bindings.Root term) (other : term ≠ .var v) :
    WellFounded (bindings.bind v term).Linked := by
  have last : Acc (bindings.bind v term).Linked v := by
    refine Acc.intro v fun w linked ↦ Acc.intro w fun x further ↦ ?_
    rw [Linked, lookup?_bind, if_pos rfl] at linked
    cases linked
    rw [Linked, lookup?_bind, if_neg fun same ↦ other (congrArg Term.var same.symm),
      root w rfl] at further
    cases further
  refine ⟨fun w ↦ ?_⟩
  induction w using ends.induction with
  | _ w ih =>
    by_cases same : v = w
    · exact same ▸ last
    · refine Acc.intro w fun x linked ↦ ih x ?_
      rwa [Linked, lookup?_bind, if_neg same] at linked

/-- Different bound variables that were passed, with the number of further ones there can be. -/
structure Passed (bindings : Bindings) (passed : List Var) (steps : Nat) : Prop where
  nodup : passed.Nodup
  bound : ∀ v ∈ passed, bindings.lookup? v ≠ none
  count : passed.length + steps = bindings.size

theorem passed_nil (bindings : Bindings) : bindings.Passed [] bindings.size :=
  ⟨.nil, nofun, Nat.zero_add _⟩

/-- There is a step left for a bound variable that was not passed yet. -/
theorem Passed.next {passed : List Var} {steps : Nat} (way : bindings.Passed passed steps) {v : Var}
    {term : Term} (found : bindings.lookup? v = some term) (fresh : v ∉ passed) :
    ∃ rest, steps = rest + 1 ∧ bindings.Passed (v :: passed) rest := by
  have nodup := List.nodup_cons.2 ⟨fresh, way.nodup⟩
  have bound : ∀ w ∈ v :: passed, bindings.lookup? w ≠ none :=
    List.forall_mem_cons.2 ⟨by simp [found], way.bound⟩
  have few := length_le_size nodup bound
  have count := way.count
  rw [List.length_cons] at few
  refine ⟨steps - 1, by omega, nodup, bound, ?_⟩
  rw [List.length_cons]
  omega

@[simp]
theorem resolveWithin_zero (bindings : Bindings) (term : Term) :
    bindings.resolveWithin 0 term = term := by
  rw [resolveWithin]
  nofun

/-- Following bindings ends at a root, for want of variables to go on with. -/
theorem root_resolveWithin (ends : WellFounded bindings.Linked) {steps : Nat} {term : Term}
    {passed : List Var} (way : bindings.Passed passed steps)
    (chain : ∀ p ∈ passed, ∀ v, term = .var v → TransGen bindings.Linked v p) :
    bindings.Root (bindings.resolveWithin steps term) := by
  induction steps generalizing term passed with
  | zero =>
    rw [resolveWithin_zero]
    rintro v rfl
    cases found : bindings.lookup? v with
    | none => rfl
    | some next =>
      have fresh : v ∉ passed := fun member ↦
        ends.transGen.irrefl.irrefl v (chain v member v rfl)
      obtain ⟨rest, ⟨⟩, -⟩ := way.next found fresh
  | succ steps ih =>
    cases term with
    | atom | num | struct => exact nofun
    | var v =>
      rw [resolveWithin]
      cases found : bindings.lookup? v with
      | none =>
        rintro w ⟨⟩
        exact found
      | some next =>
        have fresh : v ∉ passed := fun member ↦
          ends.transGen.irrefl.irrefl v (chain v member v rfl)
        obtain ⟨rest, ⟨⟩, further⟩ := way.next found fresh
        refine ih further ?_
        rintro p member w rfl
        rcases List.mem_cons.1 member with rfl | earlier
        · exact .single found
        · exact .head found (chain p earlier v rfl)

theorem root_resolve (ends : WellFounded bindings.Linked) (term : Term) :
    bindings.Root (bindings.resolve term) :=
  root_resolveWithin ends (passed_nil bindings) nofun

/-- Once a root is reached, more steps change nothing. -/
theorem resolveWithin_succ {steps : Nat} {term : Term}
    (root : bindings.Root (bindings.resolveWithin steps term)) :
    bindings.resolveWithin (steps + 1) term = bindings.resolveWithin steps term := by
  induction steps generalizing term with
  | zero =>
    cases term with
    | atom | num | struct => rfl
    | var v =>
      rw [resolveWithin_zero] at root ⊢
      rw [resolveWithin, root v rfl]
  | succ steps ih =>
    cases term with
    | atom | num | struct => rfl
    | var v =>
      rw [resolveWithin] at root ⊢
      cases found : bindings.lookup? v with
      | none => simp [resolveWithin, found]
      | some next =>
        rw [found] at root
        rw [resolveWithin, found]
        exact ih root

/-- A bound variable and its term lead to the same root. -/
theorem resolve_var (ends : WellFounded bindings.Linked) {v : Var} {term : Term}
    (found : bindings.lookup? v = some term) :
    bindings.resolve (.var v) = bindings.resolve term := by
  obtain ⟨steps, count, -⟩ := (passed_nil bindings).next found List.not_mem_nil
  have root := root_resolve ends (.var v)
  rw [resolve, count, resolveWithin, found] at root
  rw [resolve, resolve, count, resolveWithin, found]
  exact (resolveWithin_succ root).symm

private theorem resolve_of_root {term : Term} (root : bindings.Root term) :
    bindings.resolve term = term := by
  rw [resolve]
  cases bindings.size with
  | zero => rw [resolveWithin_zero]
  | succ steps =>
    cases term with
    | atom | num | struct => rfl
    | var v => rw [resolveWithin, root v rfl]

/-- A term and its root stand for the same. -/
theorem Solution.eval_resolveWithin {β : Var → D} (solution : bindings.Solution β) (steps : Nat)
    (term : Term) : (bindings.resolveWithin steps term).eval β = term.eval β := by
  induction steps generalizing term with
  | zero => rw [resolveWithin_zero]
  | succ steps ih =>
    cases term with
    | atom | num | struct => rfl
    | var v =>
      rw [resolveWithin]
      cases found : bindings.lookup? v with
      | none => rfl
      | some next => exact (ih next).trans (by rw [Term.eval_var, solution v next found])

theorem Solution.eval_resolve {β : Var → D} (solution : bindings.Solution β) (term : Term) :
    (bindings.resolve term).eval β = term.eval β :=
  solution.eval_resolveWithin bindings.size term

/-! ### Variables that reach variables -/

/-- The term of `v` mentions `w`. -/
def Mentions (bindings : Bindings) (v w : Var) : Prop :=
  ∃ term, bindings.lookup? v = some term ∧ w ∈ term.occurrences

/-- A variable in the term reaches one that reaches itself. -/
def Cyclic (bindings : Bindings) (term : Term) : Prop :=
  ∃ v ∈ term.occurrences, ∃ w, ReflTransGen bindings.Mentions v w ∧ TransGen bindings.Mentions w w

private theorem Cyclic.of_bound {term bound : Term} {v : Var} (occurs : v ∈ term.occurrences)
    (found : bindings.lookup? v = some bound) (cyclic : bindings.Cyclic bound) :
    bindings.Cyclic term := by
  obtain ⟨w, inside, x, reaches, cycle⟩ := cyclic
  exact ⟨v, occurs, x, reaches.head ⟨bound, found, inside⟩, cycle⟩

/-- What is reached from a finite variable is smaller, or the same and reached by links alone. -/
theorem Solution.smaller {β : Var → D} (solution : bindings.Solution β) (sizes : Domain.Sizes D)
    {v w : Var} (reaches : TransGen bindings.Mentions v w) (finite : sizes.Finite (β v)) :
    sizes.Finite (β w) ∧
      (sizes.size (β w) < sizes.size (β v) ∨ β w = β v ∧ TransGen bindings.Linked w v) := by
  have step {v w : Var} (mentions : bindings.Mentions v w) (finite : sizes.Finite (β v)) :
      sizes.Finite (β w) ∧
        (sizes.size (β w) < sizes.size (β v) ∨ β w = β v ∧ TransGen bindings.Linked w v) := by
    obtain ⟨term, found, occurs⟩ := mentions
    rw [solution v term found] at finite ⊢
    obtain ⟨own, rfl | less⟩ := Term.size_of_mem_occurrences sizes occurs finite
    · exact ⟨own, .inr ⟨(Term.eval_var β w).symm, .single found⟩⟩
    · exact ⟨own, .inl less⟩
  induction reaches with
  | single mentions => exact step mentions finite
  | tail _ mentions ih =>
    obtain ⟨middle, before⟩ := ih
    obtain ⟨last, after⟩ := step mentions middle
    refine ⟨last, ?_⟩
    rcases after with less | ⟨same, links⟩
    · rcases before with earlier | ⟨same, -⟩
      · exact .inl (Nat.lt_trans less earlier)
      · exact .inl (same ▸ less)
    · rw [same]
      rcases before with earlier | ⟨same', links'⟩
      · exact .inl earlier
      · exact .inr ⟨same', links.trans links'⟩

/-- A term that stands for something finite is not cyclic. -/
theorem Solution.not_cyclic {β : Var → D} (solution : bindings.Solution β) (sizes : Domain.Sizes D)
    (ends : WellFounded bindings.Linked) {term : Term} (finite : sizes.Finite (term.eval β)) :
    ¬bindings.Cyclic term := by
  rintro ⟨v, occurs, w, reaches, cycle⟩
  obtain ⟨own, -⟩ := Term.size_of_mem_occurrences sizes occurs finite
  have finite_w : sizes.Finite (β w) := by
    rcases Relation.reflTransGen_iff_eq_or_transGen.1 reaches with rfl | path
    · exact own
    · exact (solution.smaller sizes path own).1
  rcases (solution.smaller sizes cycle finite_w).2 with less | ⟨-, links⟩
  · exact Nat.lt_irrefl _ less
  · exact ends.transGen.irrefl.irrefl w links

/-! ### Substituting bindings -/

/-- What substituting bindings computes for a variable, with the variables on the path above it. -/
def applyVar (bindings : Bindings) (steps : Nat) (path : Std.TreeSet Var) (v : Var) :
    Except CyclicBinding Term :=
  match bindings.lookup? v with
  | none => .ok (.var v)
  | some bound =>
    if v ∈ path then .error ⟨v⟩
    else match steps with
      | 0 => .error ⟨v⟩
      | steps + 1 => bindings.applyWithin steps (path.insert v) bound

theorem applyWithin_eq (bindings : Bindings) (steps : Nat) (path : Std.TreeSet Var) (term : Term) :
    bindings.applyWithin steps path term = term.substM (bindings.applyVar steps path) := by
  rw [applyWithin]
  rfl

/-- A term without bound variables that stands for what another one does, whatever the solution. -/
structure Substituted (bindings : Bindings) (term result : Term) : Prop where
  unbound : ∀ v ∈ result.occurrences, bindings.lookup? v = none
  eval : ∀ {D : Type} [Domain D] (β : Var → D), bindings.Solution β → result.eval β = term.eval β

private theorem substituted_subst {term : Term} {σ : Var → Term}
    (each : ∀ v ∈ term.occurrences, bindings.Substituted (.var v) (σ v)) :
    bindings.Substituted term (term.subst σ) where
  unbound v occurs := by
    obtain ⟨w, inside, found⟩ := Term.mem_occurrences_subst.1 occurs
    exact (each w inside).unbound v found
  eval β solution := by
    rw [Term.eval_subst]
    apply Term.eval_congr
    intro v occurs
    rw [(each v occurs).eval β solution, Term.eval_var]

private theorem substituted_applyWithin {steps : Nat} {path : Std.TreeSet Var} {term result : Term}
    (ended : bindings.applyWithin steps path term = .ok result) :
    bindings.Substituted term result := by
  induction steps using Nat.strongRecOn generalizing path term result with
  | _ steps ih =>
    rw [applyWithin_eq] at ended
    obtain ⟨found, rfl⟩ := Term.substM_ok ended
    apply substituted_subst
    intro v occurs
    have made := found v occurs
    generalize Term.computed _ v = result at made ⊢
    unfold applyVar at made
    split at made
    · next unbound =>
      cases made
      exact ⟨by simpa using unbound, fun _ _ ↦ rfl⟩
    · next bound lookup =>
      split at made
      · cases made
      · cases steps with
        | zero => cases made
        | succ steps =>
          have below := ih steps (Nat.lt_succ_self steps) made
          refine ⟨below.unbound, fun β solution ↦ ?_⟩
          rw [below.eval β solution, Term.eval_var, solution v bound lookup]

/-- What substituting bindings gives. -/
theorem substituted_apply {term result : Term} (ended : bindings.apply term = .ok result) :
    bindings.Substituted term result := substituted_applyWithin ended

/-- Where bound terms have unbound variables only, each binding is substituted once. -/
theorem apply_of_flat {bindings : Bindings}
    (flat : ∀ v term, bindings.lookup? v = some term →
      ∀ w ∈ term.occurrences, bindings.lookup? w = none)
    (term : Term) :
    bindings.apply term = .ok (term.subst fun v ↦ (bindings.lookup? v).getD (.var v)) := by
  rw [apply, applyWithin_eq]
  refine Term.substM_eq_ok fun v _ ↦ ?_
  unfold applyVar
  cases found : bindings.lookup? v with
  | none => rfl
  | some bound =>
    have some_bound : 1 ≤ bindings.size :=
      bindings.length_le_size (List.nodup_singleton v) (by simp [found])
    obtain ⟨steps, size⟩ := Nat.exists_eq_add_of_le' some_bound
    have kept (path : Std.TreeSet Var) : bound.substM (bindings.applyVar steps path) =
      .ok bound := by
      rw [Term.substM_eq_ok fun w occurs ↦ (by simp [applyVar, flat v bound found w occurs] :
        bindings.applyVar steps path w = .ok (.var w)), Term.subst_self]
    simp [size, applyWithin_eq, kept]

/-- Substituting bindings fails at a variable that reaches itself: a path that enters every bound
variable once has none left to enter. -/
theorem loop_of_applyWithin {steps : Nat} {path : Std.TreeSet Var} {passed : List Var} {term : Term}
    (way : bindings.Passed passed steps) (same : ∀ v, v ∈ path ↔ v ∈ passed)
    (chain : ∀ p ∈ passed, ∀ v ∈ term.occurrences, TransGen bindings.Mentions p v) :
    Except.FailsOnly (fun error ↦ ∃ v ∈ term.occurrences,
      ReflTransGen bindings.Mentions v error.var ∧
      TransGen bindings.Mentions error.var error.var) (bindings.applyWithin steps path term) := by
  induction steps using Nat.strongRecOn generalizing path passed term with
  | _ steps ih =>
    rw [applyWithin_eq]
    apply Term.failsOnly_substM
    intro v occurs
    unfold applyVar
    split
    · nofun
    · next bound found =>
      split
      · next met =>
        rintro _ ⟨⟩
        exact ⟨v, occurs, .refl, chain v ((same v).1 met) v occurs⟩
      · next fresh =>
        obtain ⟨rest, rfl, further⟩ := way.next found (mt (same v).2 fresh)
        intro error failed
        have below (w : Var) : w ∈ path.insert v ↔ w ∈ v :: passed := by
          rw [Std.TreeSet.mem_insert, List.mem_cons, same, Std.LawfulEqCmp.compare_eq_iff_eq,
            eq_comm]
        have further_chain : ∀ p ∈ v :: passed, ∀ w ∈ bound.occurrences,
          TransGen bindings.Mentions p w := by
          intro p member w inside
          have last : bindings.Mentions v w := ⟨bound, found, inside⟩
          rcases List.mem_cons.1 member with rfl | earlier
          · exact .single last
          · exact (chain p earlier v occurs).tail last
        obtain ⟨w, inside, reaches, loop⟩ :=
          ih rest (Nat.lt_succ_self rest) further below further_chain error failed
        exact ⟨v, occurs, reaches.head ⟨bound, found, inside⟩, loop⟩

/-- The variable at which bindings cannot be substituted in a term is reached and reaches itself. -/
theorem loop_of_apply {term : Term} {error : CyclicBinding}
    (failed : bindings.apply term = .error error) :
    ∃ v ∈ term.occurrences, ReflTransGen bindings.Mentions v error.var ∧
      TransGen bindings.Mentions error.var error.var :=
  loop_of_applyWithin (passed_nil bindings) (by simp) nofun error failed

/-- A term that bindings cannot be substituted in is cyclic. -/
theorem cyclic_of_apply {term : Term} {error : CyclicBinding}
    (failed : bindings.apply term = .error error) : bindings.Cyclic term := by
  obtain ⟨v, occurs, reaches⟩ := loop_of_apply failed
  exact ⟨v, occurs, error.var, reaches⟩

/-! ### The occurs check -/

/-- Whether a variable reaches the target. -/
def reachesVar (bindings : Bindings) (target : Var) (steps : Nat) (v : Var) : Bool :=
  match bindings.lookup? v with
  | none => v = target
  | some bound =>
    match steps with
    | 0 => true
    | steps + 1 => bindings.reachesWithin target steps bound

theorem reachesWithin_eq (bindings : Bindings) (target : Var) (steps : Nat) (term : Term) :
    bindings.reachesWithin target steps term = term.anyVar (bindings.reachesVar target steps) := by
  rw [reachesWithin]
  rfl

/-- What the occurs check finds is reached, unless a variable reaches itself. -/
theorem reaches_of_reachesWithin {target : Var} {steps : Nat} {passed : List Var} {term : Term}
    (way : bindings.Passed passed steps)
    (chain : ∀ p ∈ passed, ∀ v ∈ term.occurrences, TransGen bindings.Mentions p v)
    (occurs : bindings.reachesWithin target steps term = true) :
    (∃ v ∈ term.occurrences, ReflTransGen bindings.Mentions v target) ∨ bindings.Cyclic term := by
  induction steps using Nat.strongRecOn generalizing passed term with
  | _ steps ih =>
    rw [reachesWithin_eq, Term.anyVar_iff] at occurs
    obtain ⟨v, inside, reached⟩ := occurs
    unfold reachesVar at reached
    split at reached
    · rw [decide_eq_true_eq] at reached
      exact .inl ⟨v, inside, reached ▸ .refl⟩
    · next bound found =>
      by_cases member : v ∈ passed
      · exact .inr ⟨v, inside, v, .refl, chain v member v inside⟩
      · obtain ⟨rest, rfl, further⟩ := way.next found member
        have step (w : Var) (below : w ∈ bound.occurrences) : bindings.Mentions v w :=
          ⟨bound, found, below⟩
        have chained : ∀ p ∈ v :: passed, ∀ w ∈ bound.occurrences,
          TransGen bindings.Mentions p w := by
          intro p member w below
          rcases List.mem_cons.1 member with rfl | earlier
          · exact .single (step w below)
          · exact (chain p earlier v inside).tail (step w below)
        rcases ih rest (Nat.lt_succ_self rest) further chained reached with
          ⟨w, below, reaches⟩ | cyclic
        · exact .inl ⟨v, inside, reaches.head (step w below)⟩
        · exact .inr (cyclic.of_bound inside found)

/-- Nothing finite meets a binding that the occurs check refuses. -/
theorem Solution.ne_of_occursIn [Sized D] {β : Var → D} (solution : bindings.Solution β)
    (ends : WellFounded bindings.Linked) {v : Var} {term : Term} (root : bindings.Root term)
    (other : term ≠ .var v) (occurs : bindings.occursIn v term = true) : β v ≠ term.eval β := by
  intro same
  let sizes := Domain.Sizes.ofSized D
  rcases reaches_of_reachesWithin (passed_nil bindings) nofun occurs with
    ⟨w, inside, reaches⟩ | cyclic
  · have first := (Term.size_of_mem_occurrences sizes inside (β := β) trivial).2
    rcases Relation.reflTransGen_iff_eq_or_transGen.1 reaches with rfl | path
    · rcases first with here | less
      · exact other here
      · rw [← same] at less
        exact Nat.lt_irrefl _ less
    · rcases first with rfl | less
      · obtain ⟨next, ⟨bound, found, -⟩, -⟩ := TransGen.head'_iff.1 path
        rw [root w rfl] at found
        cases found
      · rw [← same] at less
        rcases (solution.smaller sizes path trivial).2 with smaller | ⟨equal, -⟩
        · exact Nat.lt_irrefl _ (Nat.lt_trans less smaller)
        · rw [equal] at less
          exact Nat.lt_irrefl _ less
  · exact solution.not_cyclic sizes ends trivial cyclic

/-- A variable the occurs check does not find is not in what the term stands for. -/
theorem not_mem_of_reachesWithin {target : Var} {steps : Nat} {term : Term}
    (absent : bindings.reachesWithin target steps term = false) {σ : Var → Term}
    (solution : bindings.Solution σ) (own : ∀ v, bindings.lookup? v = none → σ v = .var v) :
    target ∉ (term.subst σ).occurrences := by
  induction steps using Nat.strongRecOn generalizing term with
  | _ steps ih =>
    rw [reachesWithin_eq, Bool.eq_false_iff, ne_eq, Term.anyVar_iff] at absent
    intro occurs
    obtain ⟨v, inside, found⟩ := Term.mem_occurrences_subst.1 occurs
    refine absent ⟨v, inside, ?_⟩
    unfold reachesVar
    split
    · next unbound => simpa [own v unbound, eq_comm] using found
    · next bound lookup =>
      cases steps with
      | zero => rfl
      | succ steps =>
        by_contra missed
        rw [solution v bound lookup, Term.eval_eq_subst] at found
        exact ih steps (Nat.lt_succ_self steps) (by simpa using missed) found

/-! ### Solutions -/

/-- Terms solve the bindings, and unbound variables stand for themselves. -/
def Solvable (bindings : Bindings) : Prop :=
  ∃ σ : Var → Term, bindings.Solution σ ∧ ∀ v, bindings.lookup? v = none → σ v = .var v

theorem solvable_empty : empty.Solvable :=
  ⟨.var, solution_empty _, fun _ _ ↦ rfl⟩

/-- A binding that the occurs check allows keeps bindings solvable. -/
theorem Solvable.bind (solvable : bindings.Solvable) {v : Var} (unbound : bindings.lookup? v = none)
    {term : Term} (absent : bindings.occursIn v term = false) :
    (bindings.bind v term).Solvable := by
  obtain ⟨σ, solution, own⟩ := solvable
  have apart := not_mem_of_reachesWithin absent solution own
  let τ := Function.update Term.var v (term.subst σ)
  have kept : (term.subst σ).subst τ = term.subst σ := by
    calc (term.subst σ).subst τ = (term.subst σ).subst .var := by
          apply Term.subst_congr
          intro w occurs
          apply Function.update_of_ne
          rintro rfl
          exact apart occurs
      _ = term.subst σ := Term.subst_self _
  have update (w : Var) (free : bindings.lookup? w = none) : (σ w).subst τ = τ w := by
    rw [own w free, Term.subst_var]
  refine ⟨fun w ↦ (σ w).subst τ, (solution_bind unbound).2 ⟨fun w bound found ↦ ?_, ?_⟩,
    fun w free ↦ ?_⟩
  · calc (σ w).subst τ = (bound.subst σ).subst τ := by rw [solution w bound found,
      Term.eval_eq_subst]
      _ = bound.eval fun w ↦ (σ w).subst τ := by rw [Term.subst_subst, Term.eval_eq_subst]
  · have new : (σ v).subst τ = term.subst σ := (update v unbound).trans (Function.update_self v _ _)
    rw [Term.eval_eq_subst, ← Term.subst_subst, kept]
    exact new
  · rw [lookup?_bind] at free
    split at free
    · cases free
    · next differs => exact (update w free).trans (Function.update_of_ne (Ne.symm differs) _ _)

/-- What is seen of a term once bindings are followed. -/
def view (bindings : Bindings) (term : Term) : Tree.View Term :=
  match bindings.resolve term with
  | .var v => .var v
  | .atom symbol => .atom symbol
  | .num value => .num value
  | .struct symbol args => .struct symbol args

/-- The tree that a variable unfolds to. -/
noncomputable def treeOf (bindings : Bindings) (v : Var) : Tree :=
  Tree.unfold bindings.view (.var v)

private theorem resolve_of_not_var (bindings : Bindings) {term : Term}
    (other : ∀ v, term ≠ .var v) :
    bindings.resolve term = term :=
  resolve_of_root fun v same ↦ absurd same (other v)

theorem unfold_eq_eval (bindings : Bindings) (term : Term) :
    Tree.unfold bindings.view term = term.eval bindings.treeOf := by
  induction term with
  | var v => rw [Term.eval_var, treeOf]
  | atom symbol =>
    rw [Tree.unfold_eq, view, resolve_of_not_var _ fun _ ↦ Term.noConfusion, Term.eval_atom]
  | num value =>
    rw [Tree.unfold_eq, view, resolve_of_not_var _ fun _ ↦ Term.noConfusion, Term.eval_num]
  | struct symbol args ih =>
    rw [Tree.unfold_eq, view, resolve_of_not_var _ fun _ ↦ Term.noConfusion, Term.eval_struct]
    exact congrArg (Domain.struct symbol) (List.map_congr_left ih)

/-- Trees solve all bindings whose links end. -/
theorem solution_treeOf (ends : WellFounded bindings.Linked) :
    bindings.Solution bindings.treeOf := by
  intro v term found
  rw [treeOf, ← unfold_eq_eval, Tree.unfold_eq, Tree.unfold_eq, view, view, resolve_var ends found]

/-- An unbound variable stands for itself. -/
theorem treeOf_unbound {v : Var} (unbound : bindings.lookup? v = none) :
    bindings.treeOf v = Tree.leaf v := by
  rw [treeOf, Tree.unfold_eq, view, resolve_of_root]
  rintro _ ⟨⟩
  exact unbound

/-- What substituting bindings in variables gives shows what the solutions have in common there. -/
theorem describes_apply (ends : WellFounded bindings.Linked) (vars : List Var) :
    Describes (fun trees ↦ ∃ β : Var → Tree, bindings.Solution β ∧ trees = vars.map β)
      (vars.map fun v ↦ (bindings.apply (.var v)).toOption) := by
  have substituted (v : Var) (term : Term)
    (found : (bindings.apply (.var v)).toOption = some term) :
      bindings.Substituted (.var v) term := by
    cases ended : bindings.apply (.var v) with
    | error error =>
      rw [ended] at found
      cases found
    | ok result =>
      rw [ended] at found
      cases found
      exact substituted_apply ended
  refine ⟨?_, ?_, ?_⟩
  · rintro _ ⟨β, solution, rfl⟩
    refine ⟨β, ?_⟩
    rw [List.forall₂_map_left_iff, List.forall₂_map_right_iff, List.forall₂_same]
    intro v _ term found
    rw [(substituted v term found).eval β solution, Term.eval_var]
  · have solution := solution_treeOf ends
    refine ⟨vars.map bindings.treeOf, ⟨_, solution, rfl⟩, ?_⟩
    rw [List.forall₂_map_left_iff, List.forall₂_map_right_iff, List.forall₂_same]
    intro v _ term found
    have made := substituted v term found
    calc bindings.treeOf v = (Term.var v).eval bindings.treeOf := (Term.eval_var _ _).symm
      _ = term.eval bindings.treeOf := (made.eval _ solution).symm
      _ = term.tree := Term.eval_congr fun w occurs ↦ treeOf_unbound (made.unbound w occurs)
  · rintro _ ⟨β, solution, rfl⟩
    rw [List.forall₂_map_left_iff, List.forall₂_map_right_iff, List.forall₂_same]
    intro v _ missing term same
    cases ended : bindings.apply (.var v) with
    | ok result =>
      rw [ended] at missing
      cases missing
    | error error =>
      refine solution.not_cyclic Tree.sizes ends ?_ (cyclic_of_apply ended)
      exact ⟨term, by rw [Term.eval_var, same]⟩

end Bindings
end HornMachine
