import HornMachine.Proofs.Bindings.Solution
import HornMachine.Proofs.Term.Pairs
import Mathlib.Tactic.Ring

/-!
# Unification of terms solves an equation

Main statements: a unification of terms that succeeds leaves bindings whose solutions are those of
the former bindings that give both terms one value (`solution_unify`); if it fails, no solution of
the bindings gives both terms one value (`ne_of_unify`). Without the occurs check this holds in
every domain, and with it in domains whose values have sizes.

`Move` says once what a unification can do one level down, and the statements above follow from it
by induction on the depth.
-/

namespace HornMachine

/-! ### Terms inside terms -/

namespace Term

mutual

/-- A term and the terms inside it. -/
def subterms : Term → List Term
  | .struct symbol args => .struct symbol args :: subtermsList args
  | term@(.atom _) | term@(.var _) | term@(.num _) => [term]

/-- The terms of a list and those inside them. -/
def subtermsList : List Term → List Term
  | [] => []
  | term :: terms => subterms term ++ subtermsList terms

end

private theorem subtermsList_eq_flatMap (terms : List Term) :
    subtermsList terms = terms.flatMap subterms := by
  induction terms with
  | nil => rfl
  | cons term terms ih => rw [subtermsList, ih, List.flatMap_cons]

private theorem mem_subterms_self (term : Term) : term ∈ term.subterms := by
  cases term <;> simp [subterms]

/-- Arguments of a term inside another one are inside it. -/
theorem arg_mem_subterms {symbol : Symbol} {args : List Term} {arg term : Term}
    (inside : .struct symbol args ∈ term.subterms) (member : arg ∈ args) : arg ∈ term.subterms := by
  induction term with
  | atom | var | num => simp [subterms] at inside
  | struct name terms ih =>
    rw [subterms, List.mem_cons, subtermsList_eq_flatMap, List.mem_flatMap] at inside ⊢
    rcases inside with same | ⟨term, among, below⟩
    · cases same
      exact .inr ⟨arg, member, mem_subterms_self arg⟩
    · exact .inr ⟨term, among, ih term among below⟩

private theorem length_subterms (term : Term) : term.subterms.length = term.size := by
  induction term with
  | atom | var | num => simp [subterms, size]
  | struct symbol args ih =>
    rw [subterms, size, List.length_cons]
    congr 1
    induction args with
    | nil => rfl
    | cons arg args rest =>
      obtain ⟨here, later⟩ := List.forall_mem_cons.1 ih
      rw [subtermsList, sizeList, List.length_append, here, rest later]

private theorem length_subtermsList (terms : List Term) :
    (subtermsList terms).length = sizeList terms := by
  induction terms with
  | nil => rfl
  | cons term terms ih => rw [subtermsList, sizeList, List.length_append, length_subterms, ih]

end Term

namespace Bindings

variable {D : Type} [Domain D]

/-- Members among which going to arguments and following bindings stays. -/
structure Covers (members : Finset Term) (bindings : Bindings) : Prop where
  args : ∀ {symbol : Symbol} {args : List Term}, .struct symbol args ∈ members →
    ∀ arg ∈ args, arg ∈ members
  bound : ∀ {v : Var} {term : Term}, bindings.lookup? v = some term → term ∈ members

theorem Covers.resolve {members : Finset Term} {bindings : Bindings}
    (covers : Covers members bindings)
    {term : Term} (member : term ∈ members) : bindings.resolve term ∈ members := by
  rw [Bindings.resolve]
  generalize bindings.size = steps
  induction steps generalizing term with
  | zero => rwa [resolveWithin_zero]
  | succ steps ih =>
    cases term with
    | atom | num | struct => exact member
    | var v =>
      rw [resolveWithin]
      cases found : bindings.lookup? v with
      | none => exact member
      | some next => exact ih (covers.bound found)

theorem Covers.bind {members : Finset Term} {bindings : Bindings} (covers : Covers members bindings)
    (v : Var) {term : Term} (member : term ∈ members) : Covers members (bindings.bind v term) where
  args := covers.args
  bound {w other} found := by
    rw [lookup?_bind] at found
    split at found
    · cases found
      exact member
    · exact covers.bound found

/-- The terms inside two terms and inside the terms of bound variables. -/
def reachable (bindings : Bindings) (a b : Term) : Finset Term :=
  (a.subterms ++ b.subterms ++ Term.subtermsList (bindings.entries.map Prod.snd)).toFinset

theorem covers_reachable (bindings : Bindings) (a b : Term) :
    Covers (bindings.reachable a b) bindings where
  args {symbol args} inside arg member := by
    simp only [reachable, List.mem_toFinset, List.mem_append, Term.subtermsList_eq_flatMap,
      List.mem_flatMap] at inside ⊢
    rcases inside with (left | right) | ⟨term, among, below⟩
    · exact .inl (.inl (Term.arg_mem_subterms left member))
    · exact .inl (.inr (Term.arg_mem_subterms right member))
    · exact .inr ⟨term, among, Term.arg_mem_subterms below member⟩
  bound {v term} found := by
    rw [lookup?_eq] at found
    simp only [reachable, List.mem_toFinset, List.mem_append, Term.subtermsList_eq_flatMap,
      List.mem_flatMap]
    obtain ⟨before, after, split, -⟩ := List.lookup_eq_some_iff.1 found
    refine .inr ⟨term, ?_, term.mem_subterms_self⟩
    rw [split]
    simp

theorem left_mem_reachable (bindings : Bindings) (a b : Term) : a ∈ bindings.reachable a b := by
  simp [reachable, a.mem_subterms_self]

theorem right_mem_reachable (bindings : Bindings) (a b : Term) : b ∈ bindings.reachable a b := by
  simp [reachable, b.mem_subterms_self]

/-- The depth bound exceeds the number of pairs of terms that can be met. -/
theorem card_reachable (bindings : Bindings) (a b : Term) :
    (bindings.reachable a b).card * (bindings.reachable a b).card + (bindings.reachable a b).card <
      bindings.depthBound a b := by
  have few : (bindings.reachable a b).card ≤
      a.size + b.size + Term.sizeList (bindings.entries.map Prod.snd) := by
    have short := List.toFinset_card_le
      (a.subterms ++ b.subterms ++ Term.subtermsList (bindings.entries.map Prod.snd))
    rwa [List.length_append, List.length_append, Term.length_subterms, Term.length_subterms,
      Term.length_subtermsList] at short
  unfold depthBound
  generalize (bindings.reachable a b).card = count at few ⊢
  generalize a.size + b.size + Term.sizeList (bindings.entries.map Prod.snd) = total at few ⊢
  calc count * count + count ≤ total * total + total := Nat.add_le_add (Nat.mul_le_mul few few) few
    _ < (total + 1) * (total + 1) := by ring_nf; omega

/-! ### One level of a unification -/

/-- A unification once the arguments of two structures are taken up. -/
def Unifying.taken (check : OccursCheck) (left right : Term) (state : Unifying) : Unifying :=
  match check with
  | .on => state
  | .off => { state with seen := state.seen.insert (left, right) }

/-- A binding that unification makes: of an unbound variable to another term that is not bound, in
which, under the occurs check, the variable does not occur. -/
structure Target (check : OccursCheck) (bindings : Bindings) (v : Var) (term : Term) : Prop where
  unbound : bindings.lookup? v = none
  root : bindings.Root term
  other : term ≠ .var v
  checked : check = .on → bindings.occursIn v term = false

/-- What a unification of two terms can do when it looks at their roots. -/
inductive Move (D : Type) [Domain D] (check : OccursCheck) (depth : Nat) (state : Unifying)
    (a b : Term) :
    Except Obstacle (Unit × Unifying) → Prop
  | settled (same : ∀ β : Var → D, state.bindings.Solution β → a.eval β = b.eval β) :
    Move D check depth state a b (.ok ((), state))
  | met (left right : Term) (member : (left, right) ∈ state.seen)
    (same : ∀ β : Var → D, state.bindings.Solution β →
      a.eval β = left.eval β ∧ b.eval β = right.eval β) :
    Move D check depth state a b (.ok ((), state))
  | clash (differ : check.Decides D → ∀ β : Var → D, state.bindings.Solution β →
    a.eval β ≠ b.eval β) :
    Move D check depth state a b (.error .clash)
  | bind (v : Var) (term : Term) (admissible : Target check state.bindings v term)
    (known : ∀ members, Covers members state.bindings → a ∈ members → b ∈ members → term ∈ members)
    (same : ∀ β : Var → D, state.bindings.Solution β → (a.eval β = b.eval β ↔ β v = term.eval β)) :
    Move D check depth state a b (.ok ((), { state with bindings := state.bindings.bind v term }))
  | descend (symbol : Symbol) (xs ys : List Term) (length : xs.length = ys.length)
    (at_left : state.bindings.resolve a = .struct symbol xs)
    (at_right : state.bindings.resolve b = .struct symbol ys)
    (fresh : check = .off → (.struct symbol xs, .struct symbol ys) ∉ state.seen)
    (result : Except Obstacle (Unit × Unifying))
    (run : ((xs.zip ys).forM fun pair ↦ unifyWithin check depth pair.1 pair.2).run
      (state.taken check (.struct symbol xs) (.struct symbol ys)) = result) :
    Move D check depth state a b result

theorem run_resolved_bind (term : Term) (next : Term → Unification Unit) (state : Unifying) :
    (Unification.resolved term >>= next).run state =
    (next (state.bindings.resolve term)).run state := rfl

theorem run_takeUp (check : OccursCheck) (left right : Term) (state : Unifying) :
    (Unification.takeUp check left right : Unification Bool).run state =
      if check = .off ∧ (left, right) ∈ state.seen then .ok (false, state)
      else .ok (true, state.taken check left right) := by
  cases check with
  | on => rfl
  | off =>
    by_cases met : (left, right) ∈ state.seen <;>
      simp [Unification.takeUp, met, Unifying.taken] <;> rfl

section Move

variable {check : OccursCheck} {depth : Nat} {state : Unifying} {a b : Term}

theorem move_bindChecked (ends : WellFounded state.bindings.Linked) {v : Var} {term : Term}
    (unbound : state.bindings.lookup? v = none) (root : state.bindings.Root term)
    (other : term ≠ .var v)
    (known : ∀ members, Covers members state.bindings → a ∈ members → b ∈ members → term ∈ members)
    (same : ∀ β : Var → D, state.bindings.Solution β → (a.eval β = b.eval β ↔ β v = term.eval β)) :
    Move D check depth state a b ((Unification.bindChecked check v term : Unification Unit).run
      state) := by
  cases check with
  | off => exact .bind v term ⟨unbound, root, other, nofun⟩ known same
  | on =>
    cases occurs : state.bindings.occursIn v term with
    | true =>
      have stops : (Unification.bindChecked .on v term : Unification Unit).run state =
        .error .clash := by
        simp [Unification.bindChecked, occurs]
        rfl
      rw [stops]
      refine .clash fun decides β solution equal ↦ ?_
      obtain ⟨_⟩ := decides rfl
      exact solution.ne_of_occursIn ends root other occurs ((same β solution).1 equal)
    | false =>
      have binds : (Unification.bindChecked .on v term : Unification Unit).run state =
          .ok ((), { state with bindings := state.bindings.bind v term }) := by
        simp [Unification.bindChecked, occurs]
        rfl
      rw [binds]
      exact .bind v term ⟨unbound, root, other, fun _ ↦ occurs⟩ known same

/-- Two structures clash, were met before or have arguments to go on with. -/
theorem move_struct {f g : Symbol} {xs ys : List Term}
    (at_left : state.bindings.resolve a = .struct f xs)
    (at_right : state.bindings.resolve b = .struct g ys)
    (roots : ∀ β : Var → D, state.bindings.Solution β →
      (Term.struct f xs).eval β = a.eval β ∧ (Term.struct g ys).eval β = b.eval β) :
    Move D check depth state a b
      ((if f ≠ g ∨ xs.length ≠ ys.length then throw .clash
        else do
          if ← Unification.takeUp check (.struct f xs) (.struct g ys) then
            (xs.zip ys).forM fun pair ↦ unifyWithin check depth pair.1 pair.2 :
          Unification Unit).run state) := by
  by_cases differ : f ≠ g ∨ xs.length ≠ ys.length
  · rw [if_pos differ]
    refine .clash fun _ β solution equal ↦ ?_
    obtain ⟨to_left, to_right⟩ := roots β solution
    rw [← to_left, ← to_right, Term.eval_struct, Term.eval_struct, Domain.struct_inj] at equal
    have lengths := congrArg List.length equal.2
    rw [List.length_map, List.length_map] at lengths
    rcases differ with symbols | widths
    · exact symbols equal.1
    · exact widths lengths
  · rw [if_neg differ]
    rw [not_or, not_not, not_not] at differ
    obtain ⟨rfl, length⟩ := differ
    rw [StateT.run_bind, run_takeUp]
    by_cases met : check = .off ∧ (.struct f xs, .struct f ys) ∈ state.seen
    · rw [if_pos met]
      exact .met _ _ met.2 fun β solution ↦ ⟨(roots β solution).1.symm, (roots β solution).2.symm⟩
    · rw [if_neg met]
      exact .descend f xs ys length at_left at_right (fun off seen ↦ met ⟨off, seen⟩) _ rfl

/-- What a unification does at each level. -/
theorem move_unifyWithin (D : Type) [Domain D] (check : OccursCheck) (depth : Nat)
    {state : Unifying} (ends : WellFounded state.bindings.Linked) (a b : Term) :
    Move D check depth state a b ((unifyWithin check (depth + 1) a b).run state) := by
  have root_a := root_resolve ends a
  have root_b := root_resolve ends b
  have roots : ∀ β : Var → D, state.bindings.Solution β →
      (state.bindings.resolve a).eval β = a.eval β ∧ (state.bindings.resolve b).eval β = b.eval β :=
    fun β solution ↦ ⟨solution.eval_resolve a, solution.eval_resolve b⟩
  have known_a (members : Finset Term) (covers : Covers members state.bindings)
    (inside : a ∈ members)
      (_ : b ∈ members) : state.bindings.resolve a ∈ members := covers.resolve inside
  have known_b (members : Finset Term) (covers : Covers members state.bindings) (_ : a ∈ members)
      (inside : b ∈ members) : state.bindings.resolve b ∈ members := covers.resolve inside
  have across : ∀ β : Var → D, state.bindings.Solution β → (a.eval β = b.eval β ↔
      (state.bindings.resolve a).eval β = (state.bindings.resolve b).eval β) := by
    intro β solution
    rw [(roots β solution).1, (roots β solution).2]
  have clash (differ : ∀ β : Var → D,
      (state.bindings.resolve a).eval β ≠ (state.bindings.resolve b).eval β) :
      Move D check depth state a b (.error .clash) :=
    .clash fun _ β solution equal ↦ differ β ((across β solution).1 equal)
  have settled (same : state.bindings.resolve a = state.bindings.resolve b) :
      Move D check depth state a b (.ok ((), state)) :=
    .settled fun β solution ↦ (across β solution).2 (by rw [same])
  rw [unifyWithin, Unification.attempt, run_resolved_bind, run_resolved_bind]
  cases left : state.bindings.resolve a with
  | var x =>
    rw [left] at root_a known_a across settled
    cases right : state.bindings.resolve b with
    | var y =>
      rw [right] at root_b known_b across settled
      by_cases same : x = y
      · simp only [same, if_true]
        exact settled (by rw [same])
      · simp only [same, if_false]
        exact move_bindChecked ends (root_a x rfl) root_b (by simpa using Ne.symm same)
          known_b across
    | atom _ | num _ | struct _ _ =>
      rw [right] at root_b known_b across
      exact move_bindChecked ends (root_a x rfl) root_b (by simp) known_b across
  | atom p =>
    rw [left] at root_a known_a across settled clash
    cases right : state.bindings.resolve b with
    | var y =>
      rw [right] at root_b across
      exact move_bindChecked ends (root_b y rfl) root_a (by simp) known_a fun β solution ↦
        (across β solution).trans eq_comm
    | atom q =>
      rw [right] at settled clash
      by_cases same : p = q
      · simp only [same, if_true]
        exact settled (by rw [same])
      · simp only [same, if_false]
        exact clash fun β ↦ by simpa using same
    | num _ | struct _ _ =>
      rw [right] at clash
      exact clash fun β ↦ by simp
  | num m =>
    rw [left] at root_a known_a across settled clash
    cases right : state.bindings.resolve b with
    | var y =>
      rw [right] at root_b across
      exact move_bindChecked ends (root_b y rfl) root_a (by simp) known_a fun β solution ↦
        (across β solution).trans eq_comm
    | num n =>
      rw [right] at settled clash
      by_cases same : m = n
      · simp only [same, if_true]
        exact settled (by rw [same])
      · simp only [same, if_false]
        exact clash fun β ↦ by simpa using same
    | atom _ | struct _ _ =>
      rw [right] at clash
      exact clash fun β ↦ by simp
  | struct f xs =>
    rw [left] at root_a known_a across clash roots
    cases right : state.bindings.resolve b with
    | var y =>
      rw [right] at root_b across
      exact move_bindChecked ends (root_b y rfl) root_a (by simp) known_a fun β solution ↦
        (across β solution).trans eq_comm
    | struct g ys =>
      rw [right] at roots
      exact move_struct left right roots
    | atom _ | num _ =>
      rw [right] at clash
      exact clash fun β ↦ by simp

end Move

/-! ### Bindings made on the way -/

/-- Bindings that others lead to by binding variables where unification does. -/
inductive Extends (check : OccursCheck) (bindings : Bindings) : Bindings → Prop
  | refl : Extends check bindings bindings
  | step {later : Bindings} (before : Extends check bindings later) {v : Var} {term : Term}
    (admissible : Target check later v term) : Extends check bindings (later.bind v term)

namespace Extends

variable {check : OccursCheck} {bindings later last : Bindings}

theorem trans (one : Extends check bindings later) (two : Extends check later last) :
    Extends check bindings last := by
  induction two with
  | refl => exact one
  | step _ admissible ih => exact .step ih admissible

/-- Links between variables still end. -/
theorem linksEnd (grown : Extends check bindings later) (ends : WellFounded bindings.Linked) :
    WellFounded later.Linked := by
  induction grown with
  | refl => exact ends
  | step _ admissible ih => exact linksEnd_bind ih admissible.root admissible.other

/-- No equation is lost. -/
theorem solution (grown : Extends check bindings later) {β : Var → D}
    (solution : later.Solution β) :
    bindings.Solution β := by
  induction grown with
  | refl => exact solution
  | step _ admissible ih => exact ih ((solution_bind admissible.unbound).1 solution).1

/-- Bindings made under the occurs check keep bindings solvable. -/
theorem solvable (grown : Extends .on bindings later) (solvable : bindings.Solvable) :
    later.Solvable := by
  induction grown with
  | refl => exact solvable
  | step _ admissible ih => exact ih.bind admissible.unbound (admissible.checked rfl)

end Extends

/-! ### Success -/

variable {check : OccursCheck}

/-- A later state of a unification: bindings were added, and pairs that were taken up since lead to
pairs taken up. -/
structure Unifying.Leads (D : Type) [Domain D] (check : OccursCheck) (state later : Unifying) :
    Prop where
  grown : Extends check state.bindings later.bindings
  seen : ∀ pair ∈ state.seen, pair ∈ later.seen
  expanded : ∀ β : Var → D, later.bindings.Solution β → ∀ left right, (left, right) ∈ later.seen →
    (left, right) ∉ state.seen → Expanded (Term.eval β) later.seen left right

theorem Unifying.Leads.refl (state : Unifying) : state.Leads D check state :=
  ⟨.refl, fun _ member ↦ member, fun _ _ _ _ member fresh ↦ absurd member fresh⟩

theorem Unifying.Leads.trans {first second third : Unifying} (one : first.Leads D check second)
    (two : second.Leads D check third) : first.Leads D check third := by
  refine ⟨one.grown.trans two.grown, fun pair member ↦ two.seen pair (one.seen pair member),
    fun β solution left right member fresh ↦ ?_⟩
  by_cases older : (left, right) ∈ second.seen
  · exact (one.expanded β (two.grown.solution solution) left right older fresh).mono two.seen
  · exact two.expanded β solution left right member older

theorem run_forM_cons (run : Term × Term → Unification Unit) (pair : Term × Term)
    (pairs : List (Term × Term)) (state : Unifying) :
    ((pair :: pairs).forM run).run state =
      (run pair).run state >>= fun result ↦ (pairs.forM run).run result.2 := rfl

/-- Unifying pairs one after another leads on, if unifying each of them does. -/
theorem leads_forM {run : Term × Term → Unification Unit} {pairs : List (Term × Term)}
    (each : ∀ pair ∈ pairs, ∀ state later : Unifying, WellFounded state.bindings.Linked →
      (run pair).run state = .ok ((), later) → state.Leads D check later ∧
        ∀ β : Var → D, later.bindings.Solution β → Equated (Term.eval β) later.seen pair.1 pair.2)
    {state later : Unifying} (ends : WellFounded state.bindings.Linked)
    (ended : (pairs.forM run).run state = .ok ((), later)) :
    state.Leads D check later ∧ ∀ pair ∈ pairs, ∀ β : Var → D, later.bindings.Solution β →
      Equated (Term.eval β) later.seen pair.1 pair.2 := by
  induction pairs generalizing state with
  | nil =>
    cases ended
    exact ⟨.refl _, by simp⟩
  | cons pair pairs ih =>
    rw [run_forM_cons] at ended
    obtain ⟨⟨⟨⟩, next⟩, first, rest⟩ := Except.bind_eq_ok.1 ended
    obtain ⟨one, equated⟩ := each pair List.mem_cons_self _ _ ends first
    obtain ⟨two, others⟩ := ih (fun other member ↦ each other (List.mem_cons_of_mem _ member))
      (one.grown.linksEnd ends) rest
    refine ⟨one.trans two, fun other member β solution ↦ ?_⟩
    rcases List.mem_cons.1 member with rfl | later_pair
    · exact (equated β (two.grown.solution solution)).mono two.seen
    · exact others other later_pair β solution

@[simp]
theorem bindings_taken (check : OccursCheck) (left right : Term) (state : Unifying) :
    (state.taken check left right).bindings = state.bindings := by
  cases check <;> rfl

theorem mem_seen_taken {left right : Term} {state : Unifying} {pair : Term × Term} :
    pair ∈ (state.taken check left right).seen ↔
      pair ∈ state.seen ∨ (check = .off ∧ pair = (left, right)) := by
  cases check with
  | on => simp [Unifying.taken]
  | off =>
    rw [Unifying.taken, Std.TreeSet.mem_insert, Std.LawfulEqCmp.compare_eq_iff_eq, or_comm,
      eq_comm (b := pair)]
    simp only [true_and]

/-- A unification that succeeds leaves bindings whose solutions equate the two terms, given that
they equate the pairs it has met. -/
theorem leads_unifyWithin {depth : Nat} {state later : Unifying} {a b : Term}
    (ends : WellFounded state.bindings.Linked)
    (ended : (unifyWithin check depth a b).run state = .ok ((), later)) :
    state.Leads D check later ∧
      ∀ β : Var → D, later.bindings.Solution β → Equated (Term.eval β) later.seen a b := by
  induction depth generalizing state later a b with
  | zero => cases ended
  | succ depth ih =>
    have move := move_unifyWithin D check depth ends a b
    rw [ended] at move
    cases move with
    | settled same => exact ⟨.refl _, fun β solution ↦ .same (same β solution)⟩
    | met left right member same =>
      refine ⟨.refl _, fun β solution ↦ ?_⟩
      exact .met member (same β solution).1 (same β solution).2
    | bind v term admissible _ same =>
      refine ⟨⟨.step .refl admissible, fun _ member ↦ member,
        fun _ _ _ _ member fresh ↦ absurd member fresh⟩, fun β solution ↦ ?_⟩
      obtain ⟨before, bound⟩ := (solution_bind admissible.unbound).1 solution
      exact .same ((same β before).2 bound)
    | descend symbol xs ys length at_left at_right _ _ run =>
      have ends_taken : WellFounded
          (state.taken check (.struct symbol xs) (.struct symbol ys)).bindings.Linked := by
        rwa [bindings_taken]
      obtain ⟨leads, args⟩ := leads_forM (fun _ _ _ _ ends ended ↦ ih ends ended) ends_taken run
      have grown := leads.grown
      rw [bindings_taken] at grown
      refine ⟨⟨grown, fun pair member ↦ leads.seen pair (mem_seen_taken.2 (.inl member)),
        fun β solution l r member fresh ↦ ?_⟩, fun β solution ↦ ?_⟩
      · by_cases taken : (l, r) ∈ (state.taken check (.struct symbol xs) (.struct symbol ys)).seen
        · obtain known | ⟨-, here⟩ := mem_seen_taken.1 taken
          · exact absurd known fresh
          · cases here
            exact ⟨symbol, xs, ys, length, Term.eval_struct _ _ _, Term.eval_struct _ _ _,
              fun pair member ↦ args pair member β solution⟩
        · exact leads.expanded β solution l r member taken
      · have before := grown.solution solution
        have to_left := before.eval_resolve a
        have to_right := before.eval_resolve b
        rw [at_left, Term.eval_struct] at to_left
        rw [at_right, Term.eval_struct] at to_right
        exact .args length to_left.symm to_right.symm fun pair member ↦ args pair member β solution

/-! ### Failure -/

/-- A unification has not gone against values of the variables: they meet the bindings, and the
terms of bound variables are among given ones. -/
structure Unifying.Good (β : Var → D) (members : Finset Term) (state : Unifying) : Prop where
  solution : state.bindings.Solution β
  ends : WellFounded state.bindings.Linked
  covers : Covers members state.bindings

/-- A unification that does not go against the values: it ends well, with all pairs taken up before.
It may fail only if it is not `exact`. -/
def Agrees (exact : Prop) (β : Var → D) (members : Finset Term) (state : Unifying) :
    Except Obstacle (Unit × Unifying) → Prop
  | .ok ((), later) => later.Good β members ∧ ∀ pair ∈ state.seen, pair ∈ later.seen
  | .error _ => ¬exact

theorem Agrees.of_later {exact : Prop} {β : Var → D} {members : Finset Term}
    {state later : Unifying}
    {result : Except Obstacle (Unit × Unifying)} (agrees : Agrees exact β members later result)
    (kept : ∀ pair ∈ state.seen, pair ∈ later.seen) : Agrees exact β members state result := by
  cases result with
  | error obstacle => exact agrees
  | ok last => exact ⟨agrees.1, fun pair member ↦ agrees.2 pair (kept pair member)⟩

theorem agrees_forM {exact : Prop} {β : Var → D} {members : Finset Term}
    {run : Term × Term → Unification Unit} {pairs : List (Term × Term)} {state : Unifying}
    (each : ∀ pair ∈ pairs, ∀ next : Unifying, next.Good β members →
      (∀ old ∈ state.seen, old ∈ next.seen) → Agrees exact β members next ((run pair).run next))
    (good : state.Good β members) : Agrees exact β members state ((pairs.forM run).run state) := by
  induction pairs generalizing state with
  | nil => exact ⟨good, fun _ member ↦ member⟩
  | cons pair pairs ih =>
    have first := each pair List.mem_cons_self state good fun _ member ↦ member
    rw [run_forM_cons]
    cases ended : (run pair).run state with
    | error obstacle =>
      rw [ended] at first
      exact first
    | ok result =>
      rw [ended] at first
      obtain ⟨next_good, kept⟩ := first
      refine Agrees.of_later (ih (fun other member next good seen ↦ ?_) next_good) kept
      exact each other (List.mem_cons_of_mem _ member) next good fun old member ↦
        seen old (kept old member)

/-- A depth that is enough, whatever is met on the way down: it is more than none, and going down to
the arguments of a structure leaves enough. -/
structure Ample (check : OccursCheck) (β : Var → D) (members : Finset Term)
    (enough : Nat → Unifying → Term → Prop) : Prop where
  pos : ∀ state a, ¬enough 0 state a
  below : ∀ {depth : Nat} {state later : Unifying} {a : Term} {symbol : Symbol} {xs ys : List Term},
    enough (depth + 1) state a → a.eval β = (Term.struct symbol xs).eval β →
    .struct symbol xs ∈ members → .struct symbol ys ∈ members →
    (check = .off → (.struct symbol xs, .struct symbol ys) ∉ state.seen) →
    (∀ pair ∈ (state.taken check (.struct symbol xs) (.struct symbol ys)).seen, pair ∈ later.seen) →
    ∀ arg ∈ xs, enough depth later arg

/-- A unification goes with a solution of the bindings that gives both terms one value. It succeeds
if the domain has what the occurs check asks for and the depth is enough. -/
theorem agrees_unifyWithin {β : Var → D} {members : Finset Term}
    {enough : Nat → Unifying → Term → Prop} (ample : check.Decides D → Ample check β members enough)
    {depth : Nat} {state : Unifying} {a b : Term} (good : state.Good β members)
    (a_inside : a ∈ members) (b_inside : b ∈ members) (same : a.eval β = b.eval β)
    (deep : check.Decides D → enough depth state a) :
    Agrees (check.Decides D) β members state ((unifyWithin check depth a b).run state) := by
  induction depth generalizing state a b with
  | zero => exact fun decides ↦ (ample decides).pos state a (deep decides)
  | succ depth ih =>
    generalize ended : (unifyWithin check (depth + 1) a b).run state = result
    have move := move_unifyWithin D check depth good.ends a b
    rw [ended] at move
    cases move with
    | settled _ => exact ⟨good, fun _ member ↦ member⟩
    | met _ _ _ _ => exact ⟨good, fun _ member ↦ member⟩
    | clash differ => exact fun decides ↦ differ decides β good.solution same
    | bind v term admissible known across =>
      refine ⟨⟨?_, ?_, ?_⟩, fun _ member ↦ member⟩
      · exact (solution_bind admissible.unbound).2 ⟨good.solution, (across β good.solution).1 same⟩
      · exact linksEnd_bind good.ends admissible.root admissible.other
      · exact good.covers.bind v (known members good.covers a_inside b_inside)
    | descend symbol xs ys length at_left at_right fresh _ run =>
      rw [← run]
      have to_left := good.solution.eval_resolve a
      have to_right := good.solution.eval_resolve b
      have left_inside := good.covers.resolve a_inside
      have right_inside := good.covers.resolve b_inside
      rw [at_left] at to_left left_inside
      rw [at_right] at to_right right_inside
      have args : xs.map (Term.eval β) = ys.map (Term.eval β) := by
        have whole : (Term.struct symbol xs).eval β = (Term.struct symbol ys).eval β := by
          rw [to_left, to_right, same]
        simpa using whole
      have taken : (state.taken check (.struct symbol xs) (.struct symbol ys)).Good β members := by
        refine ⟨?_, ?_, ?_⟩
        · rw [bindings_taken]
          exact good.solution
        · rw [bindings_taken]
          exact good.ends
        · rw [bindings_taken]
          exact good.covers
      refine Agrees.of_later (agrees_forM (fun pair member next next_good seen ↦ ?_) taken)
        fun pair member ↦ mem_seen_taken.2 (.inl member)
      obtain ⟨left_arg, right_arg⟩ := List.of_mem_zip member
      exact ih next_good (good.covers.args left_inside _ left_arg)
        (good.covers.args right_inside _ right_arg) (Term.eq_of_mem_zip args member) fun decides ↦
          (ample decides).below (deep decides) to_left.symm left_inside right_inside fresh
            seen _ left_arg

/-- With the occurs check, the number of members that stand for no more bounds the depth: going down
to an argument, it drops by the structure that is left. -/
theorem ample_count [Sized D] (β : Var → D) (members : Finset Term) : Ample .on β members
    fun depth _ a ↦
      (Domain.Sizes.ofSized D).count members (Term.eval β) (Sized.size (a.eval β)) < depth where
  pos _ _ := Nat.not_lt_zero _
  below {depth state later a symbol xs ys} deep same left_inside _ _ _ arg member := by
    have smaller : Sized.size (arg.eval β) < Sized.size ((Term.struct symbol xs).eval β) := by
      rw [Term.eval_struct]
      exact Sized.size_lt (List.mem_map_of_mem member)
    have drop := (Domain.Sizes.ofSized D).count_lt left_inside trivial smaller
    rw [same] at deep
    exact Nat.lt_of_lt_of_le drop (Nat.le_of_lt_succ deep)

/-- Without it, the number of pairs not taken up yet does. -/
theorem ample_seenCount (β : Var → D) (members : Finset Term) : Ample .off β members
    fun depth state _ ↦ members.card * members.card < depth + seenCount members state.seen where
  pos state _ deep := by
    have few := seenCount_le members state.seen
    omega
  below {depth state later a symbol xs ys} deep _ left_inside right_inside fresh seen _ _ := by
    have more := seenCount_lt (fun pair member ↦ seen pair (mem_seen_taken.2 (.inl member)))
      (fresh rfl) (seen _ (mem_seen_taken.2 (.inr ⟨rfl, rfl⟩))) left_inside right_inside
    omega

/-! ### Unification of two terms -/

variable {bindings later : Bindings} {a b : Term}

theorem agrees_unify (check : OccursCheck) (ends : WellFounded bindings.Linked) {β : Var → D}
    (solution : bindings.Solution β) (same : a.eval β = b.eval β) :
    Agrees (check.Decides D) β (bindings.reachable a b) { bindings }
      ((unifyWithin check (bindings.depthBound a b) a b).run { bindings }) := by
  have bound := card_reachable bindings a b
  have good : Unifying.Good β (bindings.reachable a b) { bindings } :=
    ⟨solution, ends, covers_reachable bindings a b⟩
  have a_inside := left_mem_reachable bindings a b
  have b_inside := right_mem_reachable bindings a b
  cases check with
  | off =>
    exact agrees_unifyWithin (fun _ ↦ ample_seenCount β _) good a_inside b_inside same
      fun _ ↦ Nat.lt_of_le_of_lt (Nat.le_add_right _ _)
        (Nat.lt_of_lt_of_le bound (Nat.le_add_right _ _))
  | on =>
    by_cases sized : Nonempty (Sized D)
    · obtain ⟨_⟩ := sized
      have few := (Domain.Sizes.ofSized D).count_le (bindings.reachable a b) (Term.eval β)
        (Sized.size (a.eval β))
      exact agrees_unifyWithin (fun _ ↦ ample_count β _) good a_inside b_inside same
        fun _ ↦ Nat.lt_of_le_of_lt few (by omega)
    · have never : OccursCheck.Decides .on D →
        Ample .on β (bindings.reachable a b) fun _ _ _ ↦ True :=
        fun decides ↦ absurd (decides rfl) sized
      exact agrees_unifyWithin never good a_inside b_inside same fun _ ↦ trivial

/-- Unification adds bindings. -/
theorem extends_unify (ends : WellFounded bindings.Linked)
    (ended : bindings.unify check a b = some later) : Extends check bindings later := by
  unfold unify at ended
  split at ended
  · next state run =>
    cases ended
    exact (leads_unifyWithin (D := Term) ends run).1.grown
  · cases ended

/-- Successful unification keeps exactly the solutions that give both terms one value. -/
theorem solution_unify (ends : WellFounded bindings.Linked)
    (ended : bindings.unify check a b = some later) (β : Var → D) :
    later.Solution β ↔ bindings.Solution β ∧ a.eval β = b.eval β := by
  unfold unify at ended
  split at ended
  · next state run =>
    cases ended
    constructor
    · intro solution
      obtain ⟨leads, equated⟩ := leads_unifyWithin (D := D) ends run
      refine ⟨leads.grown.solution solution, (equated β solution).eq fun left right member ↦ ?_⟩
      exact leads.expanded β solution left right member (by simp)
    · rintro ⟨solution, same⟩
      have agrees := agrees_unify check ends solution same
      rw [run] at agrees
      exact agrees.1.solution
  · cases ended

/-- If unification fails, no solution gives both terms one value. -/
theorem ne_of_unify (decides : check.Decides D) (ends : WellFounded bindings.Linked)
    (ended : bindings.unify check a b = none) {β : Var → D} (solution : bindings.Solution β) :
    a.eval β ≠ b.eval β := by
  intro same
  have agrees := agrees_unify check ends solution same
  unfold unify at ended
  split at ended
  · cases ended
  · next failed =>
    rw [failed] at agrees
    exact agrees decides

end Bindings
end HornMachine
