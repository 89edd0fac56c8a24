import HornMachine.Proofs.Bindings.MostGeneral

/-!
# What the occurs check removes

Without the occurs check, unification leaves a pair of structures that it has met before; with the
check, it goes through the pair once more. Where bindings come out acyclic, this makes no
difference. Terms have sizes, so that a pair is not met again below itself: it was gone through by
then, both structures stand for the same, and going through them again binds nothing. Nor does the
check refuse any binding that is made.

Main statement: with acyclic bindings, unification under the occurs check gives what it gives
without, if that is acyclic, and fails otherwise (`unify_on_eq_some_iff`).
-/

namespace HornMachine.Bindings

variable {check : OccursCheck} {bindings later : Bindings} {a b : Term} {depth : Nat}

/-! ### One level, whatever the check -/

/-- What is to be done about two terms that are not bound variables. -/
inductive Demand where
  | nothing
  | refusal
  | binding (v : Var) (term : Term)
  | arguments (symbol : Symbol) (xs ys : List Term)

/-- What is to be done about two terms. -/
def demand : Term → Term → Demand
  | .var x, .var y => if x = y then .nothing else .binding x (.var y)
  | .var x, right => .binding x right
  | left, .var y => .binding y left
  | .atom p, .atom q => if p = q then .nothing else .refusal
  | .num m, .num n => if m = n then .nothing else .refusal
  | .struct f xs, .struct g ys =>
    if f = g ∧ xs.length = ys.length then .arguments f xs ys else .refusal
  | _, _ => .refusal

/-- Do it, given what unifies arguments. -/
def Demand.meet (check : OccursCheck) (below : Term → Term → Unification Unit) :
    Demand → Unification Unit
  | .nothing => pure ()
  | .refusal => throw .clash
  | .binding v term => Unification.bindChecked check v term
  | .arguments symbol xs ys => do
    if ← Unification.takeUp check (.struct symbol xs) (.struct symbol ys) then
      (xs.zip ys).forM fun (x, y) ↦ below x y

/-- The check matters for how a demand is met, not for what it is. -/
theorem run_unifyWithin_succ (check : OccursCheck) (depth : Nat) (a b : Term) (state : Unifying) :
    (unifyWithin check (depth + 1) a b).run state =
      ((demand (state.bindings.resolve a) (state.bindings.resolve b)).meet check
        (unifyWithin check depth)).run state := by
  rw [unifyWithin, Unification.attempt, run_resolved_bind, run_resolved_bind]
  cases state.bindings.resolve a with
  | var x | atom p | num m =>
    cases state.bindings.resolve b <;> simp only [demand] <;> first | rfl | split <;> rfl
  | struct f xs =>
    cases state.bindings.resolve b with
    | var | atom | num => rfl
    | struct g ys =>
      simp only [demand]
      by_cases same : f = g ∧ xs.length = ys.length
      · obtain ⟨rfl, length⟩ := same
        rw [if_neg (by simp [length]), if_pos ⟨rfl, length⟩]
        rfl
      · rw [if_pos (by rwa [ne_eq, ne_eq, ← not_and_or]), if_neg same]
        rfl

private theorem binding_of_demand {left right term : Term} {v : Var}
    (asked : demand left right = .binding v term) :
    (left = .var v ∧ right = term ∨ left = term ∧ right = .var v) ∧ term ≠ .var v := by
  unfold demand at asked
  split at asked
  case h_1 =>
    split at asked
    · cases asked
    · next differ =>
      cases asked
      exact ⟨.inl ⟨rfl, rfl⟩, by simpa using Ne.symm differ⟩
  case h_2 other =>
    cases asked
    exact ⟨.inl ⟨rfl, rfl⟩, fun same ↦ other _ same⟩
  case h_3 other =>
    cases asked
    exact ⟨.inr ⟨rfl, rfl⟩, fun same ↦ other _ same⟩
  all_goals grind

private theorem arguments_of_demand {left right : Term} {symbol : Symbol} {xs ys : List Term}
    (asked : demand left right = .arguments symbol xs ys) :
    left = .struct symbol xs ∧ right = .struct symbol ys ∧ xs.length = ys.length := by
  unfold demand at asked
  split at asked <;> grind

/-! ### Terms that are equal already -/

private theorem seen_forM {run : Term × Term → Unification Unit} {pairs : List (Term × Term)}
    (each : ∀ pair ∈ pairs, ∀ state later : Unifying, WellFounded state.bindings.Linked →
      (run pair).run state = .ok ((), later) → WellFounded later.bindings.Linked ∧
      later.seen = state.seen)
    {state later : Unifying} (ends : WellFounded state.bindings.Linked)
    (ended : (pairs.forM run).run state = .ok ((), later)) : later.seen = state.seen := by
  induction pairs generalizing state with
  | nil =>
    cases ended
    rfl
  | cons pair pairs ih =>
    rw [run_forM_cons] at ended
    obtain ⟨⟨⟨⟩, next⟩, first, rest⟩ := Except.bind_eq_ok.1 ended
    obtain ⟨next_ends, same⟩ := each pair List.mem_cons_self state next ends first
    exact (ih (fun other member ↦ each other (List.mem_cons_of_mem _ member)) next_ends rest).trans
      same

/-- Under the occurs check no pair of structures is noted. -/
theorem seen_unifyWithin {state later : Unifying} (ends : WellFounded state.bindings.Linked)
    (ended : (unifyWithin .on depth a b).run state = .ok ((), later)) :
    later.seen = state.seen := by
  induction depth generalizing state later a b with
  | zero => cases ended
  | succ depth ih =>
    have move := move_unifyWithin Term .on depth ends a b
    rw [ended] at move
    cases move with
    | settled | met | bind => rfl
    | descend _ _ _ _ _ _ _ _ run =>
      refine seen_forM (fun pair _ _ _ ends ended ↦ ⟨?_, ih ends ended⟩) ends run
      exact (leads_unifyWithin (D := Term) ends ended).1.grown.linksEnd ends

/-- A variable that is unbound later is unbound before. -/
theorem Extends.unbound (grown : Extends check bindings later) {v : Var}
    (unbound : later.lookup? v = none) : bindings.lookup? v = none := by
  cases found : bindings.lookup? v with
  | none => rfl
  | some term =>
    rw [grown.lookup? found] at unbound
    cases unbound

/-- Nothing was bound if the solution that leaves unbound variables alone is none the worse. -/
theorem Extends.eq_of_solution (grown : Extends check bindings later) {σ : Var → Term}
    (own : ∀ v, bindings.lookup? v = none → σ v = .var v) (solution : later.Solution σ) :
    later = bindings := by
  cases grown with
  | refl => rfl
  | @step middle before v term admissible =>
    have bound := ((solution_bind admissible.unbound).1 solution).2
    rw [own v (before.unbound admissible.unbound)] at bound
    cases term with
    | atom | num | struct => simp at bound
    | var w =>
      rw [Term.eval_var, own w (before.unbound (admissible.root w rfl))] at bound
      exact absurd bound.symm admissible.other

/-- Terms that every solution makes equal are unified without binding anything. -/
theorem Acyclic.run_of_equal (acyclic : bindings.Acyclic)
    (equal : ∀ σ : Var → Term, bindings.Solution σ → a.eval σ = b.eval σ) :
    ∃ enough, ∀ depth, enough ≤ depth →
      (unifyWithin .on depth a b).run { bindings } = .ok ((), { bindings }) := by
  have ends := acyclic.linksEnd
  obtain ⟨σ, solution, own⟩ := acyclic.solvable
  obtain ⟨outcome, finished, always⟩ := (acyclic.terminates a b).depth
  have run := always _ (Nat.le_refl _)
  refine ⟨bindings.depthBound a b, fun depth deep ↦ (always depth deep).trans ?_⟩
  cases outcome with
  | error obstacle =>
    have failed : bindings.unify .on a b = none := by rw [unify, run]
    exact absurd (equal σ solution) (ne_of_unify (fun _ ↦ ⟨inferInstance⟩) ends failed solution)
  | ok result =>
    obtain ⟨⟨⟩, last⟩ := result
    have ended : bindings.unify .on a b = some last.bindings := by rw [unify, run]
    have kept : last.bindings = bindings := (extends_unify ends ended).eq_of_solution own
      ((solution_unify ends ended σ).2 ⟨solution, equal σ solution⟩)
    have unseen : last.seen = ∅ := seen_unifyWithin ends run
    rw [show last = { bindings } by cases last; simp_all]

/-! ### The two unifications side by side -/

/-- Every pair of structures that was taken up stands for two equal ones or, on the left, for
something larger than the term. -/
def Unifying.Above (state : Unifying) (term : Term) : Prop :=
  ∀ σ : Var → Term, state.bindings.Solution σ → ∀ pair ∈ state.seen,
    pair.1.eval σ = pair.2.eval σ ∨ (term.eval σ).size < (pair.1.eval σ).size

/-- Between two states of a unification without the occurs check, one under the check binds the
same, given enough depth, and pairs taken up since have been made equal. -/
structure Unifying.Alongside (state later : Unifying) (checked : Nat → Unification Unit) :
    Prop where
  run : ∃ enough, ∀ depth, enough ≤ depth →
    (checked depth).run { bindings := state.bindings } = .ok ((), { bindings := later.bindings })
  gone : ∀ σ : Var → Term, later.bindings.Solution σ → ∀ pair ∈ later.seen, pair ∈ state.seen ∨
    pair.1.eval σ = pair.2.eval σ

theorem Unifying.Alongside.refl {state : Unifying} {checked : Nat → Unification Unit}
    (run : ∃ enough, ∀ depth, enough ≤ depth →
      (checked depth).run { bindings := state.bindings } =
        .ok ((), { bindings := state.bindings })) :
    state.Alongside state checked :=
  ⟨run, fun _ _ _ member ↦ .inl member⟩

/-- What runs under the check leads to makes the terms equal. -/
theorem Unifying.Alongside.eval_eq {state later : Unifying}
    (alongside : state.Alongside later fun depth ↦ unifyWithin .on depth a b)
    (ends : WellFounded state.bindings.Linked) {σ : Var → Term}
    (solution : later.bindings.Solution σ) :
    a.eval σ = b.eval σ := by
  obtain ⟨enough, run⟩ := alongside.run
  obtain ⟨leads, equated⟩ :=
    leads_unifyWithin (D := Term) (by exact ends) (run enough (Nat.le_refl _))
  exact (equated σ solution).eq fun left right member ↦
    leads.expanded σ solution left right member (by simp)

/-- Pairs unified one after another: once the first is done, what was taken up for it stands for
equal structures. -/
theorem alongside_forM {unchecked : Nat} {pairs : List (Term × Term)}
    (each : ∀ pair ∈ pairs, ∀ state later : Unifying, WellFounded state.bindings.Linked →
      state.Above pair.1 → (unifyWithin .off unchecked pair.1 pair.2).run state = .ok ((), later) →
      (∃ σ : Var → Term, later.bindings.Solution σ) →
      state.Alongside later fun depth ↦ unifyWithin .on depth pair.1 pair.2)
    {state later : Unifying} (ends : WellFounded state.bindings.Linked)
    (above : ∀ pair ∈ pairs, state.Above pair.1)
    (ended : (pairs.forM fun pair ↦ unifyWithin .off unchecked pair.1 pair.2).run state =
      .ok ((), later))
    (solvable : ∃ σ : Var → Term, later.bindings.Solution σ) :
    (state.Alongside later fun depth ↦ pairs.forM fun pair ↦ unifyWithin .on depth pair.1 pair.2) ∧
      ∀ pair ∈ pairs, ∀ σ : Var → Term, later.bindings.Solution σ →
        pair.1.eval σ = pair.2.eval σ := by
  induction pairs generalizing state with
  | nil =>
    cases ended
    exact ⟨.refl ⟨0, fun _ _ ↦ rfl⟩, by simp⟩
  | cons pair pairs ih =>
    rw [run_forM_cons] at ended
    obtain ⟨⟨⟨⟩, next⟩, first, rest⟩ := Except.bind_eq_ok.1 ended
    have before := (leads_unifyWithin (D := Term) ends first).1.grown
    have next_ends := before.linksEnd ends
    have after := (leads_forM (fun _ _ _ _ ends ended ↦ leads_unifyWithin (D := Term) ends ended)
      next_ends rest).1.grown
    have here : state.Alongside next fun depth ↦ unifyWithin .on depth pair.1 pair.2 :=
      each pair List.mem_cons_self state next ends (above pair List.mem_cons_self) first
        (solvable.imp fun σ solution ↦ after.solution solution)
    have next_above (other) (member : other ∈ pairs) : next.Above other.1 := by
      intro σ solution old inside
      rcases here.gone σ solution old inside with earlier | equal
      · exact above other (List.mem_cons_of_mem _ member) σ (before.solution solution) old earlier
      · exact .inl equal
    obtain ⟨others, equal⟩ :=
      ih (fun other member ↦ each other (List.mem_cons_of_mem _ member)) next_ends
      next_above rest
    obtain ⟨one, run_one⟩ := here.run
    obtain ⟨two, run_two⟩ := others.run
    refine ⟨⟨⟨max one two, fun depth deep ↦ ?_⟩, fun σ solution old inside ↦ ?_⟩, ?_⟩
    · rw [run_forM_cons, run_one depth (by omega)]
      exact run_two depth (by omega)
    · rcases others.gone σ solution old inside with earlier | same
      · exact here.gone σ (after.solution solution) old earlier
      · exact .inr same
    · exact List.forall_mem_cons.2
        ⟨fun σ solution ↦ here.eval_eq ends (after.solution solution), equal⟩

/-- What is found of the demand on two terms holds of the terms, one level up. -/
theorem Unifying.Alongside.level {state later : Unifying}
    (alongside : state.Alongside later fun depth ↦
      (demand (state.bindings.resolve a) (state.bindings.resolve b)).meet .on
      (unifyWithin .on depth)) :
    state.Alongside later fun depth ↦ unifyWithin .on depth a b := by
  obtain ⟨enough, run⟩ := alongside.run
  refine ⟨⟨enough + 1, fun depth deep ↦ ?_⟩, alongside.gone⟩
  obtain ⟨depth, rfl⟩ := Nat.exists_eq_add_of_le' (Nat.le_trans (Nat.le_add_left 1 enough) deep)
  exact (run_unifyWithin_succ .on depth a b _).trans (run depth (by omega))

/-- The check admits a binding that terms meet: a variable that occurs in the term would make it
larger than itself. -/
theorem alongside_bind {state : Unifying} {v : Var} {term : Term}
    (ends : WellFounded state.bindings.Linked)
    (unbound : state.bindings.lookup? v = none) (root : state.bindings.Root term)
    (other : term ≠ .var v) (solvable : ∃ σ : Var → Term, (state.bindings.bind v term).Solution σ) :
    state.Alongside { state with bindings := state.bindings.bind v term } fun _ ↦
      Unification.bindChecked .on v term := by
  obtain ⟨σ, solution⟩ := solvable
  obtain ⟨before, bound⟩ := (solution_bind unbound).1 solution
  have absent : state.bindings.occursIn v term = false := by
    rw [Bool.eq_false_iff]
    exact fun occurs ↦ before.ne_of_occursIn ends root other occurs bound
  refine ⟨⟨0, fun depth _ ↦ ?_⟩, fun _ _ _ member ↦ .inl member⟩
  simp only [Unification.bindChecked, ↓reduceIte, StateT.run_bind, StateT.run_get,
    pure_bind, absent, Bool.false_eq_true, StateT.run_modify]
  rfl

theorem Unifying.Above.resolve {state : Unifying} (above : state.Above a) :
    state.Above (state.bindings.resolve a) := by
  intro σ solution pair inside
  rw [solution.eval_resolve]
  exact above σ solution pair inside

/-- What was taken up before stands for two equal terms, since the left one is not larger than
itself. -/
theorem Unifying.Above.eval_eq {state : Unifying} (above : state.Above a)
    (met : (a, b) ∈ state.seen)
    {σ : Var → Term} (solution : state.bindings.Solution σ) : a.eval σ = b.eval σ :=
  (above σ solution _ met).resolve_right (Nat.lt_irrefl _)

/-- All that was taken up, a structure included, stands above the arguments of that structure. -/
theorem Unifying.Above.taken {state : Unifying} {symbol : Symbol} {xs : List Term} {arg : Term}
    (above : state.Above (.struct symbol xs)) (right : Term) (member : arg ∈ xs) :
    (state.taken .off (.struct symbol xs) right).Above arg := by
  intro σ solution pair inside
  rw [bindings_taken] at solution
  have smaller : (arg.eval σ).size < ((Term.struct symbol xs).eval σ).size := by
    rw [Term.eval_eq_subst, Term.eval_eq_subst, Term.subst_struct]
    exact Term.size_lt_of_mem (List.mem_map_of_mem member)
  rcases mem_seen_taken.1 inside with earlier | ⟨-, rfl⟩
  · exact (above σ solution pair earlier).imp_right (Nat.lt_trans smaller)
  · exact .inr smaller

/-- What is found of the arguments of two structures taken up is found of the structures. -/
theorem Unifying.Alongside.arguments {state later : Unifying} {symbol : Symbol} {xs ys : List Term}
    (length : xs.length = ys.length)
    (args : (state.taken .off (.struct symbol xs) (.struct symbol ys)).Alongside later fun depth ↦
      (xs.zip ys).forM fun pair ↦ unifyWithin .on depth pair.1 pair.2)
    (equal : ∀ pair ∈ xs.zip ys, ∀ σ : Var → Term, later.bindings.Solution σ →
      pair.1.eval σ = pair.2.eval σ) :
    state.Alongside later fun depth ↦ (Demand.arguments symbol xs ys).meet .on
      (unifyWithin .on depth) := by
  obtain ⟨enough, run⟩ := args.run
  rw [bindings_taken] at run
  refine ⟨⟨enough, run⟩, fun σ solution old inside ↦ ?_⟩
  rcases args.gone σ solution old inside with taken | same
  · refine (mem_seen_taken.1 taken).imp_right ?_
    rintro ⟨-, rfl⟩
    rw [Term.eval_struct, Term.eval_struct, (Term.forall_mem_zip_iff length).1 fun pair member ↦
      equal pair member σ solution]
  · exact .inr same

/-- Where a unification without the occurs check leaves bindings that terms meet, one under the
check makes the same bindings in the same order. -/
theorem alongside_unifyWithin {unchecked : Nat} {state later : Unifying}
    (ends : WellFounded state.bindings.Linked) (above : state.Above a)
    (ended : (unifyWithin .off unchecked a b).run state = .ok ((), later))
    (solvable : ∃ σ : Var → Term, later.bindings.Solution σ) :
    state.Alongside later fun depth ↦ unifyWithin .on depth a b := by
  induction unchecked generalizing state later a b with
  | zero => cases ended
  | succ unchecked ih =>
    have root_a := root_resolve ends a
    have root_b := root_resolve ends b
    rw [run_unifyWithin_succ] at ended
    cases asked : demand (state.bindings.resolve a) (state.bindings.resolve b) with
    | nothing =>
      rw [asked] at ended
      cases ended
      exact .level (asked ▸ .refl ⟨0, fun _ _ ↦ rfl⟩)
    | refusal =>
      rw [asked] at ended
      cases ended
    | binding v term =>
      rw [asked] at ended
      cases ended
      obtain ⟨sides, other⟩ := binding_of_demand asked
      obtain ⟨unbound, root⟩ : state.bindings.lookup? v = none ∧ state.bindings.Root term := by
        rcases sides with ⟨left, rfl⟩ | ⟨rfl, right⟩
        · exact ⟨root_a v left, root_b⟩
        · exact ⟨root_b v right, root_a⟩
      exact .level (asked ▸ alongside_bind ends unbound root other solvable)
    | arguments symbol xs ys =>
      obtain ⟨at_left, at_right, length⟩ := arguments_of_demand asked
      have above_left : state.Above (.struct symbol xs) := at_left ▸ above.resolve
      rw [asked, Demand.meet, StateT.run_bind, run_takeUp] at ended
      by_cases met : (.struct symbol xs, .struct symbol ys) ∈ state.seen
      · rw [if_pos ⟨rfl, met⟩] at ended
        cases ended
        obtain ⟨σ, solution⟩ := solvable
        refine .refl ((solution.acyclic ends).run_of_equal fun τ solution ↦ ?_)
        have equal := above_left.eval_eq met solution
        rwa [← at_left, ← at_right, solution.eval_resolve, solution.eval_resolve] at equal
      · rw [if_neg fun both ↦ met both.2] at ended
        obtain ⟨args, equal⟩ := alongside_forM (fun pair _ _ _ ↦ ih) (by rwa [bindings_taken])
          (fun pair member ↦ above_left.taken _ (List.of_mem_zip member).1) ended solvable
        exact .level (asked ▸ .arguments length args equal)

/-! ### Both policies -/

/-- A unification without the occurs check that leaves acyclic bindings leaves them under the check,
too. -/
theorem unify_on_of_unify_off (acyclic : bindings.Acyclic) (later_acyclic : later.Acyclic)
    (ended : bindings.unify .off a b = some later) : bindings.unify .on a b = some later := by
  unfold unify at ended
  split at ended
  · next state run =>
    cases ended
    obtain ⟨σ, solution, -⟩ := later_acyclic.solvable
    have alongside :=
      alongside_unifyWithin acyclic.linksEnd (fun _ _ _ member ↦ by simp at member) run
      ⟨σ, solution⟩
    obtain ⟨enough, checked⟩ := alongside.run
    obtain ⟨outcome, -, always⟩ := (acyclic.terminates a b).depth
    have same := always (max enough (bindings.depthBound a b)) (Nat.le_max_right _ _)
    rw [checked _ (Nat.le_max_left _ _)] at same
    rw [unify, always _ (Nat.le_refl _), ← same]
  · cases ended

/-- The occurs check only removes cyclic results. With acyclic bindings, unification ends with the
check and without, and it succeeds under the check if and only if it succeeds without and the
bindings it leaves are acyclic; both then leave the same bindings, made in the same order. -/
theorem unify_on_eq_some_iff (acyclic : bindings.Acyclic) (a b : Term) :
    Terminates .on bindings a b ∧ Terminates .off bindings a b ∧
      ∀ later, bindings.unify .on a b = some later ↔
        bindings.unify .off a b = some later ∧ later.Acyclic := by
  have ends := acyclic.linksEnd
  refine ⟨acyclic.terminates a b, terminates_off ends a b, fun later ↦ ⟨fun ended ↦ ?_, ?_⟩⟩
  · have later_acyclic := acyclic.extends (extends_unify ends ended)
    obtain ⟨σ, solution, -⟩ := later_acyclic.solvable
    obtain ⟨before, same⟩ := (solution_unify ends ended σ).1 solution
    have decides : OccursCheck.Decides .off Term := fun on ↦ OccursCheck.noConfusion on
    cases unchecked : bindings.unify .off a b with
    | none => exact absurd same (ne_of_unify decides ends unchecked before)
    | some other =>
      -- the terms that meet the one result meet the other, which is acyclic for that reason
      have other_acyclic := ((solution_unify ends unchecked σ).2 ⟨before, same⟩).acyclic
        ((extends_unify ends unchecked).linksEnd ends)
      have again := unify_on_of_unify_off acyclic other_acyclic unchecked
      rw [ended] at again
      exact ⟨again.symm, later_acyclic⟩
  · rintro ⟨unchecked, later_acyclic⟩
    exact unify_on_of_unify_off acyclic later_acyclic unchecked

/-- With `X` bound to `f(Y)`, both policies unify `Z` with `X` alike; only without the check is `Y`
unified with `f(X)`, and that leaves cyclic bindings. -/
theorem unify_on_oneLink : oneLink.Acyclic ∧
    (∃ later, oneLink.unify .on (.var 2) (.var 0) = some later ∧
      oneLink.unify .off (.var 2) (.var 0) = some later) ∧
    oneLink.unify .on (.var 1) (.struct ⟨0⟩ [.var 0]) = none ∧
    ∃ cyclic, oneLink.unify .off (.var 1) (.struct ⟨0⟩ [.var 0]) = some cyclic ∧
    ¬cyclic.Acyclic := by
  obtain ⟨-, -, alike⟩ := unify_on_eq_some_iff acyclic_oneLink (.var 2) (.var 0)
  obtain ⟨-, -, apart⟩ := unify_on_eq_some_iff acyclic_oneLink (.var 1) (.struct ⟨0⟩ [.var 0])
  have checked : (oneLink.unify .on (.var 2) (.var 0)).isSome = true := by decide +kernel
  have refused : oneLink.unify .on (.var 1) (.struct ⟨0⟩ [.var 0]) = none := by decide +kernel
  have made : (oneLink.unify .off (.var 1) (.struct ⟨0⟩ [.var 0])).isSome = true := by
    decide +kernel
  obtain ⟨later, ended⟩ := Option.isSome_iff_exists.1 checked
  obtain ⟨cyclic, made⟩ := Option.isSome_iff_exists.1 made
  refine ⟨acyclic_oneLink, ⟨later, ended, ((alike later).1 ended).1⟩, refused, cyclic, made, ?_⟩
  intro acyclic
  rw [(apart cyclic).2 ⟨made, acyclic⟩] at refused
  cases refused

end HornMachine.Bindings
