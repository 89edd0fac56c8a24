import HornMachine.Proofs.Bindings.Unification

/-!
# Unification of terms ends by itself

Depth and steps are bounded in the definitions, so that they are functions. Here it is shown that no
bound is ever reached: a unification stops because it is done or because the terms differ. Under the
occurs check this needs that no variable reaches itself; every structure passed on the way down is
then larger than what is inside it, whatever is bound later. Without the check it is enough that
chains of variables bound to variables end, since no pair of structures is taken up twice. Main
statements: `Acyclic.terminates` and `terminates_off`.
-/

namespace HornMachine.Bindings

open Relation (TransGen ReflTransGen)

variable {check : OccursCheck} {bindings later : Bindings}

/-! ### Acyclic bindings -/

/-- No variable reaches itself. -/
def Acyclic (bindings : Bindings) : Prop := ∀ v, ¬TransGen bindings.Mentions v v

private theorem mentions_of_linked {v w : Var} (linked : bindings.Linked w v) :
    bindings.Mentions v w :=
  ⟨.var w, linked, by simp⟩

/-- A chain of links that goes on passes ever more bound variables. -/
theorem Acyclic.acc_linked (acyclic : bindings.Acyclic) {steps : Nat} {passed : List Var}
    (way : bindings.Passed passed steps) {v : Var}
    (chain : ∀ p ∈ passed, TransGen bindings.Mentions p v) : Acc bindings.Linked v := by
  induction steps generalizing passed v with
  | zero =>
    refine .intro v fun w linked ↦ ?_
    obtain ⟨rest, ⟨⟩, -⟩ := way.next linked fun member ↦ acyclic v (chain v member)
  | succ steps ih =>
    refine .intro v fun w linked ↦ ?_
    obtain ⟨rest, ⟨⟩, further⟩ := way.next linked fun member ↦ acyclic v (chain v member)
    have last := mentions_of_linked linked
    refine ih further fun p member ↦ ?_
    rcases List.mem_cons.1 member with rfl | earlier
    · exact .single last
    · exact (chain p earlier).tail last

theorem Acyclic.linksEnd (acyclic : bindings.Acyclic) : WellFounded bindings.Linked :=
  ⟨fun _ ↦ acyclic.acc_linked (passed_nil bindings) nofun⟩

/-- Acyclic bindings can be substituted in every term. -/
theorem Acyclic.exists_apply (acyclic : bindings.Acyclic) (term : Term) :
    ∃ result, bindings.apply term = .ok result := by
  cases ended : bindings.apply term with
  | ok result => exact ⟨result, rfl⟩
  | error error =>
    obtain ⟨v, -, w, -, cycle⟩ := cyclic_of_apply ended
    exact absurd cycle (acyclic w)

/-- What acyclic bindings substitute for the variables solves them. -/
theorem Acyclic.solvable (acyclic : bindings.Acyclic) : bindings.Solvable := by
  choose σ ended using fun v ↦ acyclic.exists_apply (.var v)
  have tree (v) : (σ v).tree = bindings.treeOf v := by
    have made := substituted_apply (ended v)
    calc (σ v).tree = (σ v).eval bindings.treeOf :=
          Term.eval_congr fun w occurs ↦ (treeOf_unbound (made.unbound w occurs)).symm
      _ = (Term.var v).eval bindings.treeOf := made.eval _ (solution_treeOf acyclic.linksEnd)
      _ = bindings.treeOf v := Term.eval_var _ _
  refine ⟨σ, fun v term found ↦ Term.tree_injective ?_, fun v unbound ↦ Term.tree_injective ?_⟩
  · rw [tree, solution_treeOf acyclic.linksEnd v term found, Term.eval_eq_subst, Term.tree,
      Term.eval_subst]
    exact Term.eval_congr fun w _ ↦ (tree w).symm
  · rw [tree, treeOf_unbound unbound, Term.tree, Term.eval_var]

/-- Bindings that terms meet are acyclic. -/
theorem Solution.acyclic {σ : Var → Term} (solution : bindings.Solution σ)
    (ends : WellFounded bindings.Linked) : bindings.Acyclic := by
  intro v cycle
  exact @Solution.not_cyclic _ _ _ σ solution (.ofSized Term) ends (.var v) trivial ⟨v, by simp, v,
    .refl, cycle⟩

theorem Solvable.acyclic (solvable : bindings.Solvable) (ends : WellFounded bindings.Linked) :
    bindings.Acyclic := by
  obtain ⟨σ, solution, -⟩ := solvable
  exact solution.acyclic ends

/-- Bindings made under the occurs check stay acyclic. -/
theorem Acyclic.extends (acyclic : bindings.Acyclic) (grown : Extends .on bindings later) :
    later.Acyclic :=
  (grown.solvable acyclic.solvable).acyclic (grown.linksEnd acyclic.linksEnd)

/-- The occurs check never comes to the end of its steps, so that more of them change nothing. -/
theorem Acyclic.reachesWithin_add (acyclic : bindings.Acyclic) (target : Var) {steps : Nat}
    {passed : List Var} (way : bindings.Passed passed steps) {term : Term}
    (chain : ∀ p ∈ passed, ∀ v ∈ term.occurrences, TransGen bindings.Mentions p v) (more : Nat) :
    bindings.reachesWithin target (steps + more) term =
      bindings.reachesWithin target steps term := by
  induction steps using Nat.strongRecOn generalizing passed term with
  | _ steps ih =>
    rw [Bool.eq_iff_iff, reachesWithin_eq, reachesWithin_eq, Term.anyVar_iff, Term.anyVar_iff]
    refine exists_congr fun v ↦ and_congr_right fun occurs ↦ ?_
    unfold reachesVar
    cases found : bindings.lookup? v with
    | none => exact Iff.rfl
    | some bound =>
      obtain ⟨rest, rfl, further⟩ := way.next found fun member ↦ acyclic v (chain v member v occurs)
      rw [Nat.add_right_comm]
      refine (Bool.eq_iff_iff.1 (ih rest (Nat.lt_succ_self rest) further
        fun p member w inside ↦ ?_))
      have last : bindings.Mentions v w := ⟨bound, found, inside⟩
      rcases List.mem_cons.1 member with rfl | earlier
      · exact .single last
      · exact (chain p earlier v occurs).tail last

/-! ### Enough depth -/

/-- A state in which a unification can go on, among given terms. -/
structure Unifying.Ready (check : OccursCheck) (members : Finset Term) (state : Unifying) :
    Prop where
  ends : WellFounded state.bindings.Linked
  covers : Covers members state.bindings
  solvable : check = .on → state.bindings.Solvable

/-- A depth that is enough for what is left to do. Under the occurs check, the structures passed on
the way down to a term are different, since each is larger than the term whatever the variables
stand for. Without it, pairs of structures are taken up once. -/
def Enough (members : Finset Term) (depth : Nat) (state : Unifying) (term : Term) :
    OccursCheck → Prop
  | .on => ∃ passed ⊆ members, members.card < depth + passed.card ∧
      ∀ above ∈ passed, ∀ σ : Var → Term, state.bindings.Solution σ →
        (term.subst σ).size < (above.subst σ).size
  | .off => members.card * members.card < depth + seenCount members state.seen

variable {members : Finset Term} {depth : Nat} {state next : Unifying} {a b : Term}

theorem Enough.pos (enough : Enough members depth state a check) : depth ≠ 0 := by
  rintro rfl
  cases check with
  | on =>
    obtain ⟨passed, inside, many, -⟩ := enough
    have few := Finset.card_le_card inside
    omega
  | off =>
    have few := seenCount_le members state.seen
    rw [Enough] at enough
    omega

/-- One less is enough for the arguments of a structure that is taken up. -/
theorem Enough.below {symbol : Symbol} {xs ys : List Term}
    (enough : Enough members (depth + 1) state a check) (ready : state.Ready check members)
    (at_left : state.bindings.resolve a = .struct symbol xs)
    (left_inside : .struct symbol xs ∈ members) (right_inside : .struct symbol ys ∈ members)
    (fresh : check = .off → (.struct symbol xs, .struct symbol ys) ∉ state.seen)
    (grown : Extends check state.bindings next.bindings)
    (seen : ∀ pair ∈ (state.taken check (.struct symbol xs) (.struct symbol ys)).seen,
      pair ∈ next.seen)
    {arg : Term} (member : arg ∈ xs) : Enough members depth next arg check := by
  cases check with
  | on =>
    obtain ⟨passed, inside, many, larger⟩ := enough
    have root (σ : Var → Term) (solution : state.bindings.Solution σ) :
        (Term.struct symbol xs).subst σ = a.subst σ := by
      have same := solution.eval_resolve a
      rwa [at_left, Term.eval_eq_subst, Term.eval_eq_subst] at same
    have new : .struct symbol xs ∉ passed := by
      intro met
      obtain ⟨σ, solution, -⟩ := ready.solvable rfl
      have less := larger _ met σ solution
      rw [root σ solution] at less
      exact Nat.lt_irrefl _ less
    refine ⟨insert (.struct symbol xs) passed, Finset.insert_subset left_inside inside, ?_, ?_⟩
    · rw [Finset.card_insert_of_notMem new]
      omega
    · intro above met σ solution
      have before := grown.solution solution
      have smaller : (arg.subst σ).size < ((Term.struct symbol xs).subst σ).size := by
        rw [Term.subst_struct]
        exact Term.size_lt_of_mem (List.mem_map_of_mem member)
      rcases Finset.mem_insert.1 met with rfl | earlier
      · exact smaller
      · rw [root σ before] at smaller
        exact Nat.lt_trans smaller (larger above earlier σ before)
  | off =>
    have more := seenCount_lt (fun pair member ↦ seen pair (mem_seen_taken.2 (.inl member)))
      (fresh rfl) (seen _ (mem_seen_taken.2 (.inr ⟨rfl, rfl⟩))) left_inside right_inside
    rw [Enough] at enough ⊢
    omega

/-- A unification that stops for a reason of its own, ready to go on if it succeeded. -/
def Finishes (check : OccursCheck) (members : Finset Term) (state : Unifying) :
    Except Obstacle (Unit × Unifying) → Prop
  | .ok ((), later) => later.Ready check members ∧ Extends check state.bindings later.bindings ∧
      ∀ pair ∈ state.seen, pair ∈ later.seen
  | .error obstacle => obstacle ≠ .unfinished

theorem Finishes.of_later {result : Except Obstacle (Unit × Unifying)}
    (finishes : Finishes check members next result)
    (grown : Extends check state.bindings next.bindings)
    (kept : ∀ pair ∈ state.seen, pair ∈ next.seen) : Finishes check members state result := by
  cases result with
  | error obstacle => exact finishes
  | ok last =>
    obtain ⟨ready, more, seen⟩ := finishes
    exact ⟨ready, grown.trans more, fun pair member ↦ seen pair (kept pair member)⟩

theorem finishes_forM {run : Term × Term → Unification Unit} {pairs : List (Term × Term)}
    (each : ∀ pair ∈ pairs, ∀ next : Unifying, next.Ready check members →
      Extends check state.bindings next.bindings → (∀ old ∈ state.seen, old ∈ next.seen) →
      Finishes check members next ((run pair).run next))
    (ready : state.Ready check members) :
    Finishes check members state ((pairs.forM run).run state) := by
  induction pairs generalizing state with
  | nil => exact ⟨ready, .refl, fun _ member ↦ member⟩
  | cons pair pairs ih =>
    have first := each pair List.mem_cons_self state ready .refl fun _ member ↦ member
    rw [run_forM_cons]
    cases ended : (run pair).run state with
    | error obstacle =>
      rw [ended] at first
      exact first
    | ok result =>
      rw [ended] at first
      obtain ⟨next_ready, grown, kept⟩ := first
      refine Finishes.of_later (ih (fun other member next ready more seen ↦ ?_) next_ready) grown
        kept
      exact each other (List.mem_cons_of_mem _ member) next ready (grown.trans more)
        fun old member ↦
        seen old (kept old member)

/-- With enough depth a unification stops for a reason of its own. -/
theorem finishes_unifyWithin (ready : state.Ready check members) (a_inside : a ∈ members)
    (b_inside : b ∈ members) (enough : Enough members depth state a check) :
    Finishes check members state ((unifyWithin check depth a b).run state) := by
  induction depth generalizing state a b with
  | zero => exact absurd rfl enough.pos
  | succ depth ih =>
    generalize ended : (unifyWithin check (depth + 1) a b).run state = result
    have move := move_unifyWithin Term check depth ready.ends a b
    rw [ended] at move
    cases move with
    | settled _ => exact ⟨ready, .refl, fun _ member ↦ member⟩
    | met _ _ _ _ => exact ⟨ready, .refl, fun _ member ↦ member⟩
    | clash _ => exact nofun
    | bind v term admissible known _ =>
      have grown : Extends check state.bindings (state.bindings.bind v term) :=
        .step .refl admissible
      refine ⟨⟨grown.linksEnd ready.ends,
        ready.covers.bind v (known _ ready.covers a_inside b_inside),
        ?_⟩, grown, fun _ member ↦ member⟩
      rintro rfl
      exact grown.solvable (ready.solvable rfl)
    | descend symbol xs ys length at_left at_right fresh _ run =>
      rw [← run]
      have left_inside := ready.covers.resolve a_inside
      have right_inside := ready.covers.resolve b_inside
      rw [at_left] at left_inside
      rw [at_right] at right_inside
      have same := bindings_taken check (.struct symbol xs) (.struct symbol ys) state
      have taken : (state.taken check (.struct symbol xs) (.struct symbol ys)).Ready
        check members :=
        ⟨same ▸ ready.ends, same ▸ ready.covers, same ▸ ready.solvable⟩
      refine Finishes.of_later (finishes_forM (fun pair member next next_ready grown seen ↦
        ?_) taken)
        (same ▸ .refl) fun pair member ↦ mem_seen_taken.2 (.inl member)
      obtain ⟨left_arg, right_arg⟩ := List.of_mem_zip member
      exact ih next_ready (ready.covers.args left_inside _ left_arg)
        (ready.covers.args right_inside _ right_arg)
        (enough.below ready at_left left_inside right_inside fresh (same ▸ grown) seen left_arg)

/-! ### More depth -/

/-- One level of a unification, given what is done with arguments. -/
def unifyLevel (check : OccursCheck) (below : Term → Term → Unification Unit) (a b : Term) :
    Unification Unit := do
  let left ← Unification.resolved a
  let right ← Unification.resolved b
  match left, right with
  | .var x, .var y => if x = y then pure () else Unification.bindChecked check x (.var y)
  | .var x, right => Unification.bindChecked check x right
  | left, .var y => Unification.bindChecked check y left
  | .atom p, .atom q => if p = q then pure () else throw .clash
  | .num m, .num n => if m = n then pure () else throw .clash
  | .struct f xs, .struct g ys =>
    if f ≠ g ∨ xs.length ≠ ys.length then throw .clash
    else if ← Unification.takeUp check (.struct f xs) (.struct g ys) then
      (xs.zip ys).forM fun (x, y) ↦ below x y
  | _, _ => throw .clash

private theorem unifyWithin_succ (check : OccursCheck) (depth : Nat) (a b : Term) :
    unifyWithin check (depth + 1) a b = unifyLevel check (unifyWithin check depth) a b := rfl

/-- A computation that stops for a reason of its own, wherever another one does, as that one
does. -/
def Continues (one two : Unification Unit) : Prop :=
  ∀ state, one.run state ≠ .error .unfinished → two.run state = one.run state

theorem Continues.forM {one two : Term × Term → Unification Unit} {pairs : List (Term × Term)}
    (each : ∀ pair ∈ pairs, Continues (one pair) (two pair)) :
    Continues (pairs.forM one) (pairs.forM two) := by
  induction pairs with
  | nil => exact fun _ _ ↦ rfl
  | cons pair pairs ih =>
    obtain ⟨here, others⟩ := List.forall_mem_cons.1 each
    intro state finished
    rw [run_forM_cons] at finished ⊢
    rw [run_forM_cons]
    cases ended : (one pair).run state with
    | error obstacle =>
      rw [here state (by rw [ended] at finished ⊢; exact finished), ended]
      rfl
    | ok result =>
      rw [here state (by rw [ended]; nofun), ended]
      rw [ended] at finished
      exact ih others result.2 finished

private theorem continues_unifyLevel {one two : Term → Term → Unification Unit}
    (each : ∀ a b, Continues (one a b) (two a b)) (a b : Term) :
    Continues (unifyLevel check one a b) (unifyLevel check two a b) := by
  intro state finished
  unfold unifyLevel at finished ⊢
  simp only [run_resolved_bind] at finished ⊢
  cases left : state.bindings.resolve a with
  | var | atom | num => cases state.bindings.resolve b <;> rfl
  | struct f xs =>
    cases right : state.bindings.resolve b with
    | var | atom | num => rfl
    | struct g ys =>
      simp only [left, right] at finished ⊢
      split at finished
      · next differ => rw [if_pos differ, if_pos differ]
      · next alike =>
        rw [if_neg alike, if_neg alike]
        rw [StateT.run_bind, run_takeUp] at finished ⊢
        rw [StateT.run_bind, run_takeUp]
        by_cases met : check = .off ∧ (.struct f xs, .struct g ys) ∈ state.seen
        · rw [if_pos met]
          rfl
        · rw [if_neg met] at finished ⊢
          exact Continues.forM (fun pair _ ↦ each pair.1 pair.2) _ finished

/-- A unification that stops for a reason of its own does so at every greater depth. -/
theorem continues_unifyWithin {more : Nat} (deeper : depth ≤ more) (a b : Term) :
    Continues (unifyWithin check depth a b) (unifyWithin check more a b) := by
  induction depth generalizing more a b with
  | zero => exact fun _ finished ↦ absurd rfl finished
  | succ depth ih =>
    obtain ⟨rest, rfl⟩ := Nat.exists_eq_add_of_le' (Nat.lt_of_lt_of_le (Nat.succ_pos depth) deeper)
    rw [unifyWithin_succ, unifyWithin_succ]
    exact continues_unifyLevel (ih (by omega)) a b

/-! ### Termination -/

/-- A unification of two terms ends by itself: no bound on its depth or steps is reached. -/
structure Terminates (check : OccursCheck) (bindings : Bindings) (a b : Term) : Prop where
  depth : ∃ outcome, outcome ≠ .error .unfinished ∧ ∀ depth, bindings.depthBound a b ≤ depth →
    (unifyWithin check depth a b).run { bindings } = outcome
  resolve : ∀ later, Extends check bindings later → ∀ term, later.Root (later.resolve term)
  occurs : check = .on → ∀ later, Extends check bindings later →
    ∀ v term steps, later.size ≤ steps →
    later.reachesWithin v steps term = later.occursIn v term

private theorem depth_of_enough (ends : WellFounded bindings.Linked)
    (solvable : check = .on → bindings.Solvable)
    (enough : Enough (bindings.reachable a b) (bindings.depthBound a b) { bindings } a check) :
    ∃ outcome, outcome ≠ .error .unfinished ∧ ∀ depth, bindings.depthBound a b ≤ depth →
      (unifyWithin check depth a b).run { bindings } = outcome := by
  have ready : Unifying.Ready check (bindings.reachable a b) { bindings } :=
    ⟨ends, covers_reachable bindings a b, solvable⟩
  have finishes := finishes_unifyWithin ready (left_mem_reachable bindings a b)
    (right_mem_reachable bindings a b) enough
  have finished : (unifyWithin check (bindings.depthBound a b) a b).run { bindings } ≠
      .error .unfinished := by
    intro unfinished
    rw [unfinished] at finishes
    exact finishes rfl
  exact ⟨_, finished, fun depth deeper ↦ continues_unifyWithin deeper a b _ finished⟩

/-- With acyclic bindings, unification under the occurs check ends. -/
theorem Acyclic.terminates (acyclic : bindings.Acyclic) (a b : Term) :
    Terminates .on bindings a b where
  depth := by
    refine depth_of_enough acyclic.linksEnd (fun _ ↦ acyclic.solvable)
      ⟨∅, Finset.empty_subset _, ?_, ?_⟩
    · have bound := card_reachable bindings a b
      rw [Finset.card_empty]
      omega
    · simp
  resolve later grown := root_resolve (grown.linksEnd acyclic.linksEnd)
  occurs _ later grown v term steps enough := by
    obtain ⟨more, rfl⟩ := Nat.exists_eq_add_of_le enough
    exact (acyclic.extends grown).reachesWithin_add v (passed_nil later) nofun more

/-- Where links end, unification without the occurs check ends. -/
theorem terminates_off (ends : WellFounded bindings.Linked) (a b : Term) :
    Terminates .off bindings a b where
  depth := by
    refine depth_of_enough ends nofun ?_
    have bound := card_reachable bindings a b
    rw [Enough]
    omega
  resolve later grown := root_resolve (grown.linksEnd ends)
  occurs := nofun

end HornMachine.Bindings
