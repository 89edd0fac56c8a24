import HornMachine.Proofs.Machine.Answers
import HornMachine.Proofs.Resolution.Instances

/-!
# Moves of the machine are steps of resolution

The sets of instances before a machine are those of the branch it is in and, for each choice point,
those that its candidates leave. Each of them is empty or has the instances of a branch of
resolution. Main statement: when the machine makes a move, these branches stay as they are, or the
first one is replaced by those that its next goal leads to, which is what the search does next.
-/

namespace HornMachine

/-- The sets of instances still to be searched, in order. -/
def Stage.sets {D : Type} [Domain D] (stage : Stage D) : List (Set (Instance D)) :=
  stage.current.toList ++ stage.choices.flatMap fun choice ↦
    choice.2.map (Candidate.answers choice.1)

namespace Resolvent

variable {context : Context} {branch : Resolvent} {branches : List Resolvent}
  {sets : List (Set (Instance Term))}

/-! ### Canonical branches -/

/-- The arguments of the goals are canonical. -/
def Canonical (branch : Resolvent) : Prop := ∀ goal ∈ branch.goals, ∀ arg ∈ goal.args, arg.Canonical

theorem Canonical.subst (canonical : branch.Canonical) {σ : Var → Term}
    (each : ∀ v, (σ v).Canonical) :
    (branch.subst σ).Canonical := by
  refine List.forall_mem_map.2 fun goal member ↦ ?_
  cases goal with
  | fail => exact List.forall_mem_nil _
  | call args target =>
    refine List.forall_mem_map.2 fun arg inside ↦ ?_
    exact Term.AllFunctors.subst (canonical _ member arg inside) fun v _ ↦ each v

/-- A most general unifier of canonical terms keeps a branch canonical. -/
theorem Canonical.unified (canonical : branch.Canonical) {left right : List Term}
    (left_canonical : ∀ term ∈ left, term.Canonical)
    (right_canonical : ∀ term ∈ right, term.Canonical) :
    ∀ unified ∈ (Term.mgu? left right).map branch.subst, unified.Canonical := by
  intro unified found
  obtain ⟨σ, made, rfl⟩ := Option.map_eq_some_iff.1 found
  exact canonical.subst ((Term.mostGeneral_of_mgu? made).canonical left_canonical right_canonical)

/-! ### Branches of sets -/

/-- Branches have the given sets of instances, in order. There is none for an empty set. -/
inductive Shows : List Resolvent → List (Set (Instance Term)) → Prop
  | nil : Shows [] []
  | empty {branches : List Resolvent} {sets : List (Set (Instance Term))}
    (rest : Shows branches sets) :
    Shows branches (∅ :: sets)
  | cons {branch : Resolvent} {branches : List Resolvent} {sets : List (Set (Instance Term))}
    (canonical : branch.Canonical) (rest : Shows branches sets) :
    Shows (branch :: branches) (branch.instances :: sets)

private theorem shown_eq_empty {branch? : Option Resolvent} :
    shown branch? = ∅ ↔ branch? = none := by
  cases branch? with
  | none => simp
  | some branch =>
    rw [shown_some]
    refine iff_of_false ?_ (Option.some_ne_none branch)
    exact Set.Nonempty.ne_empty ⟨_, branch.self_mem_instances⟩

theorem Shows.option {branch? : Option Resolvent} (canonical : ∀ branch ∈ branch?, branch.Canonical)
    (rest : Shows branches sets) : Shows (branch?.toList ++ branches) (shown branch? :: sets) := by
  cases branch? with
  | none =>
    rw [shown_none]
    exact .empty rest
  | some branch =>
    rw [shown_some]
    exact .cons (canonical branch rfl) rest

/-- The first set is empty, or it has the instances of the first branch. -/
theorem Shows.cases_cons {set : Set (Instance Term)} (shows : Shows branches (set :: sets)) :
    (set = ∅ ∧ Shows branches sets) ∨
      ∃ branch rest, branches = branch :: rest ∧ set = branch.instances ∧ branch.Canonical ∧
        Shows rest sets := by
  cases shows with
  | empty rest => exact .inl ⟨rfl, rest⟩
  | cons canonical rest => exact .inr ⟨_, _, rfl, rfl, canonical, rest⟩

theorem Shows.eq_nil (shows : Shows branches []) : branches = [] := by
  cases shows
  rfl

end Resolvent

/-! ### Candidates -/

/-- Nothing is left of no instances. -/
theorem Candidate.answers_empty (candidate : Candidate) :
    candidate.answers (∅ : Set (Instance Term)) = ∅ := by
  refine Set.eq_empty_iff_forall_notMem.2 fun an member ↦ ?_
  cases candidate with
  | fact stored => exact member
  | clause compiled =>
    obtain ⟨η, ρ, first, rest, -, -, inside⟩ := member
    exact inside

/-- A clause that is tried for a goal is a rule with that head. -/
theorem Context.rule_of_mem_candidates {context : Context} {goal : Functor}
    {compiled : CompiledRule} (member : .clause compiled ∈ context.candidates goal) :
    compiled.head = goal ∧ ∃ id, context.program.rule? id = some compiled := by
  obtain stored | clause := List.mem_append.1 member
  · obtain ⟨fact, -, same⟩ := List.mem_map.1 stored
    cases same
  · obtain ⟨id, listed, made⟩ := List.mem_filterMap.1 clause
    obtain ⟨found, there, same⟩ := Option.map_eq_some_iff.1 made
    cases same
    rw [List.drop_zero, context.program.toList_clauses] at listed
    obtain ⟨-, headed⟩ := List.mem_filter.1 listed
    rw [there, Option.any_some, decide_eq_true_eq] at headed
    exact ⟨headed, id, there⟩

/-! ### The next goal -/

namespace Resolvent

variable {context : Context} {branch : Resolvent} {args : List Term} {target : Target}
  {goals : List Rule.Goal}

private theorem next_fail (front : branch.goals = .fail :: goals) : branch.next context = [] := by
  rw [next, front]

private theorem next_builtin {builtin : Builtin} {arity : Nat}
    (front : branch.goals = .call args (.builtin builtin arity) :: goals) :
    branch.next context = (builtin.resolve args { branch with goals }).toList := by
  rw [next, front]

private theorem next_predicate {functor : Functor}
    (front : branch.goals = .call args (.predicate functor) :: goals) :
    branch.next context = (context.candidates functor).filterMap
      (Candidate.resolve args { branch with goals }) := by
  rw [next, front]

/-- Where all instances call something, the branch does. -/
theorem exists_front (calls : Instance.Calls branch.instances target) :
    ∃ args goals, branch.goals = .call args target :: goals := by
  obtain ⟨values, rest, called⟩ := calls _ branch.self_mem_instances
  obtain ⟨goal, goals, front, first, -⟩ := List.map_eq_cons_iff.1 called
  cases goal with
  | fail => cases first
  | call args other =>
    cases first
    exact ⟨args, goals, front⟩

/-- In a canonical branch so are the arguments of its first goal and the rest. -/
theorem Canonical.of_front (canonical : branch.Canonical)
    (front : branch.goals = .call args target :: goals) :
    (∀ arg ∈ args, arg.Canonical) ∧ Resolvent.Canonical { branch with goals } := by
  unfold Resolvent.Canonical at canonical
  rw [front] at canonical
  exact List.forall_mem_cons.1 canonical

/-- A builtin keeps a branch canonical. -/
theorem Canonical.builtin (canonical : branch.Canonical)
    (args_canonical : ∀ arg ∈ args, arg.Canonical)
    (builtin : Builtin) : ∀ left ∈ builtin.resolve args branch, left.Canonical := by
  have kept (condition : Prop) [Decidable condition] :
      ∀ left ∈ if condition then some branch else none, left.Canonical := by
    intro left found
    split at found
    · cases found
      exact canonical
    · cases found
  cases builtin with
  | true =>
    rintro _ ⟨⟩
    exact canonical
  | neq => exact kept _
  | distinct => exact kept _
  | eq =>
    simp only [Builtin.resolve]
    split
    · obtain ⟨first, second⟩ := List.forall_mem_cons.1 args_canonical
      exact canonical.unified (List.forall_mem_singleton.2 first) second
    · simp

/-- The first branch is replaced by those that its next goal leads to. -/
inductive Expands (context : Context) : List Resolvent → List Resolvent → Prop
  | first {branch : Resolvent} {rest next : List Resolvent} (unfinished : branch.goals ≠ [])
    (leads : branch.next context = next) : Expands context (branch :: rest) (next ++ rest)

/-- The search of branches that are expanded finds what the search of the new ones does. -/
theorem exists_search {branches later found : List Resolvent} {fuel : Nat}
    (expanded : Relation.ReflTransGen (Expands context) branches later)
    (ended : search context fuel later = some found) :
    ∃ more, search context more branches = some found := by
  induction expanded using Relation.ReflTransGen.head_induction_on with
  | refl => exact ⟨fuel, ended⟩
  | head expands _ ih =>
    obtain ⟨more, ended⟩ := ih
    obtain ⟨unfinished, rfl⟩ := expands
    obtain ⟨goal, goals, front⟩ := List.exists_cons_of_ne_nil unfinished
    refine ⟨more + 1, ?_⟩
    simp only [search, front]
    exact ended

end Resolvent

section Moves

variable {program : Program} {context : Context}
  (built : program.Built (Rule.AllFunctors fun functor ↦ 0 < functor.arity))
  (named : program.registers ≤ Emit.maxRegister) (canonical : context.Canonical program)

include built named canonical

/-- What a candidate leaves of the instances of a call are those of what resolution leaves of the
branch. -/
theorem Candidate.answers_eq {branch : Resolvent} (branch_canonical : branch.Canonical)
    {args : List Term} {goal : Functor} {goals : List Rule.Goal}
    (front : branch.goals = .call args (.predicate goal) :: goals)
    {candidate : Candidate} (member : candidate ∈ context.candidates goal) :
    candidate.answers branch.instances =
      Resolvent.shown (candidate.resolve args { branch with goals }) ∧
      ∀ left ∈ candidate.resolve args { branch with goals }, left.Canonical := by
  obtain ⟨args_canonical, rest_canonical⟩ := branch_canonical.of_front front
  cases candidate with
  | fact stored =>
    have listed := Context.mem_candidates_fact.1 member
    obtain rfl := canonical.built.consistent.functor goal stored listed
    have stored_canonical := canonical.facts stored (canonical.contains_of_mem listed)
    exact ⟨answers_fact front,
      rest_canonical.unified args_canonical fun arg inside ↦ stored_canonical.of_mem_args inside⟩
  | clause compiled =>
    obtain ⟨rfl, id, found⟩ := Context.rule_of_mem_candidates member
    rw [canonical.program] at found
    obtain ⟨head_canonical, goals_canonical⟩ := built.canonical found
    refine ⟨answers_clause (built.faithful named found) front, ?_⟩
    have own (first : Var) : ∀ v, (Term.apart first v).Canonical := fun _ ↦ trivial
    refine Resolvent.Canonical.unified ?_ args_canonical ?_
    · refine List.forall_mem_append.2 ⟨List.forall_mem_map.2 fun called among ↦ ?_, rest_canonical⟩
      cases called with
      | fail => exact List.forall_mem_nil _
      | call args target =>
        refine List.forall_mem_map.2 fun arg inside ↦ ?_
        exact Term.AllFunctors.subst (goals_canonical args target among arg inside)
          fun v _ ↦ own _ v
    · refine List.forall_mem_map.2 fun arg inside ↦ ?_
      exact Term.AllFunctors.subst (head_canonical.of_mem_args inside) fun v _ ↦ own _ v

namespace Resolvent

omit built named canonical in
/-- A branch that must fail leads nowhere. -/
theorem Shows.fail {set : Set (Instance Term)} {branches : List Resolvent}
    {sets : List (Set (Instance Term))}
    (shows : Shows branches (set :: sets)) (fails : ∀ an ∈ set, ∃ rest, an.goals = .fail :: rest) :
    ∃ next, Shows next sets ∧ Relation.ReflTransGen (Expands context) branches next := by
  obtain ⟨rfl, rest⟩ | ⟨branch, rest, rfl, rfl, -, shown⟩ := shows.cases_cons
  · exact ⟨branches, rest, .refl⟩
  obtain ⟨tasks, failing⟩ := fails _ branch.self_mem_instances
  obtain ⟨goal, goals, front, first, -⟩ := List.map_eq_cons_iff.1 failing
  cases goal with
  | call => cases first
  | fail => exact ⟨rest, shown, .single (.first (by simp [front]) (next_fail front))⟩

omit built named canonical in
/-- A call of a builtin leads to the branch that it leaves. -/
theorem Shows.builtin {branch : Resolvent} {branches : List Resolvent}
    {sets : List (Set (Instance Term))}
    {args : List Term} {builtin : Builtin} {arity : Nat} {goals : List Rule.Goal}
    (branch_canonical : branch.Canonical)
    (front : branch.goals = .call args (.builtin builtin arity) :: goals)
    (rest : Shows branches sets) {left : Set (Instance Term)}
    (same : left = shown (builtin.resolve args { branch with goals })) :
    ∃ next, Shows next (left :: sets) ∧
    Relation.ReflTransGen (Expands context) (branch :: branches) next := by
  obtain ⟨args_canonical, rest_canonical⟩ := branch_canonical.of_front front
  rw [same]
  exact ⟨_, .option (rest_canonical.builtin args_canonical builtin) rest,
    .single (.first (by simp [front]) (next_builtin front))⟩

/-- A call of a predicate leads to the branches that its candidates leave. -/
theorem Shows.predicate {branch : Resolvent} {branches : List Resolvent}
    {sets : List (Set (Instance Term))} {args : List Term} {goal : Functor} {goals : List Rule.Goal}
    (branch_canonical : branch.Canonical)
    (front : branch.goals = .call args (.predicate goal) :: goals) (rest : Shows branches sets)
    {kept : Candidate → Bool} {candidates : List Candidate}
    (among : ∀ candidate ∈ candidates, candidate ∈ context.candidates goal)
    (useless : ∀ candidate ∈ candidates, kept candidate = false →
      candidate.answers branch.instances = ∅) :
    Shows (candidates.filterMap (Candidate.resolve args { branch with goals }) ++ branches)
      ((candidates.filter kept).map (Candidate.answers branch.instances) ++ sets) := by
  induction candidates with
  | nil => exact rest
  | cons candidate candidates ih =>
    obtain ⟨here, others⟩ := List.forall_mem_cons.1 among
    obtain ⟨useless_here, useless_others⟩ := List.forall_mem_cons.1 useless
    obtain ⟨same, left_canonical⟩ :=
      Candidate.answers_eq built named canonical branch_canonical front here
    have later := ih others useless_others
    have split : (candidate :: candidates).filterMap
      (Candidate.resolve args { branch with goals }) =
        (candidate.resolve args { branch with goals }).toList ++
          candidates.filterMap (Candidate.resolve args { branch with goals }) := by
      cases left : candidate.resolve args { branch with goals } <;> simp [left]
    rw [split, List.append_assoc]
    by_cases keeps : kept candidate = true
    · rw [List.filter_cons_of_pos keeps, List.map_cons, List.cons_append, same]
      exact .option left_canonical later
    · rw [List.filter_cons_of_neg keeps]
      have missed := useless_here (by simpa using keeps)
      rw [same, shown_eq_empty] at missed
      rwa [missed]

omit built named canonical in
/-- A builtin that holds leads to the branch that it leaves. -/
theorem Shows.pass {set : Set (Instance Term)} {branches : List Resolvent}
    {sets : List (Set (Instance Term))}
    (shows : Shows branches (set :: sets)) {builtin : Builtin} {arity : Nat}
    (calls : Instance.Calls set (.builtin builtin arity))
    (sure : builtin ≠ .eq →
      ∀ args, (Instance.After set (.call args (.builtin builtin arity))).Nonempty →
      builtin.Passes args) :
    ∃ next, Shows next (Instance.Passing set builtin arity :: sets) ∧
      Relation.ReflTransGen (Expands context) branches next := by
  obtain ⟨rfl, rest⟩ | ⟨branch, rest, rfl, rfl, branch_canonical, shown⟩ := shows.cases_cons
  · have nothing : Instance.Passing (∅ : Set (Instance Term)) builtin arity = ∅ := by
      refine Set.eq_empty_iff_forall_notMem.2 fun an ↦ ?_
      rintro ⟨args, -, inside⟩
      exact inside
    rw [nothing]
    exact ⟨branches, .empty rest, .refl⟩
  obtain ⟨args, goals, front⟩ := exists_front calls
  refine Shows.builtin branch_canonical front shown ?_
  by_cases unifies : builtin = .eq
  · exact Builtin.passing_eq front unifies
  · have passes : builtin.Passes args := sure unifies args
      ⟨_, (mem_after_iff front).2 ⟨Term.var, (map_eval_var args).symm, rfl⟩⟩
    rw [Builtin.passing_test front unifies passes,
      (Builtin.resolve_test unifies (branch_canonical.of_front front).1).1 passes, shown_some]

omit built named canonical in
/-- A builtin that does not hold leads nowhere. -/
theorem Shows.reject {set : Set (Instance Term)} {branches : List Resolvent}
    {sets : List (Set (Instance Term))}
    (shows : Shows branches (set :: sets)) {builtin : Builtin} {arity : Nat}
    (calls : Instance.Calls set (.builtin builtin arity))
    (never : builtin = .eq → Instance.Passing set builtin arity = ∅)
    (unsure : builtin ≠ .eq → set = ∅ ∨ ∃ args,
      (Instance.After set (.call args (.builtin builtin arity))).Nonempty ∧ ¬builtin.Passes args) :
    ∃ next, Shows next sets ∧ Relation.ReflTransGen (Expands context) branches next := by
  obtain ⟨rfl, rest⟩ | ⟨branch, rest, rfl, rfl, branch_canonical, shown⟩ := shows.cases_cons
  · exact ⟨branches, rest, .refl⟩
  obtain ⟨args, goals, front⟩ := exists_front calls
  have missed : builtin.resolve args { branch with goals } = none := by
    by_cases unifies : builtin = .eq
    · rw [← shown_eq_empty, ← Builtin.passing_eq front unifies, never unifies]
    · refine (Builtin.resolve_test unifies (branch_canonical.of_front front).1).2 fun passes ↦ ?_
      obtain nothing | ⟨values, ⟨an, after⟩, fails⟩ := unsure unifies
      · exact absurd nothing (Set.Nonempty.ne_empty ⟨_, branch.self_mem_instances⟩)
      · obtain ⟨β, rfl, -⟩ := (mem_after_iff front).1 after
        exact fails (passes.map_eval unifies β)
  have leads : branch.next context = [] := by
    rw [next_builtin front, missed]
    rfl
  exact ⟨rest, shown, .single (.first (by simp [front]) leads)⟩

omit built named canonical in
/-- Candidates leave nothing of no instances. -/
theorem Shows.answers_empty {branches : List Resolvent} {sets : List (Set (Instance Term))}
    (shows : Shows branches sets) (candidates : List Candidate) :
    Shows branches (candidates.map (Candidate.answers ∅) ++ sets) := by
  induction candidates with
  | nil => exact shows
  | cons candidate candidates ih =>
    rw [List.map_cons, candidate.answers_empty]
    exact .empty ih

/-- What the machine has before it after a move are branches that the search comes to. -/
theorem Shows.move {exact : Prop} (nothing_lost : exact) {stage later : Stage Term}
    (move : Move exact context stage later) {branches : List Resolvent}
    (shows : Shows branches stage.sets) :
    ∃ next, Shows next later.sets ∧ Relation.ReflTransGen (Expands context) branches next := by
  cases move with
  | fail fails => exact Shows.fail shows (fails nothing_lost)
  | pass calls sure => exact Shows.pass shows calls sure
  | reject calls never unsure =>
    exact Shows.reject shows calls (never nothing_lost) (unsure nothing_lost)
  | call calls kept useless =>
    obtain ⟨rfl, rest⟩ | ⟨branch, rest, rfl, rfl, branch_canonical, shown⟩ := Shows.cases_cons shows
    · exact ⟨branches, Shows.answers_empty rest _, .refl⟩
    · obtain ⟨args, goals, front⟩ := exists_front calls
      exact ⟨_, Shows.predicate built named canonical branch_canonical front shown (fun _ ↦ id)
        (useless nothing_lost), .single (.first (by simp [front]) (next_predicate front))⟩
  | take => exact ⟨branches, shows, .refl⟩
  | skip useless =>
    rw [Stage.sets, List.flatMap_cons, List.map_cons, useless nothing_lost] at shows
    obtain ⟨-, rest⟩ | ⟨branch, -, -, same, -, -⟩ := Shows.cases_cons shows
    · exact ⟨branches, rest, .refl⟩
    · exact absurd same.symm (Set.Nonempty.ne_empty ⟨_, branch.self_mem_instances⟩)
  | pop => exact ⟨branches, shows, .refl⟩

theorem Shows.moves {exact : Prop} (nothing_lost : exact) {stage later : Stage Term}
    (moves : Moves exact context stage later) {branches : List Resolvent}
    (shows : Shows branches stage.sets) :
    ∃ next, Shows next later.sets ∧ Relation.ReflTransGen (Expands context) branches next := by
  induction moves with
  | refl => exact ⟨branches, shows, .refl⟩
  | tail _ last ih =>
    obtain ⟨middle, between, expanded⟩ := ih
    obtain ⟨next, after, more⟩ := between.move built named canonical nothing_lost last
    exact ⟨next, after, expanded.trans more⟩

end Resolvent

end Moves
end HornMachine
