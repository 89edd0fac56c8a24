import HornMachine.Proofs.Machine.Justification

/-!
# Instances whose goals are stored are not missed

A stage covers a head if an instance with that head whose goals are all stored facts is in the
branch, or is answered by a stored fact that is still to be tried at a choice point. Over an exact
domain no move uncovers a head. Main statement: a search that begins at such a stage ends with a
solution, and either the solution's branch has an instance with the head, or what is left to search
still covers it.
-/

namespace HornMachine

variable {D : Type} [Domain D] {context : Context} {exact : Prop} {head : List D}

/-! ### Stages -/

/-- A task that a stored fact answers. -/
def Task.Stored (context : Context) (task : Task D) : Prop :=
  ∃ fact ∈ context.store.factsOf fact.functor, task = .call fact.values (.predicate fact.functor)

/-- An instance of the set has the head, and stored facts are its goals. -/
def Instance.Supplied (context : Context) (head : List D) (set : Set (Instance D)) : Prop :=
  ∃ an ∈ set, an.head = head ∧ ∀ task ∈ an.goals, task.Stored context

/-- An instance with the head and stored goals is in the branch, or a stored fact that answers it is
to be tried at a choice point. -/
def Stage.Covers (context : Context) (head : List D) (stage : Stage D) : Prop :=
  (∃ set ∈ stage.current, Instance.Supplied context head set) ∨
    ∃ choice ∈ stage.choices, ∃ fact, .fact fact ∈ choice.2 ∧
      Instance.Supplied context head (Candidate.answers choice.1 (.fact fact))

namespace Instance.Supplied

variable {set : Set (Instance D)}

/-- The first goal of such an instance is no failure. -/
theorem not_fails (supplied : Supplied context head set) :
    ¬∀ an ∈ set, ∃ rest, an.goals = .fail :: rest := by
  intro fails
  obtain ⟨an, member, -, stored⟩ := supplied
  obtain ⟨rest, goals⟩ := fails an member
  obtain ⟨fact, -, same⟩ := stored .fail (goals ▸ List.mem_cons_self)
  cases same

/-- It calls no builtin. -/
theorem not_calls_builtin (supplied : Supplied context head set) {builtin : Builtin} {arity : Nat} :
    ¬Instance.Calls set (.builtin builtin arity) := by
  intro calls
  obtain ⟨an, member, -, stored⟩ := supplied
  obtain ⟨args, rest, goals⟩ := calls an member
  obtain ⟨fact, -, same⟩ := stored _ (goals ▸ List.mem_cons_self)
  cases same

/-- If it calls a predicate, a stored fact of the functor answers it. -/
theorem exists_answer (supplied : Supplied context head set) {goal : Functor}
    (calls : Instance.Calls set (.predicate goal)) :
    ∃ fact, .fact fact ∈ context.candidates goal ∧
      Supplied context head (Candidate.answers set (.fact fact)) := by
  obtain ⟨an, member, same_head, stored⟩ := supplied
  obtain ⟨args, rest, goals⟩ := calls an member
  rw [goals] at stored
  obtain ⟨⟨fact, listed, same⟩, others⟩ := List.forall_mem_cons.1 stored
  cases same
  refine ⟨fact, List.mem_append_left _ (List.mem_map_of_mem (Array.mem_toList_iff.2 listed)),
    ⟨rest, an.head, an.values⟩, ?_, same_head, others⟩
  exact show (⟨_ :: rest, an.head, an.values⟩ : Instance D) ∈ set from goals ▸ member

end Instance.Supplied

/-- No move uncovers a head. -/
theorem Stage.Covers.move {stage later : Stage D} (covers : stage.Covers context head)
    (nothing_lost : exact) (move : Move exact context stage later) : later.Covers context head := by
  cases move with
  | fail fails =>
    obtain ⟨_, ⟨⟩, supplied⟩ | older := covers
    · exact absurd (fails nothing_lost) supplied.not_fails
    · exact .inr older
  | pass calls | reject calls =>
    obtain ⟨_, ⟨⟩, supplied⟩ | older := covers
    · exact absurd calls supplied.not_calls_builtin
    · exact .inr older
  | @call set choices goal calls kept useless =>
    obtain ⟨_, ⟨⟩, supplied⟩ | ⟨choice, member, older⟩ := covers
    · obtain ⟨fact, among, answered⟩ := supplied.exists_answer calls
      refine .inr ⟨_, List.mem_cons_self, fact, List.mem_filter.2 ⟨among, ?_⟩, answered⟩
      by_contra left_out
      obtain ⟨an, member, -⟩ := answered
      rw [useless nothing_lost _ among (by simpa using left_out)] at member
      exact member
    · exact .inr ⟨choice, List.mem_cons_of_mem _ member, older⟩
  | @take set candidate candidates choices =>
    obtain ⟨_, ⟨⟩, -⟩ | ⟨choice, member, fact, among, answered⟩ := covers
    obtain rfl | older := List.mem_cons.1 member
    · obtain rfl | left := List.mem_cons.1 among
      · exact .inl ⟨_, rfl, answered⟩
      · exact .inr ⟨_, List.mem_cons_self, fact, left, answered⟩
    · exact .inr ⟨choice, List.mem_cons_of_mem _ older, fact, among, answered⟩
  | @skip set candidate candidates choices useless =>
    obtain ⟨_, ⟨⟩, -⟩ | ⟨choice, member, fact, among, answered⟩ := covers
    obtain rfl | older := List.mem_cons.1 member
    · obtain rfl | left := List.mem_cons.1 among
      · obtain ⟨an, inside, -⟩ := answered
        rw [useless nothing_lost] at inside
        cases inside
      · exact .inr ⟨_, List.mem_cons_self, fact, left, answered⟩
    · exact .inr ⟨choice, List.mem_cons_of_mem _ older, fact, among, answered⟩
  | pop =>
    obtain current | ⟨choice, member, fact, among, answered⟩ := covers
    · exact .inl current
    · obtain rfl | older := List.mem_cons.1 member
      · cases among
      · exact .inr ⟨choice, older, fact, among, answered⟩

theorem Stage.Covers.moves {stage later : Stage D} (covers : stage.Covers context head)
    (nothing_lost : exact) (moves : Moves exact context stage later) :
    later.Covers context head := by
  induction moves with
  | refl => exact covers
  | tail _ last ih => exact ih.move nothing_lost last

/-! ### Searches -/

/-- A search at a stage that covers a head ends with a solution, which is an instance with the head
unless the rest still covers it. -/
theorem Moment.Fits.covers_nextSolution {trial : Trial} {machine last : Machine}
    {origins : List Machine} {view : Machine.View} {result : Option Solution}
    (fits : Fits trial context ⟨machine, none, origins⟩ view) (runs : trial.Runs context)
    (sense : trial.Sense context) (nothing_lost : trial.Exact D)
    (ended : machine.nextSolution context = .ok result last)
    (covers : (view.stage D trial context machine.choices).Covers context head)
    {start : Set (Instance D)} {holds : Task D → Prop} (model : context.Model holds)
    (justified : (view.stage D trial context machine.choices).Justified context start holds) :
    ∃ solution set left after, result = some solution ∧
      trial.Emission D last solution set ∧ Instance.Justified start holds set ∧
      Fits trial context ⟨last, none, left⟩ after ∧
      (after.stage D trial context last.choices).Justified context start holds ∧
      ((∃ an ∈ set, an.head = head) ∨
        (after.stage D trial context last.choices).Covers context head) := by
  obtain ⟨left, after, later_fits, searches⟩ := fits.nextSolution (D := D) runs ended
  have searched := searches sense
  cases result with
  | none =>
    obtain ⟨_, ⟨⟩, -⟩ | ⟨_, ⟨⟩, -⟩ := covers.moves nothing_lost searched.1
  | some solution =>
    obtain ⟨set, choices, moves, closed, emission⟩ := searched
    have found := justified.moves model moves
    refine ⟨solution, set, left, after, rfl, emission, found.current set rfl, later_fits, ?_, ?_⟩
    · rw [closed]
      exact ⟨nofun, found.choices, found.among⟩
    · rw [closed]
      obtain ⟨_, ⟨⟩, an, member, same_head, -⟩ | older := covers.moves nothing_lost moves
      · exact .inl ⟨an, member, same_head⟩
      · exact .inr (.inr older)

end HornMachine
