import HornMachine.Proofs.GroundCalls
import HornMachine.Proofs.Saturation

/-!
# Saturation computes the least model

The rules of the program call predicates only, and the variables of each head are in the body. Facts
are asserted while the attempt that finds them goes on; they are consequences of those stored
before. A round that adds none, in which no attempt was broken off, has looked at every instance of
a rule whose goals are stored, so the facts are closed. Main statement: the facts after a saturation
that reached its fixpoint, with no attempt broken off, are the least closed set.
-/

namespace HornMachine

namespace Setting

variable {setting : Setting} {set : Set Term} {store : FactStore} {progress : Progress}

/-! ### Facts stay in a closed set -/

/-- The facts are canonical and members of a closed set. -/
structure Contained (setting : Setting) (set : Set Term) (store : FactStore) : Prop where
  canonical : (setting.context store).Canonical setting.program
  closed : setting.program.Closed store set

/-- A member of the set may be asserted. -/
theorem Contained.assert (contained : setting.Contained set store) {fact : Fact}
    (member : fact.term ∈ set) (canonical : fact.term.Canonical) :
    setting.Contained set (store.assert fact).2 where
  canonical := by
    refine ⟨rfl, contained.canonical.built.assert fact, fun other stored ↦ ?_⟩
    obtain old | rfl := FactStore.contains_assert.1 stored
    · exact contained.canonical.facts other old
    · exact canonical
  closed := by
    refine ⟨contained.closed.ground, fun other stored ↦ ?_, contained.closed.rules⟩
    obtain old | rfl := FactStore.contains_assert.1 stored
    · exact contained.closed.facts other old
    · exact member

/-- No fact is lost when a solution is taken. -/
theorem Progress.contains_take (progress : Progress) (solution : Solution) {fact : Fact}
    (stored : progress.store.contains fact) : (progress.take solution).store.contains fact := by
  unfold Progress.take
  dsimp only
  split
  · exact stored
  · exact FactStore.contains_assert.2 (.inl stored)

section Soundness

variable (built : setting.program.Built (Rule.AllFunctors fun functor ↦ 0 < functor.arity))
  (named : setting.program.registers ≤ Emit.maxRegister)
  (restricted : setting.program.RangeRestricted)

include built named restricted

theorem Contained.collectWithin {rule : RuleId} {goal : Option Term} {earlier : FactStore}
    {count : Nat} (contained : setting.Contained set progress.store)
    (attempting : Machine.Attempting setting.program rule goal (setting.context earlier)
      progress.machine)
    (more : ∀ fact, earlier.contains fact → progress.store.contains fact) :
    setting.Contained set (setting.collectWithin count progress).2.store := by
  induction count generalizing progress earlier with
  | zero => exact contained
  | succ count ih =>
    unfold Setting.collectWithin
    cases ended : Machine.nextSolution (setting.context progress.store) progress.machine with
    | error error machine => exact contained
    | ok result machine =>
      cases result with
      | none => exact contained
      | some solution =>
        have later := attempting.search contained.canonical more ended
        refine ih ?_ ((Progress.machine_take { progress with machine } solution).symm ▸ later)
          fun fact ↦
          Progress.contains_take { progress with machine } solution
        unfold Progress.take
        dsimp only
        split
        · exact contained
        · next fact made =>
          obtain ⟨member, canonical⟩ :=
            attempting.fact_mem built named restricted contained.canonical more
            contained.closed ended made
          exact contained.assert member canonical

/-- What an attempt asserts is in every closed set that has the facts. -/
theorem Contained.derive (contained : setting.Contained set store) (attempt : Attempt) :
    setting.Contained set (setting.derive store attempt).store := by
  have collected : setting.Contained set (setting.collect store attempt).2.store := by
    unfold collect
    dsimp only
    split
    · exact contained
    · next machine ended =>
      exact @Contained.collectWithin setting set { machine, store } built named restricted _ _ _ _
        contained (.start contained.canonical ended) fun _ ↦ id
  unfold Setting.derive
  split <;> rename_i same <;> rw [same] at collected <;> exact collected

theorem Contained.attemptAll (contained : setting.Contained set store) (attempts : List Attempt) :
    setting.Contained set (setting.attemptAll store attempts).2.2 := by
  induction attempts generalizing store with
  | nil => exact contained
  | cons attempt attempts ih => exact ih (contained.derive built named restricted attempt)

theorem Contained.afterRounds (contained : setting.Contained set store) (count : Nat) :
    setting.Contained set (setting.afterRounds count store) := by
  induction count generalizing store with
  | zero => exact contained
  | succ count ih => exact ih (contained.attemptAll built named restricted _)

end Soundness

/-! ### Attempts that add nothing -/

/-- A solution that adds no fact leaves the store alone, and its fact was stored. -/
theorem Progress.of_take (progress : Progress) (solution : Solution)
    (quiet : (progress.take solution).newFacts = []) :
    progress.newFacts = [] ∧ (progress.take solution).store = progress.store ∧
      ∀ fact ∈ solution.fact?, progress.store.contains fact := by
  unfold Progress.take at quiet ⊢
  dsimp only at quiet ⊢
  cases made : solution.fact? with
  | none =>
    simp only [made] at quiet
    exact ⟨quiet, rfl, nofun⟩
  | some fact =>
    simp only [made, FactStore.assert] at quiet ⊢
    by_cases known : progress.store.contains fact
    · simp only [known, if_true, Bool.false_eq_true, if_false] at quiet ⊢
      refine ⟨quiet, trivial, ?_⟩
      rintro _ ⟨⟩
      exact known
    · simp [known] at quiet

/-- Rounds lose no fact. -/
theorem contains_afterRounds (setting : Setting) (count : Nat) (store : FactStore) {fact : Fact}
    (stored : store.contains fact) : (setting.afterRounds count store).contains fact := by
  induction count generalizing store with
  | zero => exact stored
  | succ count ih =>
    obtain ⟨-, silent, gained, -⟩ := setting.exists_gains_attemptAll store setting.ruleAttempts
    exact ih _ ((gained.contains_iff fact).2 (.inl stored))

/-- An attempt that adds no fact leaves the store alone. -/
theorem collectWithin_of_quiet {count : Nat}
    (quiet : (setting.collectWithin count progress).2.newFacts = []) :
    progress.newFacts = [] ∧ (setting.collectWithin count progress).2.store = progress.store := by
  induction count generalizing progress with
  | zero => exact ⟨quiet, rfl⟩
  | succ count ih =>
    unfold Setting.collectWithin at quiet ⊢
    cases ended : Machine.nextSolution (setting.context progress.store) progress.machine with
    | error error machine =>
      simp only [ended] at quiet
      exact ⟨quiet, rfl⟩
    | ok result machine =>
      cases result with
      | none =>
        simp only [ended] at quiet
        exact ⟨quiet, rfl⟩
      | some solution =>
        simp only [ended] at quiet ⊢
        obtain ⟨none_taken, same⟩ := ih quiet
        obtain ⟨none_before, still, -⟩ :=
          Progress.of_take { progress with machine } solution none_taken
        exact ⟨none_before, same.trans still⟩

/-- What an attempt that ends well and adds no fact has collected. -/
theorem collect_of_derive {attempt : Attempt} {derivation : Derivation}
    (ended : (setting.derive store attempt).result = .ok derivation)
    (quiet : derivation.newFacts = []) :
    ∃ progress, setting.collect store attempt = (.ok (), progress) ∧ progress.newFacts = [] ∧
      (setting.derive store attempt).store = progress.store := by
  have sound := setting.sound_collect store attempt
  unfold derive at ended ⊢
  cases collected : setting.collect store attempt with
  | mk result progress =>
    rw [collected] at sound
    simp only [collected] at ended ⊢
    cases result with
    | error error => cases ended
    | ok done =>
      cases ended
      refine ⟨progress, rfl, ?_, rfl⟩
      unfold Derivation.ofParts at quiet
      split at quiet
      · next nothing => exact sound.found (by simpa using nothing)
      · simpa [Derivation.newFacts] using quiet

private theorem store_of_derive {attempt : Attempt} {derivation : Derivation}
    (ended : (setting.derive store attempt).result = .ok derivation)
    (quiet : derivation.newFacts = []) :
    (setting.derive store attempt).store = store := by
  obtain ⟨progress, collected, none_new, same⟩ := collect_of_derive ended quiet
  rw [same]
  unfold collect at collected
  dsimp only at collected
  split at collected
  · cases collected
  · next machine _ =>
    have kept := @collectWithin_of_quiet setting { machine, store }
      (Machine.solutionBound (setting.context store) machine) (by rw [collected]; exact none_new)
    rw [collected] at kept
    exact kept.2

/-- Every attempt of a list ends well and adds no fact. -/
def Quiet (setting : Setting) (store : FactStore) (attempts : List Attempt) : Prop :=
  ∀ stage ∈ setting.stages store attempts,
    ∃ derivation, stage.2.result = .ok derivation ∧ derivation.newFacts = []

/-- Then each of them begins with the same facts, which are those after all. -/
theorem Quiet.mem_stages {attempts : List Attempt} (quiet : setting.Quiet store attempts) :
    (∀ attempt ∈ attempts, (store, setting.derive store attempt) ∈ setting.stages store attempts) ∧
      (setting.attemptAll store attempts).2.2 = store := by
  induction attempts with
  | nil => exact ⟨nofun, rfl⟩
  | cons attempt attempts ih =>
    obtain ⟨⟨derivation, ended, none_new⟩, others⟩ := List.forall_mem_cons.1 quiet
    have same := store_of_derive ended none_new
    rw [same] at others
    obtain ⟨each, still⟩ := ih others
    constructor
    · rw [stages, same]
      exact List.forall_mem_cons.2 ⟨List.mem_cons_self, fun other member ↦
        List.mem_cons_of_mem _ (each other member)⟩
    · rw [attemptAll, same]
      exact still

/-! ### The last round -/

/-- A round that breaks nothing off runs every attempt to its end. -/
theorem ok_of_take_all {attempts : List Attempt} (outcomes : List Outcome) {begun done : Saturation}
    (taken : (attempts.zip (outcomes.map Outcome.result)).foldlM
      (fun (saturation : Saturation) (attempt, result) ↦ saturation.take attempt result) begun =
        .ok done)
    (lengths : outcomes.length = attempts.length) (whole : done.aborted = []) :
    begun.aborted = [] ∧ ∀ outcome ∈ outcomes, ∃ derivation, outcome.result = .ok derivation := by
  induction outcomes generalizing attempts begun with
  | nil =>
    simp only [List.map_nil, List.zip_nil_right, List.foldlM_nil] at taken
    cases taken
    exact ⟨whole, nofun⟩
  | cons outcome outcomes ih =>
    obtain ⟨attempt, attempts, rfl⟩ := List.exists_cons_of_length_eq_add_one lengths.symm
    simp only [List.map_cons, List.zip_cons_cons, List.foldlM_cons] at taken
    obtain ⟨next, first, rest⟩ := Except.bind_eq_ok.1 taken
    obtain ⟨none_yet, others⟩ := ih rest (by simpa using lengths)
    unfold Saturation.take at first
    split at first
    · next derivation ended =>
      cases first
      exact ⟨none_yet, List.forall_mem_cons.2 ⟨⟨derivation, ended⟩, others⟩⟩
    · cases first
    · cases first
      simp at none_yet

/-- A round that reports no fact and breaks nothing off is quiet. -/
theorem quiet_of_round {begun done : Saturation} {after : FactStore}
    (ran : setting.round begun store = (.ok done, after))
    (unchanged : done.newFacts.length = begun.newFacts.length) (whole : done.aborted = []) :
    setting.Quiet store setting.ruleAttempts := by
  have taken := congrArg Prod.fst ran
  simp only [round, attemptAll_results] at taken
  have results : (setting.stages store setting.ruleAttempts).map (fun stage ↦ stage.2.result) =
      ((setting.stages store setting.ruleAttempts).map Prod.snd).map Outcome.result := by
    rw [List.map_map]
    rfl
  rw [results] at taken
  have lengths : ((setting.stages store setting.ruleAttempts).map Prod.snd).length =
      setting.ruleAttempts.length := by rw [List.length_map, length_stages]
  have reported := (take_all _ taken lengths).1
  obtain ⟨-, each⟩ := ok_of_take_all _ taken lengths whole
  intro stage member
  obtain ⟨derivation, ended⟩ := each stage.2 (List.mem_map_of_mem member)
  refine ⟨derivation, ended, ?_⟩
  rw [reported, List.length_append, Nat.add_eq_left, List.length_eq_zero_iff,
    List.flatMap_eq_nil_iff]
    at unchanged
  have none_new := unchanged stage.2 (List.mem_map_of_mem member)
  rwa [Outcome.reported, ended] at none_new

/-- A fixpoint is reported after a round that reported no fact. -/
theorem exists_last_round {count : Nat} {begun done : Saturation} {after : FactStore}
    (open_ : begun.fixpoint = false)
    (ran : setting.saturateWithin count begun store = (.ok done, after))
    (fixpoint : done.fixpoint = true) :
    ∃ rounds earlier last, setting.round earlier (setting.afterRounds rounds store) =
      (.ok last, after) ∧
      last.newFacts.length = earlier.newFacts.length ∧ done.aborted = last.aborted := by
  induction count generalizing begun store with
  | zero =>
    cases ran
    exact absurd (open_.symm.trans fixpoint) nofun
  | succ count ih =>
    unfold Setting.saturateWithin at ran
    split at ran
    · cases ran
    · cases result : setting.round begun store with
      | mk ended next =>
        rw [result] at ran
        cases ended with
        | error error => cases ran
        | ok taken =>
          dsimp only at ran
          split at ran
          · next unchanged =>
            cases ran
            exact ⟨0, begun, taken, result, unchanged, rfl⟩
          · obtain ⟨same, -, still, -⟩ := exists_gains_round result
            obtain ⟨rounds, earlier, last, ran, unchanged, aborted⟩ := ih (still.trans open_) ran
            exact ⟨rounds + 1, earlier, last, by rwa [afterRounds, ← same], unchanged, aborted⟩

/-- A saturation that reached its fixpoint with nothing broken off has a quiet round behind it. -/
theorem exists_quiet {saturation : Saturation} {after : FactStore}
    (ran : setting.saturate store = (.ok saturation, after)) (fixpoint : saturation.fixpoint = true)
    (whole : saturation.aborted = []) :
    (∃ rounds, after = setting.afterRounds rounds store) ∧
    setting.Quiet after setting.ruleAttempts := by
  unfold saturate at ran
  split at ran
  · next nothing =>
    cases ran
    refine ⟨⟨0, rfl⟩, ?_⟩
    have none_tried : setting.ruleAttempts = [] := by
      rw [ruleAttempts, Program.ruleIds, nothing]
      rfl
    rw [none_tried]
    exact nofun
  · obtain ⟨rounds, earlier, last, ran, unchanged, aborted⟩ := exists_last_round rfl ran fixpoint
    have quiet := quiet_of_round ran unchanged (aborted ▸ whole)
    have same : after = setting.afterRounds rounds store :=
      (congrArg Prod.snd ran).symm.trans quiet.mem_stages.2
    exact ⟨⟨rounds, same⟩, same ▸ quiet⟩

section Completeness

variable (built : setting.program.Built (Rule.AllFunctors fun functor ↦ 0 < functor.arity))
  (named : setting.program.registers ≤ Emit.maxRegister)
  (restricted : setting.program.RangeRestricted)

include built named restricted

/-- An attempt that runs to its end without adding a fact has found what it covers among the facts.
The count of solutions is not exhausted, since each takes an instruction. -/
theorem contains_of_collectWithin {rule : RuleId} {compiled : CompiledRule} {head : List Term}
    {count : Nat} {fact : Fact} (contained : setting.Contained set progress.store)
    (found : setting.program.rule? rule = some compiled)
    (covering : progress.machine.Covering setting.program rule compiled set head
      (setting.context progress.store))
    (few : progress.machine.steps ≤ setting.config.stepLimit)
    (enough : setting.config.stepLimit < progress.machine.steps + count)
    (ended : (setting.collectWithin count progress).1 = .ok ())
    (quiet : (setting.collectWithin count progress).2.newFacts = [])
    (same : fact.term = Term.apply compiled.head.symbol head) : progress.store.contains fact := by
  induction count generalizing progress with
  | zero => omega
  | succ count ih =>
    unfold Setting.collectWithin at ended quiet
    cases searched : Machine.nextSolution (setting.context progress.store) progress.machine with
    | error error machine => simp [searched] at ended
    | ok result machine =>
      obtain ⟨solution, rfl, here | later⟩ := covering.nextSolution built named restricted found
        contained.canonical contained.closed searched
      all_goals
        simp only [searched] at ended quiet
        have taken :=
          Progress.of_take { progress with machine } solution (collectWithin_of_quiet quiet).1
      · exact taken.2.2 fact (Fact.ofTerm?_eq_some_iff.2 (same.trans here.symm))
      · obtain ⟨more, limit⟩ := Machine.steps_nextSolution searched
        have machine_eq := Progress.machine_take { progress with machine } solution
        have store_eq := taken.2.1
        rw [← store_eq]
        refine ih ?_ ?_ ?_ ?_ ended quiet
        · rw [store_eq]
          exact contained
        · rw [machine_eq, store_eq]
          exact later
        · rw [machine_eq]
          exact limit
        · rw [machine_eq]
          dsimp only
          omega

/-- An attempt of a rule that runs to its end without adding a fact leaves the store alone, and the
rule is true of the stored terms. -/
theorem closed_of_derive {rule : RuleId} {compiled : CompiledRule}
    (contained : setting.Contained set store) (found : setting.program.rule? rule = some compiled)
    {derivation : Derivation} (ended : (setting.derive store { rule }).result = .ok derivation)
    (quiet : derivation.newFacts = []) {σ : Var → Term}
    (true_in : ∀ goal ∈ compiled.goals, goal.TrueIn store.terms σ) :
    compiled.rule.head.subst σ ∈ store.terms := by
  obtain ⟨fact, head, same⟩ :=
    built.exists_fact named restricted found contained.canonical contained.closed
    (show ∀ goal ∈ compiled.goals, goal.TrueIn (setting.context store).store.terms σ from true_in)
  obtain ⟨progress, collected, none_new, -⟩ := collect_of_derive ended quiet
  refine ⟨fact, ?_, head⟩
  unfold collect at collected
  dsimp only at collected
  cases started : Machine.start (setting.context store) rule none
      (Machine.new setting.program.registers) with
  | error error machine => simp [started] at collected
  | ok done machine =>
    simp only [started] at collected
    have covering : machine.Covering setting.program rule compiled set _ (setting.context store) :=
      Machine.covering_start built named restricted found contained.canonical started true_in
    have unspent := Machine.steps_start started
    refine @contains_of_collectWithin setting set { machine, store } built named restricted rule
      compiled _ (Machine.solutionBound (setting.context store) machine) fact contained found
      covering ?_ ?_ ?_ ?_ same
    · dsimp only
      omega
    · rw [Machine.solutionBound, show (setting.context store).stepLimit =
        setting.config.stepLimit from rfl]
      dsimp only
      omega
    · rw [collected]
    · rw [collected]
      exact none_new

/-- After a quiet round the stored terms are closed. -/
theorem Quiet.closed (quiet : setting.Quiet store setting.ruleAttempts)
    (contained : setting.Contained set store) : setting.program.Closed store store.terms where
  ground := by
    rintro _ ⟨fact, -, rfl⟩
    exact fact.ground
  facts fact stored := ⟨fact, stored, rfl⟩
  rules id compiled σ found _ true_in := by
    have listed : ({ rule := id } : Attempt) ∈ setting.ruleAttempts := by
      refine List.mem_map.2 ⟨id, List.mem_map.2 ⟨id.index, List.mem_range.2 ?_, rfl⟩, rfl⟩
      obtain ⟨lower, -⟩ := Array.getElem?_eq_some_iff.1 found
      exact lower
    obtain ⟨derivation, ended, none_new⟩ := quiet _ (quiet.mem_stages.1 _ listed)
    exact closed_of_derive built named restricted contained found ended none_new true_in

end Completeness

/-- After a saturation that reached its fixpoint with no attempt broken off, the facts are the least
set of ground terms that has the initial facts and is closed under the rules. -/
theorem saturate_isLeast {saturation : Saturation} {after : FactStore}
    (built : setting.program.Built (Rule.AllFunctors fun functor ↦ 0 < functor.arity))
    (named : setting.program.registers ≤ 65535) (restricted : setting.program.RangeRestricted)
    (stored : store.Built) (facts : ∀ fact, store.contains fact → fact.term.Canonical)
    (ran : setting.saturate store = (.ok saturation, after)) (fixpoint : saturation.fixpoint = true)
    (whole : saturation.aborted = []) :
    IsLeast {set | setting.program.Closed store set} after.terms := by
  obtain ⟨⟨rounds, same⟩, quiet⟩ := exists_quiet ran fixpoint whole
  have contained (set) (closed : setting.program.Closed store set) :
    setting.Contained set after := by
    rw [same]
    exact Contained.afterRounds built named restricted ⟨⟨rfl, stored, facts⟩, closed⟩ rounds
  constructor
  · have closed := quiet.closed built named restricted
      (contained _ (setting.program.isLeast_consequences store).1)
    refine ⟨closed.ground, fun fact known ↦ ⟨fact, ?_, rfl⟩, closed.rules⟩
    rw [same]
    exact setting.contains_afterRounds rounds store known
  · rintro set closed _ ⟨fact, known, rfl⟩
    exact (contained set closed).closed.facts fact known

end Setting

/-! ### A saturation -/

/-- A goal that calls a predicate. -/
def Rule.Goal.callsPredicate : Goal → Bool
  | .call _ (.predicate _) => true
  | _ => false

private theorem Program.rangeRestricted_selecting : Program.selecting.RangeRestricted := by
  have each : ∀ compiled ∈ Program.selecting.rules.toList,
      (∀ v ∈ compiled.rule.head.occurrences, ∃ goal ∈ compiled.rule.body, v ∈ goal.occurrences) ∧
        ∀ goal ∈ compiled.goals, goal.callsPredicate = true := by decide +kernel
  have listed {id : RuleId} {compiled : CompiledRule}
    (found : Program.selecting.rule? id = some compiled) :
      compiled ∈ Program.selecting.rules.toList :=
        Array.mem_toList_iff.2 (Array.mem_of_getElem? found)
  refine ⟨fun id compiled found ↦ (each compiled (listed found)).1,
    fun id compiled found args builtin arity member ↦ ?_⟩
  cases (each compiled (listed found)).2 _ member

namespace Setting

/-- The program with a limit on instructions. -/
def selecting (maxSteps : Nat) : Setting where
  program := .selecting
  config := { occursCheck := .on, maxRounds := 3, maxSteps }

/-- From `p(f(a))`, `p(a)` and `p(b)` the clauses and the rule derive `q(f(a))`, `q(b)`, `r(f(a))`
and `r(b)`. -/
theorem saturate_isLeast_selecting :
    let setting : Setting := selecting 100
    let store : FactStore := .ofFacts Fact.candidates
    let f_a : Term := .struct ⟨3⟩ [.atom ⟨4⟩]
    (setting.program.Built (Rule.AllFunctors fun functor ↦ 0 < functor.arity) ∧
      setting.program.registers ≤ 65535 ∧ setting.program.RangeRestricted ∧ store.Built ∧
      ∀ fact, store.contains fact → fact.term.Canonical) ∧
    ∃ saturation after, setting.saturate store = (.ok saturation, after) ∧
      saturation.fixpoint = true ∧ saturation.aborted = [] ∧ saturation.newFacts.map Fact.term =
        [.struct ⟨1⟩ [f_a], .struct ⟨1⟩ [.atom ⟨5⟩], .struct ⟨2⟩ [f_a], .struct ⟨2⟩ [.atom ⟨5⟩]] ∧
      IsLeast {set | setting.program.Closed store set} after.terms := by
  intro setting store f_a
  have named : setting.program.registers ≤ 65535 := by decide +kernel
  have canonical : (setting.context store).Canonical .selecting :=
    Context.canonical_selecting (List.Subset.refl _)
  have made : (setting.saturate store).1.map (fun saturation ↦
      (saturation.fixpoint, saturation.aborted, saturation.newFacts.map Fact.term)) =
        .ok (true, [], [.struct ⟨1⟩ [f_a], .struct ⟨1⟩ [.atom ⟨5⟩], .struct ⟨2⟩ [f_a],
          .struct ⟨2⟩ [.atom ⟨5⟩]]) := by
    decide +kernel
  rcases ran : setting.saturate store with ⟨result, after⟩
  rw [ran] at made
  obtain ⟨saturation, rfl, reports⟩ := Except.map_eq_ok.1 made
  obtain ⟨fixpoint, others⟩ := Prod.mk.inj reports
  obtain ⟨whole, found⟩ := Prod.mk.inj others
  exact ⟨⟨Program.built_selecting, named, Program.rangeRestricted_selecting, canonical.built,
    canonical.facts⟩,
    saturation, after, rfl, fixpoint, whole, found, saturate_isLeast Program.built_selecting named
      Program.rangeRestricted_selecting canonical.built canonical.facts ran fixpoint whole⟩

end Setting
end HornMachine
