import HornMachine.Proofs.StepLimits

/-!
# A derivation accounts for what was done

A machine counts a solution when it leaves the attempted rule, and hands it out at the end of the
search. Between two searches its head is asserted, which the calls still open then see. Main
statement: the store after an attempt that ran to its end is the one before with the new facts of
the derivation added in order, these are the facts among the heads of its solutions that the store
lacked, and the counters agree with both lists.
-/

namespace HornMachine

variable {context : Context}

/-! ### Solutions counted -/

namespace Moment

/-- As many solutions were handed out as are given, and one more is pending if the machine has
succeeded; all of them are counted. -/
def Counts (count : Nat) (moment : Moment) : Prop :=
  (moment.seeking = none ∧ moment.machine.status = .succeeded ∧ moment.machine.pending.isSome ∧
    moment.machine.stats.solutions = count + 1) ∨
  (moment.machine.status ≠ .succeeded ∧ moment.machine.stats.solutions = count)

/-- Leaving a rule goes on in the caller or finds a solution. -/
theorem Counts.leave {machine later : Machine} {count : Nat} {origins : List Machine}
    {compiled : CompiledRule} {success : Bool} (running : machine.status = .running)
    (counted : machine.stats.solutions = count)
    (ended : Exec.execute context compiled .proceed machine = .ok success later) :
    Counts count ⟨later.after success, none, origins⟩ := by
  obtain ⟨_, left, leaves, rest⟩ := bind_eq_ok.1 ended
  cases rest
  unfold Exec.proceed at leaves
  obtain ⟨_, _, read, leaves⟩ := bind_eq_ok.1 leaves
  cases read
  cases going : machine.continuation with
  | goTo caller offset =>
    simp only [going] at leaves
    cases leaves
    exact .inr ⟨by simp [Machine.after, running], counted⟩
  | halt =>
    simp only [going] at leaves
    obtain ⟨solution, middle, captured, leaves⟩ := bind_eq_ok.1 leaves
    have kept : Preserves machine.Quiet (Exec.capture compiled) :=
      Exec.preserves_capture (fun _ quiet ↦ quiet) compiled
    have quiet := (kept.ends (.refl machine)).ok solution middle captured
    cases leaves
    exact .inl ⟨rfl, rfl, rfl, congrArg (· + 1) (quiet.2.1.trans counted)⟩

/-- Each pass keeps the count. -/
theorem Counts.passes {moment later : Moment} {count : Nat} (counts : moment.Counts count)
    (passes : moment.Passes context later) : later.Counts count := by
  -- no pass begins where a solution is pending
  have open_count : moment.machine.status ≠ .succeeded → moment.machine.stats.solutions = count :=
    fun unsolved ↦ (counts.resolve_left fun solved ↦ unsolved solved.2.1).2
  have sought {number : Nat} (seeking : moment.seeking = some number) :
      moment.machine.status ≠ .succeeded ∧ moment.machine.stats.solutions = count :=
    counts.resolve_left fun solved ↦ by simp [seeking] at solved
  cases passes with
  | @run machine next origins compiled instruction success running fetches other ended =>
    have counted : machine.stats.solutions = count := open_count (by simp [running])
    by_cases leaves : instruction = .proceed
    · subst leaves
      exact .leave (show machine.begun.status = .running from running) counted ended
    · have quiet := Exec.preserves_execute_of_ne context compiled leaves machine.begun (.refl _)
      rw [ended] at quiet
      have status : next.status = .running := quiet.2.2.trans running
      have still : next.stats.solutions = count := quiet.2.1.trans counted
      cases success with
      | true => exact .inr ⟨by simp [Machine.after, status], still⟩
      | false => exact .inr ⟨by simp [Machine.after], still⟩
  | @call machine next origins compiled goal running fetches ended =>
    obtain ⟨rule, args, -, -, -, rfl⟩ := Exec.pushCall_eq_ok ended
    exact .inr ⟨by simp [running, Machine.begun], open_count (by simp [running])⟩
  | @miss machine next origins number ended =>
    have quiet := Exec.preserves_tryAnswer context (number + 1) machine (.refl _)
    rw [ended] at quiet
    obtain ⟨unsolved, counted⟩ := sought rfl
    exact .inr ⟨fun solved ↦ unsolved (quiet.2.2.symm.trans solved), quiet.2.1.trans counted⟩
  | @find machine next origins number ended =>
    have quiet := Exec.preserves_tryAnswer context number machine (.refl _)
    rw [ended] at quiet
    exact .inr ⟨by simp, quiet.2.1.trans (sought rfl).2⟩
  | @exhaust machine next origins number ended =>
    have quiet := Exec.preserves_tryAnswer context number machine (.refl _)
    rw [ended] at quiet
    exact .inr ⟨by simp, quiet.2.1.trans (sought rfl).2⟩
  | back backtracking stack =>
    exact .inr ⟨by simp [backtracking, Machine.returning], open_count (by simp [backtracking])⟩
  | stop backtracking stack => exact .inr ⟨by simp, open_count (by simp [backtracking])⟩

theorem Counts.reaches {moment later : Moment} {count : Nat} (counts : moment.Counts count)
    (reaches : moment.Reaches context later) : later.Counts count := by
  induction reaches with
  | refl => exact counts
  | tail _ last ih => exact ih.passes last

end Moment

/-- A search counts the solution it finds. -/
theorem Machine.solutions_nextSolution {machine later : Machine} {result : Option Solution}
    (ended : machine.nextSolution context = .ok result later) :
    later.stats.solutions = machine.stats.solutions + result.toList.length := by
  have search := Machine.reaches_nextSolution context machine []
  rw [ended] at search
  obtain ⟨last, left, reaches, ends⟩ := search
  have begun : Moment.Counts machine.stats.solutions ⟨machine.resumed, none, []⟩ := by
    unfold Machine.resumed
    split
    · exact .inr ⟨nofun, rfl⟩
    · next unsolved => exact .inr ⟨unsolved, rfl⟩
  obtain ⟨-, status, pending, counted⟩ | ⟨unsolved, counted⟩ := begun.reaches reaches
  · cases ends with
    | failed failed => simp [show later.status = .succeeded from status] at failed
    | succeeded =>
      obtain ⟨solution, found⟩ := Option.isSome_iff_exists.1 pending
      dsimp only at found
      simpa [found] using counted
  · cases ends with
    | failed => simpa using counted
    | succeeded solved => exact absurd solved unsolved

/-! ### New facts -/

namespace FactStore

/-- The facts among the heads of solutions that a store lacks, each once, in the order in which they
first appear. -/
def lacking (store : FactStore) (solutions : List Solution) : List Fact :=
  ((solutions.filterMap Solution.fact?).filter fun fact ↦ !store.contains fact).eraseDups

private theorem contains_foldl_append {store : FactStore} {facts : List Fact} {fact : Fact} :
    (facts.foldl append store).contains fact = true ↔ store.contains fact = true ∨
    fact ∈ facts := by
  induction facts generalizing store with
  | nil => simp
  | cons first facts ih => rw [List.foldl_cons, ih, contains_append, List.mem_cons, or_assoc]

/-- One more solution adds its head, if that is a fact that is neither stored nor among the
others. -/
theorem lacking_append_singleton (store : FactStore) (solutions : List Solution)
    (solution : Solution) :
    store.lacking (solutions ++ [solution]) = store.lacking solutions ++
      solution.fact?.toList.filter fun fact ↦
        !((store.lacking solutions).foldl append store).contains fact := by
  unfold lacking
  rw [List.filterMap_append, List.filter_append, List.eraseDups_append]
  congr 1
  cases head : solution.fact? with
  | none => simp [head, List.removeAll]
  | some fact =>
    generalize (solutions.filterMap Solution.fact?).filter _ = earlier
    have known : (earlier.eraseDups.foldl append store).contains fact =
        (store.contains fact || earlier.contains fact) := by
      rw [Bool.eq_iff_iff, contains_foldl_append, List.mem_eraseDups]
      simp
    simp only [List.filterMap_cons, head, List.filterMap_nil, Option.toList_some,
      List.filter_singleton, known, List.removeAll]
    cases store.contains fact <;> cases found : earlier.contains fact <;>
      simp_all [List.eraseDups_cons]

end FactStore

/-- The parts that a derivation is made of are its own. -/
theorem Derivation.parts_ofParts {facts : List Fact} {found : List Solution}
    (none : found = [] → facts = []) :
    (Derivation.ofParts facts found).newFacts = facts ∧
    (Derivation.ofParts facts found).solutions = found ∧
      (Derivation.ofParts facts found = .exhausted ↔ found = []) := by
  unfold Derivation.ofParts
  cases found with
  | nil => simp [Derivation.newFacts, Derivation.solutions, none]
  | cons first found => simp [Derivation.newFacts, Derivation.solutions]

namespace Setting

variable {setting : Setting} {store : FactStore} {attempt : Attempt} {progress : Progress}
  {derivation : Derivation}

/-- What was found so far accounts for the counters and for the store. -/
structure Progress.Accounted (store : FactStore) (progress : Progress) : Prop where
  solutions : progress.machine.stats.solutions = progress.solutions.length
  newFacts : progress.newFacts.reverse = store.lacking progress.solutions.reverse
  store : progress.store = progress.newFacts.reverse.foldl FactStore.append store

private theorem Progress.solutions_take (progress : Progress) (solution : Solution) :
    (progress.take solution).solutions = solution :: progress.solutions := by
  unfold Progress.take
  dsimp only
  split <;> rfl

/-- Taking a solution that was just found keeps the account. -/
theorem Progress.Accounted.take (accounted : progress.Accounted store) {machine : Machine}
    {solution : Solution}
    (counted : machine.stats.solutions = progress.machine.stats.solutions + 1) :
    (Progress.take { progress with machine } solution).Accounted store := by
  have lacking := store.lacking_append_singleton progress.solutions.reverse solution
  rw [← accounted.newFacts, ← accounted.store] at lacking
  refine ⟨?_, ?_, ?_⟩
  · rw [Progress.machine_take, Progress.solutions_take, counted, accounted.solutions,
      List.length_cons]
  · unfold Progress.take
    cases head : solution.fact? with
    | none => simpa [head] using lacking.symm
    | some fact =>
      cases known : progress.store.contains fact <;>
        simpa [head, known, FactStore.assert] using lacking.symm
  · unfold Progress.take
    cases head : solution.fact? with
    | none => exact accounted.store
    | some fact =>
      cases known : progress.store.contains fact with
      | true => simpa [FactStore.assert, known] using accounted.store
      | false => simp [FactStore.assert, known, ← accounted.store]

theorem Progress.Accounted.collectWithin {count : Nat} (accounted : progress.Accounted store)
    {after : Progress} (collected : setting.collectWithin count progress = (.ok (), after)) :
    after.Accounted store := by
  induction count generalizing progress with
  | zero =>
    cases collected
    exact accounted
  | succ count ih =>
    rw [Setting.collectWithin] at collected
    cases ended : Machine.nextSolution (setting.context progress.store) progress.machine with
    | error error machine =>
      rw [ended] at collected
      cases collected
    | ok found machine =>
      have counted := Machine.solutions_nextSolution ended
      rw [ended] at collected
      cases found with
      | none =>
        cases collected
        exact ⟨counted.trans accounted.solutions, accounted.newFacts, accounted.store⟩
      | some solution => exact ih (accounted.take counted) collected

/-- The search that an attempt starts with fails. -/
def Fruitless (setting : Setting) (store : FactStore) (attempt : Attempt) : Prop :=
  ∃ machine last, Machine.start (setting.context store) attempt.rule attempt.goal
      (.new setting.program.registers) = .ok ⟨⟩ machine ∧
    machine.nextSolution (setting.context store) = .ok none last

/-- An attempt that ran to its end accounts for its solutions and facts, and it took a solution
unless its first search failed. -/
theorem accounted_collect {after : Progress}
    (collected : setting.collect store attempt = (.ok (), after)) :
    after.Accounted store ∧ (after.solutions = [] ↔ setting.Fruitless store attempt) := by
  unfold collect at collected
  dsimp only at collected
  cases started : Machine.start (setting.context store) attempt.rule attempt.goal
    (.new setting.program.registers) with
  | error error machine =>
    rw [started] at collected
    cases collected
  | ok done machine =>
    simp only [started] at collected
    have begun : Progress.Accounted store { machine, store } := by
      refine ⟨?_, rfl, rfl⟩
      obtain ⟨compiled, found⟩ := Machine.exists_rule_of_start started
      obtain ⟨-, rfl⟩ | ⟨-, _, _, _, -, -, rfl⟩ := Machine.start_eq_ok found started
      · rfl
      · rfl
    refine ⟨begun.collectWithin collected, fun nothing ↦ ?_, ?_⟩
    · -- at least one search is made
      rw [Machine.solutionBound, Setting.collectWithin] at collected
      cases ended : machine.nextSolution (setting.context store) with
      | error error last =>
        rw [ended] at collected
        cases collected
      | ok result last =>
        cases result with
        | none => exact ⟨machine, last, started, ended⟩
        | some solution =>
          rw [ended] at collected
          have prefixed :=
            (Progress.precedes_collectWithin setting ((setting.context store).stepLimit -
            machine.steps) (Progress.take { machine := last, store } solution)).solutions
          have same : (setting.collectWithin ((setting.context store).stepLimit - machine.steps)
            (Progress.take { machine := last, store } solution)).2 = after :=
              congrArg Prod.snd collected
          rw [same, nothing, Progress.solutions_take] at prefixed
          simp at prefixed
    · rintro ⟨_, last, again, failed⟩
      cases started.symm.trans again
      rw [Machine.solutionBound, Setting.collectWithin, failed] at collected
      cases collected
      rfl

/-- A derivation is made of what was collected. -/
theorem exists_collect_of_derive (ended : (setting.derive store attempt).result = .ok derivation) :
    ∃ progress, setting.collect store attempt = (.ok (), progress) ∧
      setting.derive store attempt =
        { result := .ok (.ofParts progress.newFacts.reverse progress.solutions.reverse)
          stats := { progress.machine.stats with
            factsAsserted := progress.machine.stats.factsAsserted + progress.newFacts.length }
          store := progress.store } := by
  unfold derive at ended ⊢
  split at ended
  · cases ended
  · next progress collected => exact ⟨progress, collected, rfl⟩

/-- A derivation accounts for everything its attempt did. The store afterwards is the one before
with the new facts added in their order, and nothing else. The new facts are those among the heads
of the solutions that were not stored before, each once, in the order in which they first appear. As
many solutions and new facts are counted as there are. The attempt is exhausted just when there was
no solution, that is when its first search failed, and the store is then unchanged. -/
theorem derive_accounts (ended : (setting.derive store attempt).result = .ok derivation) :
    (setting.derive store attempt).store = derivation.newFacts.foldl FactStore.append store ∧
    derivation.newFacts = store.lacking derivation.solutions ∧
    (setting.derive store attempt).stats.solutions = derivation.solutions.length ∧
    (setting.derive store attempt).stats.factsAsserted = derivation.newFacts.length ∧
    (derivation = .exhausted ↔ derivation.solutions = []) ∧
    (derivation = .exhausted ↔ setting.Fruitless store attempt) ∧
    (derivation = .exhausted → (setting.derive store attempt).store = store) := by
  obtain ⟨progress, collected, same⟩ := exists_collect_of_derive ended
  obtain ⟨accounted, fruitless⟩ := accounted_collect collected
  have quiet : progress.machine.stats.factsAsserted = 0 := by
    have counted := (setting.sound_collect store attempt).counted
    rwa [collected] at counted
  have none_new (nothing : progress.solutions.reverse = []) : progress.newFacts.reverse = [] := by
    rw [accounted.newFacts, nothing]
    rfl
  have nothing : progress.solutions.reverse = [] ↔ progress.solutions = [] :=
    List.reverse_eq_nil_iff
  rw [same] at ended ⊢
  cases ended
  obtain ⟨newFacts, solutions, exhausted⟩ := Derivation.parts_ofParts none_new
  rw [newFacts, solutions]
  refine ⟨accounted.store, accounted.newFacts, by simpa using accounted.solutions, ?_, exhausted,
    exhausted.trans (nothing.trans fruitless), fun ended ↦ ?_⟩
  · rw [List.length_reverse, quiet, Nat.zero_add]
  · rw [accounted.store, none_new (exhausted.1 ended)]
    rfl

/-- The facts that the rule derives are new at first, and then they are solutions but not new. A
rule without facts to select from has no solution. -/
theorem derive_accounts_selecting :
    let setting : Setting := selecting 100
    let store : FactStore := .ofFacts Fact.candidates
    let attempt : Attempt := { rule := ⟨2⟩ }
    let heads : List Term := [.struct ⟨2⟩ [.struct ⟨3⟩ [.atom ⟨4⟩]], .struct ⟨2⟩ [.atom ⟨5⟩]]
    (∃ first second : Derivation, (setting.derive store attempt).result = .ok first ∧
      (setting.derive (first.newFacts.foldl .append store) attempt).result = .ok second ∧
      first.newFacts.map Fact.term = heads ∧ second.newFacts = [] ∧
        second.solutions.map (·.head) = heads ∧
      store.lacking first.solutions = first.newFacts ∧
      (first.newFacts.foldl .append store).lacking second.solutions = [] ∧
      (setting.derive store attempt).store = first.newFacts.foldl .append store ∧
      (setting.derive (first.newFacts.foldl .append store) attempt).store =
        first.newFacts.foldl .append store) ∧
    ∃ none_found : Derivation, (setting.derive .empty attempt).result = .ok none_found ∧
      none_found = .exhausted ∧
      setting.Fruitless .empty attempt := by
  intro setting store attempt heads
  have made : (setting.derive store attempt).result.map (·.newFacts.map Fact.term) = .ok heads := by
    decide +kernel
  have again : (setting.derive (setting.derive store attempt).store attempt).result.map
      (fun derivation ↦ (derivation.newFacts, derivation.solutions.map (·.head))) =
        .ok ([], heads) := by
    decide +kernel
  have fruitless : (setting.derive .empty attempt).result = .ok .exhausted := by decide +kernel
  obtain ⟨first, ended, new⟩ := Except.map_eq_ok.1 made
  obtain ⟨stored, lacking, -⟩ := derive_accounts ended
  rw [stored] at again
  obtain ⟨second, ended', found⟩ := Except.map_eq_ok.1 again
  obtain ⟨nothing, solutions⟩ := Prod.mk.inj found
  obtain ⟨stored', lacking', -⟩ := derive_accounts ended'
  obtain ⟨-, -, -, -, -, exhausted, -⟩ := derive_accounts fruitless
  refine ⟨⟨first, second, ended, ended', new, nothing, solutions, lacking.symm,
    lacking'.symm.trans nothing, stored, ?_⟩, .exhausted, fruitless, rfl, exhausted.1 rfl⟩
  rw [stored', nothing]
  rfl

end Setting
end HornMachine
