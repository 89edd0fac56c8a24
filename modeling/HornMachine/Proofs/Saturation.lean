import HornMachine.Proofs.FactStore
import HornMachine.Proofs.Machine.Counters
import HornMachine.Saturation

/-!
# What a saturation reports

A store gains a list of facts when the list holds, each once, the facts it has afterwards and had
not before. An attempt that runs to its end reports the facts the store gained by it; one that is
broken off reports none, though it may have asserted some before. A round is clean when no attempt
of it that was broken off asserted a fact. Main statement: the facts a saturation reports are those
the store gained exactly when every round was clean, and a fixpoint it reports is one exactly when
the last round was clean.
-/

namespace HornMachine

namespace FactStore

/-- After is the store before with the facts of a list, each of which is new. -/
structure Gains (before : FactStore) (facts : List Fact) (after : FactStore) : Prop where
  nodup : facts.Nodup
  fresh : ∀ fact ∈ facts, before.contains fact = false
  /-- The facts after are those before and those listed. -/
  contains_iff : ∀ fact, after.contains fact ↔ before.contains fact ∨ fact ∈ facts
  size : after.size = before.size + facts.length

private theorem gains_nil (store : FactStore) : store.Gains [] store where
  nodup := List.nodup_nil
  fresh := by simp
  contains_iff := by simp
  size := rfl

variable {before middle after : FactStore} {first second : List Fact}

theorem Gains.append (earlier : before.Gains first middle) (later : middle.Gains second after) :
    before.Gains (first ++ second) after where
  nodup := by
    refine List.nodup_append.2 ⟨earlier.nodup, later.nodup,
      fun fact inFirst other inSecond same ↦ ?_⟩
    have absent := later.fresh fact (same ▸ inSecond)
    have present := (earlier.contains_iff fact).2 (.inr inFirst)
    simp [absent] at present
  fresh fact listed := by
    rcases List.mem_append.1 listed with inFirst | inSecond
    · exact earlier.fresh fact inFirst
    · have absent := later.fresh fact inSecond
      have apart := mt (earlier.contains_iff fact).2 (by simp [absent])
      simpa using fun present ↦ apart (.inl present)
  contains_iff fact := by
    rw [later.contains_iff, earlier.contains_iff, List.mem_append, or_assoc]
  size := by rw [later.size, earlier.size, List.length_append, Nat.add_assoc]

private theorem Gains.perm (gained : before.Gains first after) (same : first.Perm second) :
    before.Gains second after where
  nodup := same.nodup_iff.1 gained.nodup
  fresh fact listed := gained.fresh fact (same.mem_iff.2 listed)
  contains_iff fact := by rw [gained.contains_iff, same.mem_iff]
  size := by rw [gained.size, same.length_eq]

/-- Nothing is left to report when the reported facts are all that was gained. -/
theorem Gains.reported_iff {reported silent : List Fact}
    (gained : before.Gains (reported ++ silent) after) :
    before.Gains reported after ↔ silent = [] := by
  constructor
  · intro all
    have lengths := all.size.symm.trans gained.size
    simpa using lengths
  · rintro rfl
    simpa using gained

private theorem Gains.unchanged_iff {silent : List Fact} (gained : before.Gains silent after) :
    (∀ fact, after.contains fact → before.contains fact) ↔ silent = [] := by
  constructor
  · intro unchanged
    refine List.eq_nil_iff_forall_not_mem.2 fun fact listed ↦ ?_
    have present := unchanged fact ((gained.contains_iff fact).2 (.inr listed))
    simp [gained.fresh fact listed] at present
  · rintro rfl fact present
    simpa using (gained.contains_iff fact).1 present

/-- Asserting a fact gains it if it is new. -/
theorem gains_assert (store : FactStore) (fact : Fact) :
    store.Gains (if (store.assert fact).1 then [fact] else []) (store.assert fact).2 := by
  unfold assert
  split
  · exact store.gains_nil
  · rename_i absent
    have missing : fact ∉ store.known := by simpa [contains] using absent
    exact {
      nodup := by simp
      fresh := by simpa using absent
      contains_iff other := by
        rw [if_pos rfl, List.mem_singleton]
        exact contains_append
      size := by simp [size, FactStore.append, Std.TreeSet.size_insert, missing] }

end FactStore

namespace Setting

variable {setting : Setting}

/-! ### One attempt -/

/-- The store of an attempt has gained the facts noted as new, and each of them came with a
solution. -/
structure Progress.Sound (store : FactStore) (progress : Progress) : Prop where
  gains : store.Gains progress.newFacts.reverse progress.store
  found : progress.solutions = [] → progress.newFacts = []
  counted : progress.machine.Asserted 0

variable {store : FactStore} {progress : Progress}

theorem Progress.machine_take (progress : Progress) (solution : Solution) :
    (progress.take solution).machine = progress.machine := by
  unfold Progress.take
  dsimp only
  split
  · rfl
  · rfl

theorem Progress.Sound.take (sound : progress.Sound store) (solution : Solution) :
    (progress.take solution).Sound store := by
  unfold Progress.take
  dsimp only
  split
  · exact ⟨sound.gains, by simp, sound.counted⟩
  · rename_i fact _
    have asserted := progress.store.gains_assert fact
    refine ⟨?_, by simp, sound.counted⟩
    have both := sound.gains.append asserted
    dsimp only
    split
    · rename_i isNew
      simpa [isNew] using both
    · rename_i known
      simpa [known] using both

/-- Each turn of an attempt keeps the account of its facts. -/
theorem Progress.Sound.collectWithin {count : Nat} (sound : progress.Sound store) :
    (setting.collectWithin count progress).2.Sound store := by
  induction count generalizing progress with
  | zero => exact sound
  | succ count ih =>
    have quiet := Machine.preserves_asserted
      (fun _ ↦ Machine.preserves_nextSolution (setting.context progress.store)) _ sound.counted
    unfold Setting.collectWithin
    cases ended : Machine.nextSolution (setting.context progress.store) progress.machine with
    | error error machine =>
      rw [ended] at quiet
      exact ⟨sound.gains, sound.found, quiet⟩
    | ok result machine =>
      rw [ended] at quiet
      have still : Progress.Sound store { progress with machine } :=
        ⟨sound.gains, sound.found, quiet⟩
      cases result with
      | none => exact still
      | some solution => exact ih (still.take solution)

theorem sound_collect (setting : Setting) (store : FactStore) (attempt : Attempt) :
    (setting.collect store attempt).2.Sound store := by
  have quiet := Machine.preserves_asserted
    (fun _ ↦ Machine.preserves_start (setting.context store) attempt.rule attempt.goal)
    (Machine.new setting.program.registers) (show Machine.Asserted 0 _ from rfl)
  unfold collect
  dsimp only
  cases ended : Machine.start (setting.context store) attempt.rule attempt.goal
    (Machine.new setting.program.registers) with
  | error error machine =>
    rw [ended] at quiet
    exact ⟨store.gains_nil, by simp, quiet⟩
  | ok result machine =>
    rw [ended] at quiet
    have begun : Progress.Sound store { machine, store } := ⟨store.gains_nil, by simp, quiet⟩
    exact begun.collectWithin

/-- The facts an attempt reports. -/
def Outcome.reported (outcome : Outcome) : List Fact :=
  match outcome.result with
  | .ok derivation => derivation.newFacts
  | .error _ => []

/-- The attempt was not broken off, or had asserted nothing before. -/
def Outcome.Clean (before : FactStore) (outcome : Outcome) : Prop :=
  ∀ error, outcome.result = .error error →
    ∀ fact, outcome.store.contains fact → before.contains fact

/-- An attempt counts what it reports, and what it keeps silent about is what it asserted before it
was broken off. -/
theorem exists_gains_derive (setting : Setting) (store : FactStore) (attempt : Attempt) :
    (setting.derive store attempt).stats.factsAsserted =
        (setting.derive store attempt).reported.length ∧
      ∃ silent, store.Gains ((setting.derive store attempt).reported ++ silent)
          (setting.derive store attempt).store ∧
        ((setting.derive store attempt).Clean store ↔ silent = []) := by
  have sound := setting.sound_collect store attempt
  unfold derive
  split
  · rename_i error progress collected
    rw [collected] at sound
    refine ⟨sound.counted, progress.newFacts.reverse, sound.gains, ?_⟩
    rw [← sound.gains.unchanged_iff]
    exact ⟨fun clean ↦ clean error rfl, fun unchanged _ _ ↦ unchanged⟩
  · rename_i progress collected
    rw [collected] at sound
    have reported : (Derivation.ofParts progress.newFacts.reverse
        progress.solutions.reverse).newFacts = progress.newFacts.reverse := by
      unfold Derivation.ofParts
      split
      · rename_i nothing
        have none := sound.found (by simpa using nothing)
        simpa [Derivation.newFacts] using none
      · rfl
    refine ⟨?_, [], ?_, ?_⟩
    · simp only [Outcome.reported, reported, List.length_reverse]
      rw [show progress.machine.stats.factsAsserted = 0 from sound.counted, Nat.zero_add]
    · simpa [Outcome.reported, reported] using sound.gains
    · simp [Outcome.Clean]

/-! ### Rounds -/

/-- The attempts of a list run one after another: the facts before each and what came of it. -/
def stages (setting : Setting) : FactStore → List Attempt → List (FactStore × Outcome)
  | _, [] => []
  | store, attempt :: attempts =>
    let outcome := setting.derive store attempt
    (store, outcome) :: setting.stages outcome.store attempts

/-- No attempt of a round that was broken off asserted a fact. -/
def CleanRound (setting : Setting) (store : FactStore) : Prop :=
  ∀ stage ∈ setting.stages store setting.ruleAttempts, stage.2.Clean stage.1

/-- The facts after a round. -/
def afterRound (setting : Setting) (store : FactStore) : FactStore :=
  (setting.attemptAll store setting.ruleAttempts).2.2

/-- The facts after a number of rounds. -/
def afterRounds (setting : Setting) : Nat → FactStore → FactStore
  | 0, store => store
  | count + 1, store => setting.afterRounds count (setting.afterRound store)

/-- The results of the stages are those of the attempts. -/
theorem attemptAll_results (setting : Setting) (store : FactStore) (attempts : List Attempt) :
    (setting.attemptAll store attempts).1 =
      (setting.stages store attempts).map fun stage ↦ stage.2.result := by
  induction attempts generalizing store with
  | nil => rfl
  | cons attempt attempts ih => simp [attemptAll, stages, ih]

theorem exists_gains_attemptAll (setting : Setting) (store : FactStore)
    (attempts : List Attempt) :
    (setting.attemptAll store attempts).2.1.factsAsserted =
        ((setting.stages store attempts).flatMap fun stage ↦ stage.2.reported).length ∧
      ∃ silent, store.Gains
          (((setting.stages store attempts).flatMap fun stage ↦ stage.2.reported) ++ silent)
          (setting.attemptAll store attempts).2.2 ∧
        ((∀ stage ∈ setting.stages store attempts, stage.2.Clean stage.1) ↔ silent = []) := by
  induction attempts generalizing store with
  | nil => exact ⟨rfl, [], store.gains_nil, by simp [stages]⟩
  | cons attempt attempts ih =>
    obtain ⟨counted, silent, gained, clean⟩ := setting.exists_gains_derive store attempt
    obtain ⟨countedLater, silentLater, gainedLater, cleanLater⟩ :=
      ih (setting.derive store attempt).store
    refine ⟨?_, silent ++ silentLater, ?_, ?_⟩
    · simp only [attemptAll, stages, List.flatMap_cons, List.length_append]
      rw [← counted, ← countedLater]
      rfl
    · refine (gained.append gainedLater).perm ?_
      simp only [stages, List.flatMap_cons, List.append_assoc]
      refine List.Perm.append_left _ ?_
      rw [← List.append_assoc, ← List.append_assoc]
      exact List.perm_append_comm.append_right _
    · simp only [stages, List.forall_mem_cons, List.append_eq_nil_iff]
      exact and_congr clean cleanLater

/-- A round that was not cancelled adds the reported facts. -/
theorem take_all {attempts : List Attempt} (outcomes : List Outcome) {begun done : Saturation}
    (taken : (attempts.zip (outcomes.map Outcome.result)).foldlM
      (fun (saturation : Saturation) (attempt, result) ↦ saturation.take attempt result) begun =
        .ok done)
    (lengths : outcomes.length = attempts.length) :
    done.newFacts = begun.newFacts ++ outcomes.flatMap Outcome.reported ∧
      done.rounds = begun.rounds ∧ done.stats = begun.stats ∧ done.fixpoint = begun.fixpoint := by
  induction outcomes generalizing attempts begun with
  | nil =>
    simp only [List.map_nil, List.zip_nil_right, List.foldlM_nil] at taken
    cases taken
    simp
  | cons outcome outcomes ih =>
    obtain ⟨attempt, attempts, rfl⟩ := List.exists_cons_of_length_eq_add_one lengths.symm
    simp only [List.map_cons, List.zip_cons_cons, List.foldlM_cons] at taken
    obtain ⟨next, first, rest⟩ := Except.bind_eq_ok.1 taken
    have later := ih rest (by simpa using lengths)
    have here : next.newFacts = begun.newFacts ++ outcome.reported ∧
        next.rounds = begun.rounds ∧ next.stats = begun.stats ∧ next.fixpoint = begun.fixpoint := by
      unfold Saturation.take at first
      split at first
      · rename_i ended
        cases first
        simp [Outcome.reported, ended]
      · cases first
      · rename_i ended
        cases first
        simp [Outcome.reported, ended]
    refine ⟨?_, later.2.1.trans here.2.1, later.2.2.1.trans here.2.2.1,
      later.2.2.2.trans here.2.2.2⟩
    rw [later.1, here.1, List.flatMap_cons, List.append_assoc]

theorem length_stages (setting : Setting) (store : FactStore) (attempts : List Attempt) :
    (setting.stages store attempts).length = attempts.length := by
  induction attempts generalizing store with
  | nil => rfl
  | cons attempt attempts ih => simp [stages, ih]

/-- A round reports and counts facts the store gained by it, and all of them if it is clean. -/
theorem exists_gains_round {begun done : Saturation} {after : FactStore}
    (ran : setting.round begun store = (.ok done, after)) :
    after = setting.afterRound store ∧ done.rounds = begun.rounds + 1 ∧
      done.fixpoint = begun.fixpoint ∧
      ∃ reported silent, done.newFacts = begun.newFacts ++ reported ∧
        done.stats.factsAsserted = begun.stats.factsAsserted + reported.length ∧
        store.Gains (reported ++ silent) after ∧ (setting.CleanRound store ↔ silent = []) := by
  obtain ⟨counted, silent, gained, clean⟩ :=
    setting.exists_gains_attemptAll store setting.ruleAttempts
  have same : after = setting.afterRound store := (congrArg Prod.snd ran).symm
  have taken := congrArg Prod.fst ran
  simp only [round, attemptAll_results] at taken
  have ended := take_all ((setting.stages store setting.ruleAttempts).map Prod.snd)
    (by simpa [Function.comp_def] using taken) (by simp [length_stages])
  refine ⟨same, ended.2.1, ended.2.2.2, _, silent, ended.1, ?_, ?_, clean⟩
  · rw [ended.2.2.1, List.flatMap_map, ← counted]
    rfl
  · rw [same, List.flatMap_map]
    exact gained

/-! ### Whole runs -/

/-- What a saturation that has run some rounds knows of the facts gained since. -/
structure Account (setting : Setting) (store : FactStore) (saturation : Saturation)
    (after : FactStore) (silent : List Fact) : Prop where
  stored : after = setting.afterRounds saturation.rounds store
  counted : saturation.stats.factsAsserted = saturation.newFacts.length
  gains : store.Gains (saturation.newFacts ++ silent) after
  clean : (∀ count < saturation.rounds, setting.CleanRound (setting.afterRounds count store)) ↔
    silent = []

private theorem account_nil (setting : Setting) (store : FactStore) (fixpoint : Bool) :
    setting.Account store { fixpoint } store [] where
  stored := rfl
  counted := rfl
  gains := store.gains_nil
  clean := by simp

private theorem afterRounds_succ (setting : Setting) (count : Nat) (store : FactStore) :
    setting.afterRounds (count + 1) store =
      setting.afterRound (setting.afterRounds count store) := by
  induction count generalizing store with
  | zero => rfl
  | succ count ih => exact ih _

/-- A further round extends the account. -/
theorem Account.round {begun done : Saturation} {middle after : FactStore} {silent : List Fact}
    (account : setting.Account store begun middle silent)
    (ran : setting.round begun middle = (.ok done, after)) :
    ∃ added, setting.Account store done after (silent ++ added) ∧
      (done.newFacts.length = begun.newFacts.length → middle.Gains added after) ∧
      (setting.CleanRound middle ↔ added = []) := by
  obtain ⟨same, rounds, -, reported, added, newFacts, counted, gained, clean⟩ :=
    exists_gains_round ran
  refine ⟨added, ⟨?_, ?_, ?_, ?_⟩, ?_, clean⟩
  · rw [same, rounds, afterRounds_succ, ← account.stored]
  · rw [counted, newFacts, account.counted, List.length_append]
  · refine (account.gains.append gained).perm ?_
    simp only [newFacts, List.append_assoc]
    refine List.Perm.append_left _ ?_
    rw [← List.append_assoc, ← List.append_assoc]
    exact List.perm_append_comm.append_right _
  · rw [rounds, List.append_eq_nil_iff, ← account.clean, ← clean, account.stored]
    simp only [Nat.lt_succ_iff_lt_or_eq, or_imp, forall_and, forall_eq]
  · intro unchanged
    have nothing : reported = [] := by simpa [newFacts] using unchanged
    simpa [nothing] using gained

/-- The rounds of a saturation extend the account, and a fixpoint is reported after a round that
reported no fact. -/
theorem Account.saturateWithin {count : Nat} {begun done : Saturation} {middle after : FactStore}
    {silent : List Fact} (account : setting.Account store begun middle silent)
    (open_ : begun.fixpoint = false)
    (ran : setting.saturateWithin count begun middle = (.ok done, after)) :
    ∃ added, setting.Account store done after (silent ++ added) ∧
      (done.fixpoint = true → ∃ earlier last, done.rounds = earlier + 1 ∧
        (setting.afterRounds earlier store).Gains last after ∧
        (setting.CleanRound (setting.afterRounds earlier store) ↔ last = [])) := by
  induction count generalizing begun middle silent with
  | zero =>
    cases ran
    exact ⟨[], by simpa using account, by simp [open_]⟩
  | succ count ih =>
    unfold Setting.saturateWithin at ran
    split at ran
    · cases ran
    · cases result : setting.round begun middle with
      | mk ended next =>
        rw [result] at ran
        cases ended with
        | error error => cases ran
        | ok taken =>
          obtain ⟨added, extended, last, clean⟩ := account.round result
          obtain ⟨-, rounds, still, -⟩ := exists_gains_round result
          dsimp only at ran
          split at ran
          · rename_i unchanged
            cases ran
            refine ⟨added, ⟨extended.stored, extended.counted, extended.gains, extended.clean⟩,
              fun _ ↦ ⟨begun.rounds, added, rounds, ?_, ?_⟩⟩
            · rw [← account.stored]
              exact last unchanged
            · rw [← account.stored]
              exact clean
          · obtain ⟨later, account', fixpoint⟩ := ih extended (still.trans open_) ran
            exact ⟨added ++ later, by simpa [List.append_assoc] using account', fixpoint⟩

/-- A saturation counts the facts it reports; they are the facts the store gained exactly when no
attempt broken off in one of its rounds had asserted a fact, and so is their number. A reported
fixpoint comes after a round, unless there are no rules, and that round added no fact exactly when
no attempt broken off in it had. -/
theorem saturate_honest_iff {saturation : Saturation} {after : FactStore}
    (ran : setting.saturate store = (.ok saturation, after)) :
    saturation.stats.factsAsserted = saturation.newFacts.length ∧
      (store.Gains saturation.newFacts after ↔
        ∀ count < saturation.rounds, setting.CleanRound (setting.afterRounds count store)) ∧
      (after.size = store.size + saturation.stats.factsAsserted ↔
        ∀ count < saturation.rounds, setting.CleanRound (setting.afterRounds count store)) ∧
      (saturation.fixpoint = true → setting.program.size ≠ 0 →
        ∃ earlier, saturation.rounds = earlier + 1 ∧
          ((∀ fact, after.contains fact → (setting.afterRounds earlier store).contains fact) ↔
            setting.CleanRound (setting.afterRounds earlier store))) := by
  have outcome : ∃ silent, setting.Account store saturation after silent ∧
      (saturation.fixpoint = true → setting.program.size ≠ 0 →
        ∃ earlier last, saturation.rounds = earlier + 1 ∧
          (setting.afterRounds earlier store).Gains last after ∧
          (setting.CleanRound (setting.afterRounds earlier store) ↔ last = [])) := by
    unfold saturate at ran
    split at ran
    · rename_i empty
      cases ran
      exact ⟨[], setting.account_nil store true, fun _ some ↦ absurd empty some⟩
    · obtain ⟨silent, account, fixpoint⟩ :=
        (setting.account_nil store false).saturateWithin rfl ran
      exact ⟨silent, by simpa using account, fun reached _ ↦ fixpoint reached⟩
  obtain ⟨silent, account, fixpoint⟩ := outcome
  refine ⟨account.counted, ?_, ?_, fun reached some ↦ ?_⟩
  · rw [account.clean, account.gains.reported_iff]
  · rw [account.clean, account.gains.size, account.counted, List.length_append]
    simp
  · obtain ⟨earlier, last, rounds, gained, clean⟩ := fixpoint reached some
    exact ⟨earlier, rounds, by rw [gained.unchanged_iff, clean]⟩

/-- A rule that holds at once, with one instruction allowed to each attempt. -/
def oneInstruction : Setting where
  program := (Program.new 1).append
    { rule := { head := .atom ⟨0⟩, body := [.atom ⟨1⟩] }
      head := ⟨⟨0⟩, 0⟩
      code := #[.allocate 0, .call (.builtin .true 0), .deallocate, .proceed]
      slots := []
      registers := 0 }
  config := { maxSteps := 1, maxRounds := 3 }

/-- The attempt of the rule is broken off before it asserts a fact, and the report is right. -/
theorem saturate_honest_of_oneInstruction :
    oneInstruction.saturate .empty =
        (.ok { rounds := 1, fixpoint := true, aborted := [⟨0⟩], stats := { instructions := 1 } },
          (oneInstruction.saturate .empty).2) ∧
      (FactStore.empty.Gains [] (oneInstruction.saturate .empty).2 ↔
        ∀ count < 1, oneInstruction.CleanRound (oneInstruction.afterRounds count .empty)) := by
  have ran : oneInstruction.saturate .empty =
      (.ok { rounds := 1, fixpoint := true, aborted := [⟨0⟩], stats := { instructions := 1 } },
        (oneInstruction.saturate .empty).2) := by
    have ended : (oneInstruction.saturate .empty).1.toOption =
        some {
          rounds := 1, fixpoint := true, aborted := [⟨0⟩], stats := { instructions := 1 } } := by
      decide +kernel
    refine Prod.ext ?_ rfl
    generalize (oneInstruction.saturate .empty).1 = result at ended
    cases result with
    | ok saturation => exact congrArg _ (Option.some.inj ended)
    | error error => cases ended
  exact ⟨ran, (saturate_honest_iff ran).2.1⟩

end Setting
end HornMachine
