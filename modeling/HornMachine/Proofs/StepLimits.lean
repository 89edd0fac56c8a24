import HornMachine.Proofs.Budget
import HornMachine.Proofs.LeastModel

/-!
# A step limit only cuts an attempt short

Nothing that an attempt does looks at its step limit but the check before each instruction. Two
attempts with different limits therefore go through the same moments, in step, until the smaller
limit is reached. Solutions change the store that is searched later, and since both assert the same
facts at the same moments, they also see the same facts.

Main statement: under a larger budget an attempt ends as it did, unless it was cut short, and then
it goes on from there, so that the facts asserted before come first (`derive_withBudget`).
-/

namespace HornMachine

/-- The same with another step limit. -/
def Context.withStepLimit (context : Context) (limit : Nat) : Context :=
  { context with stepLimit := limit }

variable {context : Context} {limit : Nat}

/-! ### Instructions and returns -/

namespace Exec

private theorem takeFact_withStepLimit (choice : Choice) (query : Query) (count : Nat) :
    takeFact (context.withStepLimit limit) choice query count =
      takeFact context choice query count := by
  induction count generalizing query with
  | zero => rfl
  | succ count ih =>
    rw [takeFact, takeFact]
    simp only [ih]
    rfl

/-- Going back to a choice point does not look at the limit. -/
theorem resume_withStepLimit : resume (context.withStepLimit limit) = resume context := by
  unfold resume
  simp only [takeFact_withStepLimit]
  rfl

private theorem call_withStepLimit (target : Target) :
    call (context.withStepLimit limit) target = call context target := by
  cases target with
  | builtin => rfl
  | predicate goal =>
    rw [call, call]
    simp only [callPredicate, resume_withStepLimit]

/-- Nor does an instruction. -/
theorem execute_withStepLimit (compiled : CompiledRule) (instruction : Instruction) :
    execute (context.withStepLimit limit) compiled instruction =
      execute context compiled instruction := by
  cases instruction with
  | call target => exact call_withStepLimit target
  | _ => rfl

end Exec

/-! ### Searches -/

namespace Machine

variable {machine : Machine}

private theorem backtrackOver_withStepLimit (choices : List Choice) :
    backtrackOver (context.withStepLimit limit) choices = backtrackOver context choices := by
  induction choices with
  | nil => rfl
  | cons choice older ih => rw [backtrackOver, backtrackOver, ih, Exec.resume_withStepLimit]

/-- Under a larger limit the next instruction is the same, unless the smaller one is reached. -/
theorem step_withStepLimit (more : context.stepLimit ≤ limit) (machine : Machine) :
    step (context.withStepLimit limit) machine = step context machine ∨
      step context machine = .error (.stepLimit context.stepLimit) machine := by
  unfold step
  simp only [Exec.execute_withStepLimit]
  have flag : (context.withStepLimit limit).cancelled = context.cancelled := rfl
  by_cases stopped : context.cancelled = true
  · rw [if_pos stopped, if_pos (flag.trans stopped)]
    exact .inl rfl
  · rw [if_neg stopped, if_neg (flag ▸ stopped), bind_apply, bind_apply, get_apply]
    dsimp only
    by_cases spent : machine.steps ≥ context.stepLimit
    · rw [if_pos spent]
      exact .inr rfl
    · have few : ¬machine.steps ≥ (context.withStepLimit limit).stepLimit :=
        fun much ↦ spent (Nat.le_trans more much)
      rw [if_neg spent, if_neg few]
      exact .inl rfl

/-- So is a run, however many more turns it may take. -/
theorem runWithin_withStepLimit (more : context.stepLimit ≤ limit) {turns longer : Nat}
    (enough : turns ≤ longer) (machine : Machine) :
    runWithin (context.withStepLimit limit) longer machine = runWithin context turns machine ∨
      ∃ next, runWithin context turns machine = .error (.stepLimit context.stepLimit) next := by
  induction turns generalizing longer machine with
  | zero => exact .inr ⟨machine, rfl⟩
  | succ turns ih =>
    obtain ⟨longer, rfl⟩ :=
      Nat.exists_eq_add_of_le' (Nat.lt_of_lt_of_le (Nat.succ_pos turns) enough)
    rw [runWithin, runWithin, bind_apply, bind_apply, get_apply]
    cases status : machine.status with
    | failed | idle | succeeded => exact .inl (by simp only [status])
    | running =>
      simp only [status]
      rw [bind_apply, bind_apply]
      rcases step_withStepLimit more machine with same | spent
      · rw [same]
        cases step context machine with
        | error error next => exact .inl rfl
        | ok done next => exact ih (by omega) next
      · exact .inr ⟨machine, by rw [spent]⟩
    | backtracking =>
      simp only [status]
      have same : backtrack (context.withStepLimit limit) machine = backtrack context machine :=
        congrFun (backtrackOver_withStepLimit machine.choices) machine
      rw [bind_apply, bind_apply, same]
      cases backtrack context machine with
      | error error next => exact .inl rfl
      | ok done next => exact ih (by omega) next

/-- Under a larger limit a search gives the same, unless the smaller one is reached. -/
theorem nextSolution_withStepLimit (more : context.stepLimit ≤ limit) (machine : Machine) :
    nextSolution (context.withStepLimit limit) machine = nextSolution context machine ∨
      ∃ next, nextSolution context machine = .error (.stepLimit context.stepLimit) next := by
  have turns : machine.resumed.turnBound context ≤
      machine.resumed.turnBound (context.withStepLimit limit) := by
    simp only [turnBound, Context.withStepLimit]
    omega
  have unfolded (other : Context) : nextSolution other machine =
      concluded (runWithin other (machine.resumed.turnBound other) machine.resumed) := rfl
  rw [unfolded, unfolded]
  rcases runWithin_withStepLimit more turns machine.resumed with same | ⟨next, spent⟩
  · exact .inl (congrArg concluded same)
  · exact .inr ⟨_, by rw [spent]; rfl⟩

end Machine

/-! ### Attempts -/

/-- After is the store before with facts asserted one after another, each of which is new. -/
structure FactStore.Asserts (before : FactStore) (facts : List Fact) (after : FactStore) :
    Prop where
  made : after = facts.foldl (fun store fact ↦ (store.assert fact).2) before
  gains : before.Gains facts after

namespace Setting

/-- The same with another number of instructions allowed. -/
def withBudget (setting : Setting) (budget : Nat) : Setting :=
  { setting with config := { setting.config with maxSteps := budget } }

variable {setting : Setting} {budget : Nat} {store : FactStore} {progress later : Progress}

private theorem context_withBudget : (setting.withBudget budget).context store =
    (setting.context store).withStepLimit (setting.withBudget budget).config.stepLimit := rfl

/-- More was found later, after what had been found. -/
structure Progress.Precedes (progress later : Progress) : Prop where
  newFacts : progress.newFacts.reverse <+: later.newFacts.reverse
  solutions : progress.solutions.reverse <+: later.solutions.reverse

private theorem Progress.precedes_take (progress : Progress) (solution : Solution) :
    progress.Precedes (progress.take solution) := by
  unfold Progress.take
  dsimp only
  split
  · exact ⟨List.prefix_refl _, by simp⟩
  · refine ⟨?_, by simp⟩
    dsimp only
    split <;> simp

theorem Progress.Precedes.trans {last : Progress} (one : progress.Precedes later)
    (two : later.Precedes last) : progress.Precedes last :=
  ⟨one.newFacts.trans two.newFacts, one.solutions.trans two.solutions⟩

theorem Progress.precedes_collectWithin (setting : Setting) (count : Nat) (progress : Progress) :
    progress.Precedes (setting.collectWithin count progress).2 := by
  induction count generalizing progress with
  | zero => exact ⟨List.prefix_refl _, List.prefix_refl _⟩
  | succ count ih =>
    rw [collectWithin]
    cases Machine.nextSolution (setting.context progress.store) progress.machine with
    | error error machine => exact ⟨List.prefix_refl _, List.prefix_refl _⟩
    | ok found machine =>
      cases found with
      | none => exact ⟨List.prefix_refl _, List.prefix_refl _⟩
      | some solution =>
        have whole := (Progress.precedes_take { progress with machine } solution).trans (ih _)
        exact ⟨whole.newFacts, whole.solutions⟩

/-- What one collection gives another one gives, too, or the one was cut short and the other goes
on. -/
def Continues (limit : Nat) (one two : Except AttemptError Unit × Progress) : Prop :=
  two = one ∨ one.1 = .error (.stepLimit limit) ∧ one.2.Precedes two.2

/-- Under a larger budget the same solutions are taken, as far as the smaller one goes. -/
theorem continues_collectWithin
    (more : setting.config.stepLimit ≤ (setting.withBudget budget).config.stepLimit)
    {count larger : Nat} (enough : setting.config.stepLimit - progress.machine.steps < count)
    (longer : count ≤ larger) :
    Continues setting.config.stepLimit (setting.collectWithin count progress)
      ((setting.withBudget budget).collectWithin larger progress) := by
  induction count generalizing larger progress with
  | zero => exact absurd enough (Nat.not_lt_zero _)
  | succ count ih =>
    obtain ⟨larger, rfl⟩ :=
      Nat.exists_eq_add_of_le' (Nat.lt_of_lt_of_le (Nat.succ_pos count) longer)
    rw [collectWithin]
    let context := setting.context progress.store
    have more : context.stepLimit ≤ (setting.withBudget budget).config.stepLimit := more
    rcases Machine.nextSolution_withStepLimit more progress.machine with same | ⟨machine, spent⟩
    · rw [collectWithin, context_withBudget, same]
      cases ended : Machine.nextSolution (setting.context progress.store) progress.machine with
      | error error machine => exact .inl rfl
      | ok found machine =>
        cases found with
        | none => exact .inl rfl
        | some solution =>
          obtain ⟨one, few⟩ := Machine.steps_nextSolution ended
          have limit : (setting.context progress.store).stepLimit = setting.config.stepLimit := rfl
          refine ih ?_ (by omega)
          rw [Progress.machine_take]
          dsimp only
          omega
    · have rest := Progress.precedes_collectWithin (setting.withBudget budget) (larger + 1) progress
      rw [spent]
      exact .inr ⟨rfl, rest.newFacts, rest.solutions⟩

/-- Under a larger budget an attempt collects the same, as far as the smaller one goes. -/
theorem continues_collect
    (more : setting.config.stepLimit ≤ (setting.withBudget budget).config.stepLimit)
    (store : FactStore) (attempt : Attempt) :
    Continues setting.config.stepLimit (setting.collect store attempt)
      ((setting.withBudget budget).collect store attempt) := by
  unfold collect
  dsimp only
  have same : Machine.start ((setting.withBudget budget).context store) =
    Machine.start (setting.context store) := rfl
  rw [same, show (setting.withBudget budget).program = setting.program from rfl]
  cases Machine.start (setting.context store) attempt.rule attempt.goal
    (.new setting.program.registers) with
  | error error machine => exact .inl rfl
  | ok done machine =>
    refine continues_collectWithin more (Nat.lt_succ_self _) ?_
    have limit : (setting.context store).stepLimit = setting.config.stepLimit := rfl
    have larger : ((setting.withBudget budget).context store).stepLimit =
      (setting.withBudget budget).config.stepLimit := rfl
    simp only [Machine.solutionBound]
    omega

/-! ### Facts asserted -/

/-- The facts that an attempt asserts and that are new then, in the order it asserts them. -/
def asserted (setting : Setting) (store : FactStore) (attempt : Attempt) : List Fact :=
  (setting.collect store attempt).2.newFacts.reverse

/-- The new facts of a collection, asserted one after another, give its store. -/
def Progress.Made (store : FactStore) (progress : Progress) : Prop :=
  progress.store = progress.newFacts.reverse.foldl (fun store fact ↦ (store.assert fact).2) store

theorem Progress.Made.take (made : progress.Made store) (solution : Solution) :
    (progress.take solution).Made store := by
  unfold Progress.take
  dsimp only
  split
  · exact made
  · next fact _ =>
    by_cases known : progress.store.contains fact = true
    · have same : progress.store.assert fact = (false, progress.store) := by
        simp [FactStore.assert, known]
      simp only [same]
      exact made
    · have new : (progress.store.assert fact).1 = true := by simp [FactStore.assert, known]
      simp only [new, if_true, Made, List.reverse_cons, List.foldl_append, List.foldl_cons,
        List.foldl_nil]
      rw [← made]

theorem Progress.Made.collectWithin (made : progress.Made store) (count : Nat) :
    (setting.collectWithin count progress).2.Made store := by
  induction count generalizing progress with
  | zero => exact made
  | succ count ih =>
    rw [Setting.collectWithin]
    cases Machine.nextSolution (setting.context progress.store) progress.machine with
    | error error machine => exact made
    | ok found machine =>
      have still : Progress.Made store { progress with machine } := made
      cases found with
      | none => exact made
      | some solution => exact ih (still.take solution)

/-- The store after an attempt is the one before with the facts the attempt asserted. -/
theorem asserts_derive (setting : Setting) (store : FactStore) (attempt : Attempt) :
    store.Asserts (setting.asserted store attempt) (setting.derive store attempt).store := by
  have sound := setting.sound_collect store attempt
  have made : (setting.collect store attempt).2.Made store := by
    unfold collect
    dsimp only
    split
    · rfl
    · next machine _ =>
      have begun : Progress.Made store { machine, store } := rfl
      exact begun.collectWithin _
  have kept : (setting.derive store attempt).store = (setting.collect store attempt).2.store := by
    unfold derive
    split <;> next collected => rw [collected]
  rw [kept]
  exact ⟨made, sound.gains⟩

/-- The step limit never changes answers. Under a budget that is larger, or without one, an attempt
comes to the same derivation or error, the same counters and the same store, unless the smaller
budget cut it short. In any case the facts it asserts under the smaller budget are the first that it
asserts under the larger. -/
theorem derive_withBudget (limited : 0 < setting.config.maxSteps)
    (word : setting.config.maxSteps < 2 ^ 64)
    (more : budget = 0 ∨ setting.config.maxSteps ≤ budget) (store : FactStore) (attempt : Attempt) :
    ((∀ limit, (setting.derive store attempt).result ≠ .error (.stepLimit limit)) →
      (setting.withBudget budget).derive store attempt = setting.derive store attempt) ∧
    (store.Asserts (setting.asserted store attempt) (setting.derive store attempt).store ∧
      store.Asserts ((setting.withBudget budget).asserted store attempt)
        ((setting.withBudget budget).derive store attempt).store) ∧
    setting.asserted store attempt <+: (setting.withBudget budget).asserted store attempt := by
  have larger : setting.config.stepLimit ≤ (setting.withBudget budget).config.stepLimit := by
    rw [Config.stepLimit, Config.stepLimit, if_neg (Nat.ne_of_gt limited), withBudget]
    split
    · exact Nat.le_of_lt word
    · next unequal => exact more.resolve_left unequal
  have continues := continues_collect larger store attempt
  refine ⟨fun whole ↦ ?_, ⟨asserts_derive _ _ _, asserts_derive _ _ _⟩, ?_⟩
  · obtain same | ⟨spent, -⟩ := continues
    · rw [derive, derive, same]
    · refine absurd ?_ (whole setting.config.stepLimit)
      rw [derive]
      generalize setting.collect store attempt = collected at spent
      obtain ⟨result, progress⟩ := collected
      cases spent
      rfl
  · obtain same | ⟨-, precedes⟩ := continues
    · rw [asserted, asserted, same]
    · exact precedes.newFacts

/-- Within twenty instructions the rule asserts `r(f(a))` only, and without a limit `r(b)` too. A
hundred are enough for both. -/
theorem derive_withBudget_selecting :
    let cut : Setting := selecting 20
    let whole : Setting := selecting 100
    let store : FactStore := .ofFacts Fact.candidates
    let attempt : Attempt := { rule := ⟨2⟩ }
    let heads : List Term := [.struct ⟨2⟩ [.struct ⟨3⟩ [.atom ⟨4⟩]], .struct ⟨2⟩ [.atom ⟨5⟩]]
    ((0 < cut.config.maxSteps ∧ cut.config.maxSteps < 2 ^ 64) ∧
      0 < whole.config.maxSteps ∧ whole.config.maxSteps < 2 ^ 64) ∧
    ((cut.derive store attempt).result = .error (.stepLimit 20) ∧
      (cut.asserted store attempt).map Fact.term = heads.take 1 ∧
      ((cut.withBudget 0).asserted store attempt).map Fact.term = heads ∧
      cut.asserted store attempt <+: (cut.withBudget 0).asserted store attempt) ∧
    (whole.withBudget 0).derive store attempt = whole.derive store attempt ∧
    (whole.derive store attempt).result.map (·.newFacts.map Fact.term) = .ok heads := by
  intro cut whole store attempt heads
  have limits : (0 < cut.config.maxSteps ∧ cut.config.maxSteps < 2 ^ 64) ∧
      0 < whole.config.maxSteps ∧ whole.config.maxSteps < 2 ^ 64 := by decide
  obtain ⟨⟨limited, word⟩, limited', word'⟩ := limits
  have stopped : (cut.derive store attempt).result = .error (.stepLimit 20) := by decide +kernel
  have early : (cut.asserted store attempt).map Fact.term = heads.take 1 := by decide +kernel
  have all : ((cut.withBudget 0).asserted store attempt).map Fact.term = heads := by decide +kernel
  have made : (whole.derive store attempt).result.map (·.newFacts.map Fact.term) = .ok heads := by
    decide +kernel
  obtain ⟨-, -, prefixed⟩ := derive_withBudget limited word (.inl rfl) store attempt
  obtain ⟨same, -, -⟩ := derive_withBudget limited' word' (.inl rfl) store attempt
  have unbroken (limit : Nat) :
    (whole.derive store attempt).result ≠ .error (.stepLimit limit) := by
    intro broken
    rw [broken] at made
    cases made
  exact ⟨⟨⟨limited, word⟩, limited', word'⟩, ⟨stopped, early, all, prefixed⟩, same unbroken, made⟩

end Setting
end HornMachine
