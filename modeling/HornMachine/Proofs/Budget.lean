import HornMachine.Proofs.Machine.Termination
import HornMachine.Proofs.Saturation

/-!
# A step limit bounds every attempt

An attempt asserts the facts it finds while it goes on, and its own open calls see them. Each
solution takes one of the instructions left all the same, so an attempt with a step limit ends:
because there is no solution left, at the limit, or because it is broken off before. Main statement:
an attempt comes to what is said to come of it, with no bound on the solutions taken or on the turns
between them, it counts no more instructions than the limit, and without the occurs check everything
done on the way ends as well.
-/

namespace HornMachine

namespace Setting

variable {setting : Setting} {store : FactStore} {attempt : Attempt} {progress : Progress}

/-! ### Solutions -/

/-- What taking solutions comes to, for as long as there is one. -/
inductive Collects (setting : Setting) : Progress → Except AttemptError Unit × Progress → Prop
  | breakOff {progress : Progress} {machine : Machine} {error : AttemptError}
    (ended : Machine.ComesTo (setting.context progress.store) progress.machine.resumed
      (.error error machine)) :
    Collects setting progress (.error error, { progress with machine })
  | finish {progress : Progress} {machine : Machine}
    (ended : Machine.ComesTo (setting.context progress.store) progress.machine.resumed
      (.ok none machine)) :
    Collects setting progress (.ok (), { progress with machine })
  | take {progress : Progress} {machine : Machine} {solution : Solution}
    {result : Except AttemptError Unit × Progress}
    (ended : Machine.ComesTo (setting.context progress.store) progress.machine.resumed
      (.ok (some solution) machine))
    (rest : Collects setting (Progress.take { progress with machine } solution) result) :
    Collects setting progress result

/-- As many solutions as there are instructions left are all there are. -/
theorem collects_collectWithin {count : Nat}
    (enough : setting.config.stepLimit - progress.machine.steps < count) :
    Collects setting progress (setting.collectWithin count progress) := by
  induction count generalizing progress with
  | zero => exact absurd enough (Nat.not_lt_zero _)
  | succ count ih =>
    have comes := Machine.comesTo_nextSolution (setting.context progress.store) progress.machine
    rw [collectWithin]
    cases ended : Machine.nextSolution (setting.context progress.store) progress.machine with
    | error error machine =>
      rw [ended] at comes
      exact .breakOff comes
    | ok found machine =>
      rw [ended] at comes
      cases found with
      | none => exact .finish comes
      | some solution =>
        obtain ⟨one, few⟩ := Machine.steps_nextSolution ended
        have limit : (setting.context progress.store).stepLimit = setting.config.stepLimit := rfl
        refine .take comes (ih ?_)
        rw [Progress.machine_take]
        dsimp only
        omega

/-! ### Attempts -/

/-- What comes of an attempt: it is started on a machine of its own, and solutions are taken for as
long as there is one. -/
inductive Derives (setting : Setting) (store : FactStore) (attempt : Attempt) : Outcome → Prop
  | refuse {machine : Machine} {error : AttemptError}
    (refused : Machine.start (setting.context store) attempt.rule attempt.goal
      (.new setting.program.registers) = .error error machine) :
    Derives setting store attempt { result := .error error, stats := machine.stats, store }
  | breakOff {machine : Machine} {progress : Progress} {error : AttemptError}
    (started : Machine.start (setting.context store) attempt.rule attempt.goal
      (.new setting.program.registers) = .ok ⟨⟩ machine)
    (collects : Collects setting { machine, store } (.error error, progress)) :
    Derives setting store attempt
      { result := .error error, stats := progress.machine.stats, store := progress.store }
  | finish {machine : Machine} {progress : Progress}
    (started : Machine.start (setting.context store) attempt.rule attempt.goal
      (.new setting.program.registers) = .ok ⟨⟩ machine)
    (collects : Collects setting { machine, store } (.ok (), progress)) :
    Derives setting store attempt
      { result := .ok (.ofParts progress.newFacts.reverse progress.solutions.reverse)
        stats := { progress.machine.stats with
          factsAsserted := progress.machine.stats.factsAsserted + progress.newFacts.length }
        store := progress.store }

private theorem derives_derive (setting : Setting) (store : FactStore) (attempt : Attempt) :
    setting.Derives store attempt (setting.derive store attempt) := by
  unfold derive collect
  dsimp only
  cases started : Machine.start (setting.context store) attempt.rule attempt.goal
    (.new setting.program.registers) with
  | error error machine => exact .refuse started
  | ok done machine =>
    have collects : Collects setting { machine, store }
        (setting.collectWithin (Machine.solutionBound (setting.context store) machine)
          { machine, store }) := collects_collectWithin (Nat.lt_succ_self _)
    dsimp only
    split
    · next error progress collected => exact .breakOff started (collected ▸ collects)
    · next progress collected => exact .finish started (collected ▸ collects)

/-- Taking solutions runs no more instructions than the limit allows, and counts them. -/
theorem tallied_collectWithin {count : Nat}
    (tallied : progress.machine.Tallied setting.config.stepLimit) :
    (setting.collectWithin count progress).2.machine.Tallied setting.config.stepLimit := by
  induction count generalizing progress with
  | zero => exact tallied
  | succ count ih =>
    have counted :=
      (Machine.accounts_tallied (setting.context progress.store)).nextSolution _ tallied
    rw [collectWithin]
    cases ended : Machine.nextSolution (setting.context progress.store) progress.machine with
    | error error machine =>
      rw [ended] at counted
      exact counted
    | ok found machine =>
      rw [ended] at counted
      cases found with
      | none => exact counted
      | some solution =>
        refine ih ?_
        rw [Progress.machine_take]
        exact counted

private theorem instructions_derive (setting : Setting) (store : FactStore) (attempt : Attempt) :
    (setting.derive store attempt).stats.instructions ≤ setting.config.stepLimit := by
  have tallied : (setting.collect store attempt).2.machine.Tallied setting.config.stepLimit := by
    have untouched :=
      Machine.preserves_start_untouched (setting.context store) attempt.rule attempt.goal
      (.new setting.program.registers) ⟨rfl, rfl⟩
    unfold collect
    dsimp only
    cases started : Machine.start (setting.context store) attempt.rule attempt.goal
      (.new setting.program.registers) with
    | error error machine =>
      rw [started] at untouched
      exact ⟨untouched.1 ▸ Nat.zero_le _, untouched.2.trans untouched.1.symm⟩
    | ok done machine =>
      rw [started] at untouched
      exact tallied_collectWithin ⟨untouched.1 ▸ Nat.zero_le _, untouched.2.trans untouched.1.symm⟩
  have counted := tallied.2 ▸ tallied.1
  unfold derive
  split
  · next error progress collected =>
    rw [collected] at counted
    exact counted
  · next progress collected =>
    rw [collected] at counted
    exact counted

/-- With a step limit and without the occurs check an attempt ends, whatever the rules, the facts
and the goal are: it counts no more instructions than the limit, its solutions and the turns between
them come to an end, and so does whatever is done at a moment on the way. On cyclic heaps, too,
references and unifications end before their bounds, and reading a term, which has none, stops at a
structure met inside itself. Each search for a name that is not reserved finds one. -/
theorem derive_within_budget {allowed : Rule → Prop} (built : setting.program.Built allowed)
    (off : setting.config.occursCheck = .off) (budget : 0 < setting.config.maxSteps)
    (store : FactStore) (attempt : Attempt) :
    (setting.derive store attempt).stats.instructions ≤ setting.config.maxSteps ∧
    setting.Derives store attempt (setting.derive store attempt) ∧
    (∀ (current : FactStore) (moment : Moment), current.Consistent →
      moment.Reached setting.program →
      moment.machine.registers.size = setting.program.registers →
      moment.Settles (setting.context current)) ∧
    (∀ (memory : Memory) (a b : Address) (last : Memory.Unifying),
      Memory.unifyWithin .off memory.depthBound a b { memory } ≠ .error .unfinished last) ∧
    ∀ (reserved : Std.TreeSet Var) (v : Var),
      VarNames.firstFree reserved reserved.size v ∉ reserved := by
  refine ⟨?_, derives_derive setting store attempt, fun current moment consistent reached bank ↦ ?_,
    Memory.unifyWithin_ne_unfinished, VarNames.firstFree_not_mem⟩
  · have counted := instructions_derive setting store attempt
    rwa [Config.stepLimit, if_neg (Nat.ne_of_gt budget)] at counted
  · exact reached.settles built bank rfl off consistent

end Setting

/-! ### An attempt without an end -/

/-- The rule `p(X, f(X)) :- p(X, X).` Its call makes `X` cyclic, and then calls itself again and
again. -/
def Rule.spiralling : Rule where
  head := .struct ⟨0⟩ [.var 0, .struct ⟨1⟩ [.var 0]]
  body := [.struct ⟨0⟩ [.var 0, .var 0]]

/-- The rule, without the occurs check, forty instructions at a time. -/
def Setting.spiralling : Setting where
  program := (Program.new 2).addRules .empty [.spiralling]
  config := { maxSteps := 40 }

/-- Whether the machine is at its call, with a cyclic term in both arguments. -/
def Machine.spirals (machine : Machine) : Bool :=
  decide (machine.status = .running ∧ machine.rule = some ⟨0⟩ ∧ machine.counter = 6 ∧
    machine.registers = #[some 0, some 0] ∧ machine.memory.heap.extract 0 = .error .cyclicTerm)

/-- An attempt of the rule is broken off by the step limit. Before that, calls are made with cyclic
terms, and the memory settles. -/
theorem Setting.derive_within_budget_spiralling :
    let setting : Setting := spiralling
    let context : Context := setting.context .empty
    let attempt : Attempt := { rule := ⟨0⟩ }
    (setting.program.Built (fun _ ↦ True) ∧ setting.config.occursCheck = .off ∧
      0 < setting.config.maxSteps) ∧
    ((setting.derive .empty attempt).result = .error (.stepLimit 40) ∧
      (setting.derive .empty attempt).stats.instructions ≤ 40 ∧
      setting.Derives .empty attempt (setting.derive .empty attempt)) ∧
    ∃ machine origins, Moment.Reached setting.program ⟨machine, none, origins⟩ ∧
      machine.memory.heap.extract 0 = .error .cyclicTerm ∧
        Moment.Settles context ⟨machine, none, origins⟩ ∧
      machine.memory.Settles := by
  intro setting context attempt
  have built : setting.program.Built fun _ ↦ True := .addRules (.new 2) fun _ _ ↦ trivial
  have stopped : (setting.derive .empty attempt).result = .error (.stepLimit 40) := by
    decide +kernel
  have made : (context.attempt ⟨0⟩ 2 13).any Machine.spirals = true := by decide +kernel
  obtain ⟨machine, attempted, spirals⟩ := (Option.any_eq_true _ _).1 made
  obtain ⟨origins, reached⟩ := Moment.reached_attempt attempted
  obtain ⟨running, at_rule, counter, registers, cyclic⟩ := of_decide_eq_true spirals
  obtain ⟨few, derives, settles, -⟩ := derive_within_budget built rfl (by decide) .empty attempt
  have bank : machine.registers.size = setting.program.registers := by
    rw [registers]
    decide +kernel
  have settled := settles .empty ⟨machine, none, origins⟩ FactStore.consistent_empty reached bank
  obtain ⟨compiled, found, calls⟩ : ∃ compiled, setting.program.rule? ⟨0⟩ = some compiled ∧
      compiled.code[6]? = some (.call (.predicate ⟨⟨0⟩, 2⟩)) := ⟨_, rfl, rfl⟩
  have fetches : machine.Fetches context compiled (.call (.predicate ⟨⟨0⟩, 2⟩)) :=
    ⟨⟨⟨0⟩, at_rule, found⟩, counter ▸ calls⟩
  exact ⟨⟨built, rfl, by decide⟩, ⟨stopped, few, derives⟩, machine, origins, reached,
    cyclic, settled, settled.reads rfl running fetches (.inr ⟨_, rfl⟩)⟩

end HornMachine
