import HornMachine.Machine.Run
import HornMachine.Proofs.Machine.Operations

/-!
# A run pass by pass

One turn of the machine may try many answers of many choice points before it goes on. Here a run is
cut into passes, each of which runs one instruction, pushes one choice point or tries one answer, so
that a property of all states passed through is one that every pass keeps. Beside the machine, a
moment of a run keeps the machines that pushed the choice points. Main statements: every result of a
search for a solution is reached pass by pass, and every error is one of a single pass.
-/

namespace HornMachine

/-! ### Trying one answer -/

/-- The next fact for a choice point to try, with the query moved past it, if `count` more may be
tried. -/
def Context.upcoming (context : Context) (choice : Choice) (count : Nat) : Option (Fact × Query) :=
  match choice.alternative, count with
  | .facts query, _ + 1 =>
    match context.store.next query with
    | (some fact, later) => some (fact, later)
    | (none, _) => none
  | _, _ => none

/-- The position of the clause that a choice point tries once there is no fact to try. -/
def Choice.position (choice : Choice) : Nat :=
  match choice.alternative with
  | .facts _ => 0
  | .clauses position => position

/-- What trying one answer comes to. -/
inductive Finding where
  | found
  | missed
  | exhausted
deriving DecidableEq

/-- The machine taken back to a choice point. -/
def Machine.restored (machine : Machine) (choice : Choice) : Machine :=
  { machine with
    memory := (machine.memory.unbindLast (machine.memory.trail.size - choice.trailSize)).truncate
      choice.heapSize
    frames := machine.frames.shrink choice.frameCount
    registers := choice.arguments.toList.zipIdx.foldl
      (fun registers (address, index) ↦ registers.setIfInBounds index address) machine.registers
    environment := choice.environment
    continuation := choice.continuation }

namespace Exec

/-- Go back to the newest choice point and try its next answer. -/
def tryAnswer (context : Context) (count : Nat) : Exec Finding := do
  restore
  match (← get).choices with
  | [] => pure .exhausted
  | choice :: _ =>
    match context.upcoming choice count with
    | some (fact, query) =>
      setAlternative (.facts query)
      if ← unifyFact context.occursCheck choice.goal fact then
        continueAfter choice.continuation
        pure .found
      else pure .missed
    | none =>
      if ← takeClause context choice choice.position then pure .found else pure .exhausted

/-- Try answers one after another, at most `count` facts. -/
def seek (context : Context) : Nat → Exec Bool
  | 0 => do
    match ← tryAnswer context 0 with
    | .found => pure true
    | .missed | .exhausted => pure false
  | count + 1 => do
    match ← tryAnswer context (count + 1) with
    | .found => pure true
    | .missed => seek context count
    | .exhausted => pure false

variable {context : Context}

/-- The clause that is taken does not depend on the answers noted before. -/
theorem takeClause_setAlternative (alternative : Alternative) (choice : Choice) (position : Nat)
    (machine : Machine) :
    (do setAlternative alternative; takeClause context choice position) machine =
      takeClause context choice position machine := by
  cases stack : machine.choices with
  | nil => simp [setAlternative, bind_apply, modify_apply, stack]
  | cons newest rest =>
    simp only [bind_apply, setAlternative, modify_apply, stack, takeClause, dropChoice]
    cases (context.program.clauses choice.goal)[position]? with
    | none => simp [bind_apply, modify_apply, stack]
    | some rule =>
      dsimp only
      split
      · simp [bind_apply, modify_apply, stack]
      · simp [bind_apply, modify_apply, stack]

private theorem takeClause_congr {choice other : Choice} (same : choice.goal = other.goal)
    (position : Nat) :
    takeClause context choice position = takeClause context other position := by
  unfold takeClause
  rw [same]

private theorem restore_eq_ok {machine later : Machine} {done : Unit}
    (ended : restore machine = .ok done later)
    {choice : Choice} {rest : List Choice} (stack : machine.choices = choice :: rest) :
    choice.trailSize ≤ machine.memory.trail.size ∧ later = machine.restored choice := by
  simp only [restore, bind_apply, get_apply, stack] at ended
  split at ended
  · cases ended
  · next enough =>
    rw [set_apply] at ended
    cases ended
    exact ⟨Nat.le_of_not_lt enough, by rw [Machine.restored, stack]⟩

theorem restore_of_le {machine : Machine} {choice : Choice} {rest : List Choice}
    (stack : machine.choices = choice :: rest)
    (enough : choice.trailSize ≤ machine.memory.trail.size) :
    restore machine = .ok ⟨⟩ (machine.restored choice) := by
  simp only [restore, bind_apply, get_apply, stack, Nat.not_lt.2 enough, gt_iff_lt,
    if_false, set_apply, Machine.restored]

private theorem unifyArguments_eq_ok {check : OccursCheck} {header : Address} {indices : List Nat}
    {machine later : Machine} {success : Bool}
    (ended : unifyArguments check header indices machine = .ok success later) :
    ∃ memory, later = { machine with memory } := by
  induction indices generalizing machine with
  | nil =>
    cases ended
    exact ⟨_, rfl⟩
  | cons index indices ih =>
    obtain ⟨address, middle, read, rest⟩ := bind_eq_ok.1 ended
    obtain ⟨-, rfl⟩ := register_eq_ok.1 read
    obtain ⟨unified, next, first, rest⟩ := bind_eq_ok.1 rest
    obtain ⟨memory, -, rfl⟩ := onMemory_eq_ok.1 first
    cases unified with
    | true =>
      obtain ⟨last, rfl⟩ := ih rest
      exact ⟨last, rfl⟩
    | false =>
      cases rest
      exact ⟨memory, rfl⟩

/-- Unifying with a fact changes the memory alone. -/
theorem unifyFact_eq_ok {check : OccursCheck} {goal : Functor} {fact : Fact}
    {machine later : Machine} {success : Bool}
    (ended : unifyFact check goal fact machine = .ok success later) :
    ∃ memory, later = { machine with memory } := by
  unfold unifyFact at ended
  split at ended
  · cases ended
    exact ⟨_, rfl⟩
  · obtain ⟨address, middle, loaded, rest⟩ := bind_eq_ok.1 ended
    obtain ⟨memory, -, rfl⟩ := onMemory_eq_ok.1 loaded
    obtain ⟨⟨found, shown⟩, middle, read, rest⟩ := bind_eq_ok.1 rest
    obtain ⟨-, rfl⟩ := value_eq_ok.1 read
    cases shown with
    | compound functor header =>
      simp only at rest
      split at rest
      · obtain ⟨last, rfl⟩ := unifyArguments_eq_ok rest
        exact ⟨last, rfl⟩
      · cases rest
        exact ⟨memory, rfl⟩
    | unbound | atom | num =>
      cases rest
      exact ⟨memory, rfl⟩

private theorem seek_of_restore_error {machine last : Machine} {fault : Fault}
    (back : restore machine = .error fault last) (count : Nat) :
    seek context count machine = .error fault last := by
  cases count with
  | zero => simp only [seek, tryAnswer, bind_apply, back]
  | succ count => simp only [seek, tryAnswer, bind_apply, back]

/-- Going through facts and then clauses is trying answers one at a time. -/
theorem takeFact_eq_seek {choice noted : Choice} {rest : List Choice} {query : Query} {count : Nat}
    {machine restored : Machine} (back : restore machine = .ok ⟨⟩ restored)
    (stack : restored.choices = noted :: rest) (here : noted.alternative = .facts query)
    (goal : choice.goal = noted.goal) (continuation : choice.continuation = noted.continuation) :
    takeFact context choice query count restored = seek context count machine := by
  induction count generalizing machine restored noted query with
  | zero =>
    rw [takeFact, takeClause_setAlternative, takeClause_congr goal]
    simp only [seek, tryAnswer, bind_apply, back, get_apply, stack, Context.upcoming, here,
      Choice.position]
    cases takeClause context noted 0 restored with
    | ok taken later => cases taken <;> rfl
    | error fault later => rfl
  | succ count ih =>
    rw [takeFact]
    simp only [seek, tryAnswer, bind_apply, back, get_apply, stack, Context.upcoming, here]
    cases ahead : context.store.next query with
    | mk found later =>
      cases found with
      | none =>
        simp only [takeClause_setAlternative, takeClause_congr goal, Choice.position, here]
        simp only [bind_apply]
        cases takeClause context noted 0 restored with
        | ok taken later => cases taken <;> rfl
        | error fault later => rfl
      | some fact =>
        simp only [bind_apply, setAlternative, modify_apply, stack, goal]
        cases unified : unifyFact context.occursCheck noted.goal fact
          { restored with choices := { noted with alternative := .facts later } :: rest } with
        | error fault last => rfl
        | ok success last =>
          cases success with
          | true =>
            simp only [if_true, bind_apply, continuation]
            cases continueAfter noted.continuation last <;> rfl
          | false =>
            obtain ⟨memory, same⟩ := unifyFact_eq_ok unified
            have kept : last.choices = { noted with alternative := .facts later } :: rest := by
              rw [same]
            simp only [Bool.false_eq_true, if_false, bind_apply]
            cases again : restore last with
            | error fault final => exact (seek_of_restore_error again count).symm
            | ok done final =>
              obtain ⟨-, back⟩ := restore_eq_ok again kept
              have still : final.choices = { noted with alternative := .facts later } :: rest := by
                rw [back]
                exact kept
              exact ih again still rfl goal continuation

/-- Taking the next answer of a choice point is trying its answers one at a time. -/
theorem resume_eq_seek {machine : Machine} {choice : Choice} {rest : List Choice}
    (stack : machine.choices = choice :: rest) :
    resume context machine = seek context (context.store.factsOf choice.goal).size machine := by
  cases back : restore machine with
  | error fault last =>
    rw [seek_of_restore_error back]
    simp only [resume, bind_apply, back]
  | ok done restored =>
    obtain ⟨-, same⟩ := restore_eq_ok back stack
    have still : restored.choices = choice :: rest := by
      rw [same]
      exact stack
    simp only [resume, bind_apply, back, get_apply, still]
    cases here : choice.alternative with
    | facts query => exact takeFact_eq_seek back still here rfl rfl
    | clauses position =>
      have tried (count : Nat) : tryAnswer context count machine =
          match takeClause context choice position restored with
          | .ok true later => .ok .found later
          | .ok false later => .ok .exhausted later
          | .error fault later => .error fault later := by
        simp only [tryAnswer, bind_apply, back, get_apply, still, Context.upcoming, here,
          Choice.position]
        cases takeClause context choice position restored with
        | ok taken later => cases taken <;> rfl
        | error fault later => rfl
      cases (context.store.factsOf choice.goal).size with
      | zero | succ =>
        simp only [seek, bind_apply, tried]
        cases takeClause context choice position restored with
        | ok taken later => cases taken <;> rfl
        | error fault later => rfl

end Exec

namespace Machine

/-- The machine at the newest choice point, with the facts from a query on noted as answers left. -/
def noting (machine : Machine) (choice : Choice) (older : List Choice) (query : Query) : Machine :=
  { machine.restored choice with choices := { choice with alternative := .facts query } :: older }

/-- The machine where a continuation goes on. -/
def goingOn (machine : Machine) : Continuation → Machine
  | .halt => machine
  | .goTo rule offset => { machine with rule := some rule, counter := offset }

/-- What trying an answer of the newest choice point does. -/
inductive Tries (context : Context) (machine : Machine) (choice : Choice) (older : List Choice)
    (count : Nat) : Finding → Machine → Prop
  | fact {fact : Fact} {query : Query} {memory : Memory}
    (ahead : context.upcoming choice count = some (fact, query))
    (unified : Exec.unifyFact context.occursCheck choice.goal fact
      (machine.noting choice older query) =
        .ok true { machine.noting choice older query with memory }) :
    Tries context machine choice older count .found
      (goingOn { machine.noting choice older query with memory } choice.continuation)
  | mismatch {fact : Fact} {query : Query} {memory : Memory}
    (ahead : context.upcoming choice count = some (fact, query))
    (unified : Exec.unifyFact context.occursCheck choice.goal fact
      (machine.noting choice older query) =
        .ok false { machine.noting choice older query with memory }) :
    Tries context machine choice older count .missed
      { machine.noting choice older query with memory }
  /-- A clause is entered; the choice point goes with its last clause. -/
  | clause {rule : RuleId} (none_ahead : context.upcoming choice count = none)
    (here : (context.program.clauses choice.goal)[choice.position]? = some rule) :
    Tries context machine choice older count .found
      { machine.restored choice with
        choices := if choice.position + 1 = (context.program.clauses choice.goal).size then older
          else { choice with alternative := .clauses (choice.position + 1) } :: older
        rule := some rule
        counter := 0 }
  | exhausted (none_ahead : context.upcoming choice count = none)
    (none_here : (context.program.clauses choice.goal)[choice.position]? = none) :
    Tries context machine choice older count .exhausted
      { machine.restored choice with choices := older }

end Machine

namespace Exec

variable {context : Context}

theorem continueAfter_apply (continuation : Continuation) (machine : Machine) :
    continueAfter continuation machine = .ok ⟨⟩ (machine.goingOn continuation) := by
  cases continuation <;> rfl

theorem tryAnswer_eq_ok {machine later : Machine} {choice : Choice} {older : List Choice}
    (stack : machine.choices = choice :: older) {count : Nat} {finding : Finding}
    (ended : tryAnswer context count machine = .ok finding later) :
    choice.trailSize ≤ machine.memory.trail.size ∧
      machine.Tries context choice older count finding later := by
  obtain ⟨done, restored, back, rest⟩ := bind_eq_ok.1 ended
  obtain ⟨enough, rfl⟩ := restore_eq_ok back stack
  refine ⟨enough, ?_⟩
  simp only [bind_apply, get_apply, show (machine.restored choice).choices = choice :: older from
    stack] at rest
  cases ahead : context.upcoming choice count with
  | some found =>
    obtain ⟨fact, query⟩ := found
    simp only [ahead] at rest
    obtain ⟨_, noted, first, rest⟩ := bind_eq_ok.1 rest
    have noted_eq : noted = machine.noting choice older query := by
      simp only [setAlternative, modify_apply, show (machine.restored choice).choices =
        choice :: older from stack, EStateM.Result.ok.injEq, true_and] at first
      exact first.symm
    subst noted_eq
    obtain ⟨success, unified, first, rest⟩ := bind_eq_ok.1 rest
    obtain ⟨memory, rfl⟩ := unifyFact_eq_ok first
    cases success with
    | true =>
      simp only [if_true, bind_apply, continueAfter_apply] at rest
      cases rest
      exact .fact ahead first
    | false =>
      cases rest
      exact .mismatch ahead first
  | none =>
    simp only [ahead] at rest
    obtain ⟨taken, last, first, rest⟩ := bind_eq_ok.1 rest
    have same : (machine.restored choice).choices = choice :: older := stack
    cases here : (context.program.clauses choice.goal)[choice.position]? with
    | none =>
      simp only [takeClause, here, dropChoice, bind_apply, modify_apply, same, List.tail_cons,
        pure_apply, EStateM.Result.ok.injEq] at first
      obtain ⟨rfl, rfl⟩ := first
      cases rest
      exact .exhausted ahead here
    | some rule =>
      have taken_eq : taken = true ∧ last = { machine.restored choice with
          choices := if choice.position + 1 = (context.program.clauses choice.goal).size then older
            else { choice with alternative := .clauses (choice.position + 1) } :: older
          rule := some rule
          counter := 0 } := by
        simp only [takeClause, here] at first
        split at first
        · next last_clause =>
          simp only [dropChoice, jump, bind_apply, modify_apply, same, List.tail_cons, pure_apply,
            EStateM.Result.ok.injEq] at first
          simp [← first, last_clause]
        · next more =>
          simp only [setAlternative, jump, bind_apply, modify_apply, same, pure_apply,
            EStateM.Result.ok.injEq] at first
          simp [← first, more]
      obtain ⟨rfl, rfl⟩ := taken_eq
      cases rest
      exact .clause ahead here

/-- Once no fact may be tried, none is missed. -/
theorem tryAnswer_zero_ne_missed {machine later : Machine} :
    tryAnswer context 0 machine ≠ .ok .missed later := by
  intro ended
  cases stack : machine.choices with
  | nil =>
    simp [tryAnswer, restore, bind_apply, get_apply, pure_apply, stack] at ended
  | cons choice older =>
    obtain ⟨-, tries⟩ := tryAnswer_eq_ok stack ended
    cases tries with
    | mismatch ahead _ => simp [Context.upcoming] at ahead

/-- Trying an answer is neither a success nor a failure of the machine. -/
theorem status_tryAnswer {machine later : Machine} {count : Nat} {finding : Finding}
    (ended : tryAnswer context count machine = .ok finding later) :
    later.status = machine.status := by
  cases stack : machine.choices with
  | nil =>
    simp only [tryAnswer, restore, bind_apply, get_apply, pure_apply, stack,
      EStateM.Result.ok.injEq] at ended
    rw [← ended.2]
  | cons choice older =>
    obtain ⟨-, tries⟩ := tryAnswer_eq_ok stack ended
    cases tries with
    | fact => cases choice.continuation <;> rfl
    | mismatch | clause | exhausted => rfl

/-- A choice point without answers is dropped. -/
theorem choices_tryAnswer_exhausted {machine later : Machine} {count : Nat}
    (ended : tryAnswer context count machine = .ok .exhausted later) :
    later.choices = machine.choices.tail := by
  cases stack : machine.choices with
  | nil =>
    simp only [tryAnswer, restore, bind_apply, get_apply, pure_apply, stack,
      EStateM.Result.ok.injEq] at ended
    rw [← ended.2, stack]
    rfl
  | cons choice older =>
    obtain ⟨-, tries⟩ := tryAnswer_eq_ok stack ended
    cases tries with
    | exhausted => rfl

/-- Missing a fact leaves the older choice points as they are. -/
theorem tail_tryAnswer_missed {machine later : Machine} {count : Nat}
    (ended : tryAnswer context count machine = .ok .missed later) :
    later.choices.tail = machine.choices.tail := by
  cases stack : machine.choices with
  | nil => simp [tryAnswer, restore, bind_apply, get_apply, pure_apply, stack] at ended
  | cons choice older =>
    obtain ⟨-, tries⟩ := tryAnswer_eq_ok stack ended
    cases tries with
    | mismatch => rfl

/-- Push a choice point for a call. -/
def pushCall (goal : Functor) : Exec Unit := do
  modify fun machine ↦
    { machine with stats := { machine.stats with calls := machine.stats.calls + 1 } }
  let machine ← get
  match machine.rule with
  | none => throw (.badProgramCounter machine.counter)
  | some rule =>
    if goal.arity > machine.registers.size then
      throw (.badRegister goal.arity machine.registers.size)
    let arguments := machine.registers.extract 0 goal.arity
    let goalPattern ← pattern goal arguments
    modify fun machine ↦
      { machine with
        choices :=
          { goal, arguments
            alternative := .facts { pattern := goalPattern }
            environment := machine.environment
            continuation := .goTo rule machine.counter
            trailSize := machine.memory.trail.size
            heapSize := machine.memory.heap.size
            frameCount := machine.frames.size } :: machine.choices
        stats := { machine.stats with choicePoints := machine.stats.choicePoints + 1 } }

/-- A call of a predicate pushes a choice point and takes its next answer. -/
theorem call_predicate_eq (goal : Functor) :
    call context (.predicate goal) = (do pushCall goal; resume context) := by
  funext machine
  simp only [call, callPredicate, pushCall, bind_apply, modify_apply, get_apply]
  cases machine.rule with
  | none => rfl
  | some rule =>
    dsimp only
    split
    · rfl
    · simp only [bind_apply]
      cases pattern goal (machine.registers.extract 0 goal.arity) _ with
      | ok found later => rfl
      | error fault later => rfl

/-- The term that stands for an argument in a pattern for facts. -/
def Sees (heap : Heap) (argument : Option Address) (term : Term) : Prop :=
  ∃ address, argument = some address ∧ (heap.extract address = .ok term ∨
    heap.extract address = .error .cyclicTerm ∧ term = .var address)

theorem patternArg_eq_ok {index : Nat} {argument : Option Address} {machine later : Machine}
    {term : Term} (ended : patternArg index argument machine = .ok term later) :
    later = machine ∧ Sees machine.memory.heap argument term := by
  cases argument with
  | none => cases ended
  | some address =>
    simp only [patternArg, bind_apply, get_apply] at ended
    cases read : machine.memory.heap.extract address with
    | ok found =>
      simp only [read] at ended
      cases ended
      exact ⟨rfl, address, rfl, .inl read⟩
    | error fault =>
      simp only [read] at ended
      cases fault with
      | cyclicTerm =>
        cases ended
        exact ⟨rfl, address, rfl, .inr ⟨read, rfl⟩⟩
      | _ => cases ended

private theorem patternArgs_eq_ok {entries : List (Option Address)} {start : Nat}
    {machine later : Machine}
    {args : List Term} (ended : (List.mapM (fun (argument, index) ↦ patternArg index argument)
      (entries.zipIdx start) : Exec (List Term)) machine = .ok args later) :
    later = machine ∧ List.Forall₂ (Sees machine.memory.heap) entries args := by
  induction entries generalizing start args with
  | nil =>
    cases ended
    exact ⟨rfl, .nil⟩
  | cons entry entries ih =>
    rw [List.zipIdx_cons, List.mapM_cons] at ended
    obtain ⟨arg, last, first, rest⟩ := bind_eq_ok.1 ended
    obtain ⟨rfl, sees⟩ := patternArg_eq_ok first
    obtain ⟨others, next, second, rest⟩ := bind_eq_ok.1 rest
    cases rest
    obtain ⟨same, all⟩ := ih second
    exact ⟨same, .cons sees all⟩

/-- A goal is read without changing the machine. -/
theorem pattern_eq_ok {goal : Functor} {arguments : Array (Option Address)}
    {machine later : Machine}
    {term : Term} (ended : pattern goal arguments machine = .ok term later) :
    later = machine ∧ ∃ args, List.Forall₂ (Sees machine.memory.heap) arguments.toList args ∧
      term = Term.apply goal.symbol args := by
  obtain ⟨args, last, read, rest⟩ := bind_eq_ok.1 ended
  cases rest
  obtain ⟨same, all⟩ := patternArgs_eq_ok read
  exact ⟨same, args, all, rfl⟩

end Exec

/-- The choice point of a call made by a rule. -/
def Machine.calling (machine : Machine) (goal : Functor) (rule : RuleId) (pattern : Term) :
    Choice where
  goal := goal
  alternative := .facts { pattern }
  arguments := machine.registers.extract 0 goal.arity
  environment := machine.environment
  continuation := .goTo rule machine.counter
  trailSize := machine.memory.trail.size
  heapSize := machine.memory.heap.size
  frameCount := machine.frames.size

theorem Exec.pushCall_eq_ok {goal : Functor} {machine later : Machine} {done : Unit}
    (ended : pushCall goal machine = .ok done later) :
    ∃ rule args, machine.rule = some rule ∧ goal.arity ≤ machine.registers.size ∧
      List.Forall₂ (Sees machine.memory.heap) (machine.registers.extract 0 goal.arity).toList args ∧
      later = { machine with
        choices := machine.calling goal rule (Term.apply goal.symbol args) :: machine.choices
        stats := { machine.stats with
          calls := machine.stats.calls + 1, choicePoints := machine.stats.choicePoints + 1 } } := by
  simp only [pushCall, bind_apply, modify_apply, get_apply] at ended
  cases running : machine.rule with
  | none => simp [running, throw_apply] at ended
  | some rule =>
    simp only [running] at ended
    split at ended
    · cases ended
    · next enough =>
      obtain ⟨term, last, read, rest⟩ := bind_eq_ok.1 ended
      obtain ⟨rfl, args, all, rfl⟩ := pattern_eq_ok read
      rw [modify_apply] at rest
      cases rest
      exact ⟨rule, args, rfl, Nat.le_of_not_lt enough, all, rfl⟩

/-! ### Passes -/

/-- A moment of a run. -/
structure Moment where
  machine : Machine
  seeking : Option Nat
  /-- The machines that pushed the choice points, the newest first. -/
  origins : List Machine

namespace Machine

/-- The machine with its next instruction counted and fetched. -/
def begun (machine : Machine) : Machine :=
  { machine with
    steps := machine.steps + 1
    stats := { machine.stats with instructions := machine.stats.instructions + 1 }
    offset := machine.counter
    counter := machine.counter + 1 }

/-- The next instruction of the machine and the rule that it is in. -/
structure Fetches (context : Context) (machine : Machine) (compiled : CompiledRule)
    (instruction : Instruction) : Prop where
  rule : ∃ rule, machine.rule = some rule ∧ context.program.rule? rule = some compiled
  code : compiled.code[machine.counter]? = some instruction

namespace Fetches

variable {context : Context} {machine : Machine} {compiled other : CompiledRule}
  {instruction another : Instruction}

/-- What is fetched is in the code of the running rule. -/
theorem eq_compiled (fetches : machine.Fetches context compiled instruction) {rule : RuleId}
    (running : machine.rule = some rule) (found : context.program.rule? rule = some other) :
    compiled = other := by
  obtain ⟨_, at_rule, listed⟩ := fetches.rule
  cases at_rule.symm.trans running
  exact Option.some.inj (listed.symm.trans found)

/-- There is one next instruction. -/
theorem unique (fetches : machine.Fetches context compiled instruction)
    (again : machine.Fetches context other another) : other = compiled ∧ another = instruction := by
  obtain ⟨rule, at_rule, listed⟩ := fetches.rule
  obtain rfl := again.eq_compiled at_rule listed
  exact ⟨rfl, Option.some.inj (again.code.symm.trans fetches.code)⟩

end Fetches

/-- The machine with one more return to a choice point counted. -/
def returning (machine : Machine) : Machine :=
  { machine with stats := { machine.stats with backtracks := machine.stats.backtracks + 1 } }

/-- The machine after an instruction that succeeded or failed. -/
def after (machine : Machine) : Bool → Machine
  | true => machine
  | false => { machine with status := .backtracking }

end Machine

namespace Moment

/-- What a run does in one pass. -/
inductive Passes (context : Context) : Moment → Moment → Prop
  | run {machine later : Machine} {origins : List Machine} {compiled : CompiledRule}
    {instruction : Instruction} {success : Bool} (running : machine.status = .running)
    (fetches : machine.Fetches context compiled instruction)
    (other : ∀ goal, instruction ≠ .call (.predicate goal))
    (ended : Exec.execute context compiled instruction machine.begun = .ok success later) :
    Passes context ⟨machine, none, origins⟩ ⟨later.after success, none, origins⟩
  | call {machine later : Machine} {origins : List Machine} {compiled : CompiledRule}
    {goal : Functor} (running : machine.status = .running)
    (fetches : machine.Fetches context compiled (.call (.predicate goal)))
    (ended : Exec.pushCall goal machine.begun = .ok ⟨⟩ later) :
    Passes context ⟨machine, none, origins⟩
      ⟨later, some (context.store.factsOf goal).size, machine.begun :: origins⟩
  | miss {machine later : Machine} {origins : List Machine} {count : Nat}
    (ended : Exec.tryAnswer context (count + 1) machine = .ok .missed later) :
    Passes context ⟨machine, some (count + 1), origins⟩ ⟨later, some count, origins⟩
  | find {machine later : Machine} {origins : List Machine} {count : Nat}
    (ended : Exec.tryAnswer context count machine = .ok .found later) :
    Passes context ⟨machine, some count, origins⟩
      ⟨{ later with status := .running }, none,
        origins.drop (machine.choices.length - later.choices.length)⟩
  | exhaust {machine later : Machine} {origins : List Machine} {count : Nat}
    (ended : Exec.tryAnswer context count machine = .ok .exhausted later) :
    Passes context ⟨machine, some count, origins⟩
      ⟨{ later with status := .backtracking }, none,
        origins.drop (machine.choices.length - later.choices.length)⟩
  | back {machine : Machine} {origins : List Machine} {choice : Choice} {older : List Choice}
    (backtracking : machine.status = .backtracking) (stack : machine.choices = choice :: older) :
    Passes context ⟨machine, none, origins⟩
      ⟨machine.returning, some (context.store.factsOf choice.goal).size, origins⟩
  | stop {machine : Machine} {origins : List Machine}
    (backtracking : machine.status = .backtracking) (stack : machine.choices = []) :
    Passes context ⟨machine, none, origins⟩ ⟨{ machine with status := .failed }, none, origins⟩

/-- How a run is broken off. -/
inductive Faults (context : Context) : Moment → AttemptError → Prop
  | cancelled {moment : Moment} : Faults context moment .cancelled
  | stepLimit {moment : Moment} : Faults context moment (.stepLimit context.stepLimit)
  | lost {machine : Machine} {origins : List Machine} {error : AttemptError}
    (running : machine.status = .running)
    (nowhere : ∀ compiled instruction, ¬machine.Fetches context compiled instruction) :
    Faults context ⟨machine, none, origins⟩ error
  | run {machine later : Machine} {origins : List Machine} {compiled : CompiledRule}
    {instruction : Instruction} {fault : Fault} (running : machine.status = .running)
    (fetches : machine.Fetches context compiled instruction)
    (other : ∀ goal, instruction ≠ .call (.predicate goal))
    (ended : Exec.execute context compiled instruction machine.begun = .error fault later) :
    Faults context ⟨machine, none, origins⟩ (later.faultHere fault)
  | call {machine later : Machine} {origins : List Machine} {compiled : CompiledRule}
    {goal : Functor} {fault : Fault} (running : machine.status = .running)
    (fetches : machine.Fetches context compiled (.call (.predicate goal)))
    (ended : Exec.pushCall goal machine.begun = .error fault later) :
    Faults context ⟨machine, none, origins⟩ (later.faultHere fault)
  | answer {machine later : Machine} {origins : List Machine} {count : Nat} {fault : Fault}
    (ended : Exec.tryAnswer context count machine = .error fault later) :
    Faults context ⟨machine, some count, origins⟩ (later.faultHere fault)

/-- How a run is broken off, and the machine that is left, whatever its status is then. -/
inductive Halts (context : Context) : Moment → AttemptError → Machine → Prop
  | cancelled {moment : Moment} {status : Status} :
    Halts context moment .cancelled { moment.machine with status }
  | stepLimit {moment : Moment} {status : Status} :
    Halts context moment (.stepLimit context.stepLimit) { moment.machine with status }
  | lost {machine later : Machine} {origins : List Machine} {error : AttemptError}
    (running : machine.status = .running)
    (nowhere : ∀ compiled instruction, ¬machine.Fetches context compiled instruction) :
    Halts context ⟨machine, none, origins⟩ error later
  | run {machine later : Machine} {origins : List Machine} {compiled : CompiledRule}
    {instruction : Instruction} {fault : Fault} {status : Status}
    (running : machine.status = .running)
    (fetches : machine.Fetches context compiled instruction)
    (other : ∀ goal, instruction ≠ .call (.predicate goal))
    (ended : Exec.execute context compiled instruction machine.begun = .error fault later) :
    Halts context ⟨machine, none, origins⟩ (later.faultHere fault) { later with status }
  | call {machine later : Machine} {origins : List Machine} {compiled : CompiledRule}
    {goal : Functor} {fault : Fault} {status : Status} (running : machine.status = .running)
    (fetches : machine.Fetches context compiled (.call (.predicate goal)))
    (ended : Exec.pushCall goal machine.begun = .error fault later) :
    Halts context ⟨machine, none, origins⟩ (later.faultHere fault) { later with status }
  | answer {machine later : Machine} {origins : List Machine} {count : Nat} {fault : Fault}
    {status : Status} (ended : Exec.tryAnswer context count machine = .error fault later) :
    Halts context ⟨machine, some count, origins⟩ (later.faultHere fault) { later with status }

/-- A moment is reached by passes. -/
abbrev Reaches (context : Context) : Moment → Moment → Prop :=
  Relation.ReflTransGen (Passes context)

/-- A moment is reached by passes at which the run is broken off with an error and leaves a
machine. -/
def Breaks (context : Context) (moment : Moment) (error : AttemptError) (left : Machine) : Prop :=
  ∃ later, moment.Reaches context later ∧ later.Halts context error left

variable {context : Context} {moment later : Moment} {error : AttemptError} {left : Machine}

theorem Halts.faults (halts : moment.Halts context error left) : moment.Faults context error := by
  cases halts with
  | cancelled => exact .cancelled
  | stepLimit => exact .stepLimit
  | lost running nowhere => exact .lost running nowhere
  | run running fetches other ended => exact .run running fetches other ended
  | call running fetches ended => exact .call running fetches ended
  | answer ended => exact .answer ended

theorem Breaks.of_reaches (reaches : moment.Reaches context later)
    (breaks : later.Breaks context error left) : moment.Breaks context error left := by
  obtain ⟨last, rest, halts⟩ := breaks
  exact ⟨last, reaches.trans rest, halts⟩

/-- What is left may be given any status. -/
theorem Breaks.withStatus (breaks : moment.Breaks context error left) (status : Status) :
    moment.Breaks context error { left with status } := by
  obtain ⟨last, reaches, halts⟩ := breaks
  refine ⟨last, reaches, ?_⟩
  cases halts with
  | cancelled => exact .cancelled
  | stepLimit => exact .stepLimit
  | lost running nowhere => exact .lost running nowhere
  | run running fetches other ended => exact .run running fetches other ended
  | call running fetches ended => exact .call running fetches ended
  | answer ended => exact .answer ended

end Moment

namespace Machine

open Moment

variable (context : Context)

/-- Trying answers one after another is a number of passes. -/
theorem reaches_seek (count : Nat) (machine : Machine) (origins : List Machine) :
    match Exec.seek context count machine with
    | .ok true later => later.status = machine.status ∧ ∃ left,
        Reaches context ⟨machine, some count, origins⟩
          ⟨{ later with status := .running }, none, left⟩
    | .ok false later => later.status = machine.status ∧ later.choices = machine.choices.tail ∧
        ∃ left, Reaches context ⟨machine, some count, origins⟩
          ⟨{ later with status := .backtracking }, none, left⟩
    | .error fault later =>
        Breaks context ⟨machine, some count, origins⟩ (later.faultHere fault) later := by
  induction count generalizing machine with
  | zero =>
    simp only [Exec.seek, bind_apply]
    cases ended : Exec.tryAnswer context 0 machine with
    | error fault later => exact ⟨_, .refl, .answer ended⟩
    | ok finding later =>
      cases finding with
      | found => exact ⟨Exec.status_tryAnswer ended, _, .single (.find ended)⟩
      | missed => exact absurd ended Exec.tryAnswer_zero_ne_missed
      | exhausted => exact ⟨Exec.status_tryAnswer ended, Exec.choices_tryAnswer_exhausted ended, _,
          .single (.exhaust ended)⟩
  | succ count ih =>
    simp only [Exec.seek, bind_apply]
    cases ended : Exec.tryAnswer context (count + 1) machine with
    | error fault later => exact ⟨_, .refl, .answer ended⟩
    | ok finding later =>
      cases finding with
      | found => exact ⟨Exec.status_tryAnswer ended, _, .single (.find ended)⟩
      | exhausted => exact ⟨Exec.status_tryAnswer ended, Exec.choices_tryAnswer_exhausted ended, _,
          .single (.exhaust ended)⟩
      | missed =>
        have rest := ih later
        dsimp only
        split
        · next last sought =>
          rw [sought] at rest
          obtain ⟨status, left, reaches⟩ := rest
          exact ⟨status.trans (Exec.status_tryAnswer ended), left, .head (.miss ended) reaches⟩
        · next last sought =>
          rw [sought] at rest
          obtain ⟨status, stack, left, reaches⟩ := rest
          exact ⟨status.trans (Exec.status_tryAnswer ended), stack.trans
            (Exec.tail_tryAnswer_missed ended), left, .head (.miss ended) reaches⟩
        · next fault last sought =>
          rw [sought] at rest
          exact rest.of_reaches (.single (.miss ended))

variable {context} in
private theorem step_of_fetches {machine : Machine} {compiled : CompiledRule}
    {instruction : Instruction}
    (going : context.cancelled = false) (few : machine.steps < context.stepLimit)
    (fetches : machine.Fetches context compiled instruction) :
    step context machine =
      match Exec.execute context compiled instruction machine.begun with
      | .ok success later => .ok ⟨⟩ (later.after success)
      | .error fault later => .error (later.faultHere fault) later := by
  obtain ⟨⟨rule, running, found⟩, here⟩ := fetches
  simp only [step, going, Bool.false_eq_true, if_false, bind_apply, get_apply,
    Nat.not_le.2 few, ge_iff_le, modify_apply, running, found, here, Run.ofExec, begun]
  generalize Exec.execute context compiled instruction _ = result
  cases result with
  | ok success later => cases success <;> rfl
  | error fault later => rfl

/-- Without a next instruction, a turn ends in an error. -/
theorem exists_step_of_lost {machine : Machine} (going : context.cancelled = false)
    (few : machine.steps < context.stepLimit)
    (nowhere : ∀ compiled instruction, ¬machine.Fetches context compiled instruction) :
    ∃ error later, step context machine = .error error later := by
  simp only [step, going, Bool.false_eq_true, if_false, bind_apply, get_apply,
    Nat.not_le.2 few, ge_iff_le, modify_apply]
  cases at_rule : machine.rule with
  | none => exact ⟨_, _, rfl⟩
  | some rule =>
    cases found : context.program.rule? rule with
    | none =>
      simp only [found]
      exact ⟨_, _, rfl⟩
    | some compiled =>
      cases here : compiled.code[machine.counter]? with
      | none =>
        simp only [found, here]
        exact ⟨_, _, rfl⟩
      | some instruction => exact absurd ⟨⟨rule, at_rule, found⟩, here⟩ (nowhere _ _)

/-- A call is a pass that pushes the choice point, and passes that seek its first answer. -/
theorem reaches_call {machine : Machine} {compiled : CompiledRule} {goal : Functor}
    (running : machine.status = .running)
    (fetches : machine.Fetches context compiled (.call (.predicate goal)))
    (origins : List Machine) :
    match Exec.execute context compiled (.call (.predicate goal)) machine.begun with
    | .ok success later =>
      ∃ left, Reaches context ⟨machine, none, origins⟩ ⟨later.after success, none, left⟩
    | .error fault later =>
      Breaks context ⟨machine, none, origins⟩ (later.faultHere fault) later := by
  rw [show Exec.execute context compiled (.call (.predicate goal)) =
    (do Exec.pushCall goal; Exec.resume context) from Exec.call_predicate_eq goal]
  simp only [bind_apply]
  cases pushed : Exec.pushCall goal machine.begun with
  | error fault later => exact ⟨_, .refl, .call running fetches pushed⟩
  | ok done later =>
    obtain ⟨rule, args, -, -, -, same⟩ := Exec.pushCall_eq_ok pushed
    have stack : later.choices = machine.begun.calling goal rule
        (Term.apply goal.symbol args) :: machine.choices := by
      rw [same]
      rfl
    have status : later.status = .running := by
      rw [same]
      exact running
    have call : Reaches context ⟨machine, none, origins⟩
        ⟨later, some (context.store.factsOf goal).size, machine.begun :: origins⟩ :=
      .single (.call running fetches pushed)
    have sought :=
      reaches_seek context (context.store.factsOf goal).size later (machine.begun :: origins)
    simp only [Exec.resume_eq_seek stack, show (machine.begun.calling goal rule
      (Term.apply goal.symbol args)).goal = goal from rfl]
    cases found : Exec.seek context (context.store.factsOf goal).size later with
    | error fault last =>
      rw [found] at sought
      exact sought.of_reaches call
    | ok success last =>
      rw [found] at sought
      cases success with
      | true =>
        obtain ⟨same, left, reaches⟩ := sought
        rw [status] at same
        have still : { last with status := .running } = last := by rw [← same]
        rw [still] at reaches
        exact ⟨left, call.trans reaches⟩
      | false =>
        obtain ⟨-, -, left, reaches⟩ := sought
        exact ⟨left, call.trans reaches⟩

/-- An instruction is a number of passes, and one unless it is a call. -/
theorem reaches_execute {machine : Machine} {compiled : CompiledRule} {instruction : Instruction}
    (running : machine.status = .running) (fetches : machine.Fetches context compiled instruction)
    (origins : List Machine) :
    match Exec.execute context compiled instruction machine.begun with
    | .ok success later =>
      ∃ left, Reaches context ⟨machine, none, origins⟩ ⟨later.after success, none, left⟩
    | .error fault later =>
      Breaks context ⟨machine, none, origins⟩ (later.faultHere fault) later := by
  by_cases predicate : ∃ goal, instruction = .call (.predicate goal)
  · obtain ⟨goal, rfl⟩ := predicate
    exact reaches_call context running fetches origins
  · have other (goal : Functor) : instruction ≠ .call (.predicate goal) := by
      rintro rfl
      exact predicate ⟨goal, rfl⟩
    cases ended : Exec.execute context compiled instruction machine.begun with
    | ok success later => exact ⟨_, .single (.run running fetches other ended)⟩
    | error fault later => exact ⟨_, .refl, .run running fetches other ended⟩

/-- A turn of the machine is a number of passes, or the run is broken off at it. -/
theorem reaches_step {machine : Machine} (running : machine.status = .running)
    (origins : List Machine) :
    match step context machine with
    | .ok _ later => ∃ left, Reaches context ⟨machine, none, origins⟩ ⟨later, none, left⟩
    | .error error later => Breaks context ⟨machine, none, origins⟩ error later := by
  by_cases going : context.cancelled = true
  · simp only [step, going, if_true, bind_apply, throw_apply]
    exact ⟨_, .refl, .cancelled⟩
  have going : context.cancelled = false := by simpa using going
  by_cases few : machine.steps < context.stepLimit
  swap
  · simp only [step, going, Bool.false_eq_true, if_false, bind_apply, get_apply, Nat.not_lt.1 few,
      ge_iff_le, if_true, throw_apply]
    exact ⟨_, .refl, .stepLimit⟩
  by_cases fetches : ∃ compiled instruction, machine.Fetches context compiled instruction
  · obtain ⟨compiled, instruction, fetches⟩ := fetches
    have executed := reaches_execute context running fetches origins
    rw [step_of_fetches going few fetches]
    cases ended : Exec.execute context compiled instruction machine.begun with
    | ok success later =>
      rw [ended] at executed
      exact executed
    | error fault later =>
      rw [ended] at executed
      exact executed
  · have nowhere : ∀ compiled instruction, ¬machine.Fetches context compiled instruction :=
      fun compiled instruction here ↦ fetches ⟨compiled, instruction, here⟩
    obtain ⟨error, later, ended⟩ := exists_step_of_lost context going few nowhere
    rw [ended]
    exact ⟨_, .refl, .lost running nowhere⟩

variable {context} in
theorem backtrackOver_cons (choice : Choice) (older : List Choice) (machine : Machine) :
    backtrackOver context (choice :: older) machine =
      match Exec.resume context machine.returning with
      | .ok true later => .ok ⟨⟩ { later with status := .running }
      | .ok false later => backtrackOver context older later
      | .error fault later => .error (later.faultHere fault) later := by
  simp only [backtrackOver, bind_apply, modify_apply, Run.ofExec, returning]
  generalize Exec.resume context _ = result
  cases result with
  | ok success later => cases success <;> rfl
  | error fault later => rfl

/-- Going back is a number of passes. -/
theorem reaches_backtrackOver {machine : Machine} (backtracking : machine.status = .backtracking)
    {choices : List Choice} (stack : machine.choices = choices) (origins : List Machine) :
    match backtrackOver context choices machine with
    | .ok _ later => ∃ left, Reaches context ⟨machine, none, origins⟩ ⟨later, none, left⟩
    | .error error later => Breaks context ⟨machine, none, origins⟩ error later := by
  induction choices generalizing machine origins with
  | nil => exact ⟨_, .single (.stop backtracking stack)⟩
  | cons choice older ih =>
    have back : Reaches context ⟨machine, none, origins⟩
        ⟨machine.returning, some (context.store.factsOf choice.goal).size, origins⟩ :=
      .single (.back backtracking stack)
    rw [backtrackOver_cons, Exec.resume_eq_seek (show machine.returning.choices = _ from stack)]
    have sought := reaches_seek context (context.store.factsOf choice.goal).size
      machine.returning origins
    cases found : Exec.seek context (context.store.factsOf choice.goal).size
      machine.returning with
    | error fault last =>
      rw [found] at sought
      exact sought.of_reaches back
    | ok success last =>
      rw [found] at sought
      cases success with
      | true =>
        obtain ⟨-, left, reaches⟩ := sought
        exact ⟨left, back.trans reaches⟩
      | false =>
        obtain ⟨status, tail, left, reaches⟩ := sought
        have still_backtracking : last.status = .backtracking := status.trans backtracking
        have still : { last with status := .backtracking } = last := by rw [← still_backtracking]
        rw [still] at reaches
        have older_left : last.choices = older := by
          rw [tail]
          exact congrArg List.tail stack
        have rest := ih still_backtracking older_left left
        dsimp only
        cases gone : backtrackOver context older last with
        | ok done later =>
          rw [gone] at rest
          obtain ⟨left, more⟩ := rest
          exact ⟨left, (back.trans reaches).trans more⟩
        | error error later =>
          rw [gone] at rest
          exact rest.of_reaches (back.trans reaches)

/-- How a run that is not broken off ends: it has failed, or it hands out a solution. -/
inductive Ends (last : Machine) : Option Solution → Machine → Prop
  | failed (failed : last.status = .failed ∨ last.status = .idle) : Ends last none last
  | succeeded (succeeded : last.status = .succeeded) :
    Ends last last.pending { last with pending := none }

/-- A run is a number of passes. -/
theorem reaches_runWithin (turns : Nat) (machine : Machine) (origins : List Machine) :
    match runWithin context turns machine with
    | .ok result later => ∃ last left,
        Reaches context ⟨machine, none, origins⟩ ⟨last, none, left⟩ ∧ last.Ends result later
    | .error error later => Breaks context ⟨machine, none, origins⟩ error later := by
  induction turns generalizing machine origins with
  | zero => exact ⟨_, .refl, .stepLimit⟩
  | succ turns ih =>
    have goes_on {turn : Run Unit} (first : match turn machine with
        | .ok _ later => ∃ left, Reaches context ⟨machine, none, origins⟩ ⟨later, none, left⟩
        | .error error later => Breaks context ⟨machine, none, origins⟩ error later) :
        match (do turn; runWithin context turns) machine with
        | .ok result later => ∃ last left,
            Reaches context ⟨machine, none, origins⟩ ⟨last, none, left⟩ ∧ last.Ends result later
        | .error error later => Breaks context ⟨machine, none, origins⟩ error later := by
      simp only [bind_apply]
      cases ended : turn machine with
      | error error later => rwa [ended] at first
      | ok done later =>
        rw [ended] at first
        obtain ⟨left, reaches⟩ := first
        have rest := ih later left
        dsimp only
        cases finished : runWithin context turns later with
        | error error final =>
          rw [finished] at rest
          exact rest.of_reaches reaches
        | ok result final =>
          rw [finished] at rest
          obtain ⟨last, left, more, ends⟩ := rest
          exact ⟨last, left, reaches.trans more, ends⟩
    simp only [runWithin, bind_apply, get_apply]
    cases status : machine.status with
    | failed => exact ⟨_, _, .refl, .failed (.inl status)⟩
    | idle => exact ⟨_, _, .refl, .failed (.inr status)⟩
    | succeeded => exact ⟨_, _, .refl, .succeeded status⟩
    | running =>
      have first := reaches_step context status origins
      exact goes_on first
    | backtracking =>
      have first := reaches_backtrackOver context status rfl origins
      exact goes_on first

/-- The machine when the next solution is searched for: after a solution it goes back. -/
def resumed (machine : Machine) : Machine :=
  if machine.status = .succeeded then { machine with status := .backtracking } else machine

theorem resumed_of_ne {machine : Machine} (unsolved : machine.status ≠ .succeeded) :
    machine.resumed = machine :=
  if_neg unsolved

/-- A machine without an attempt to go on with finds no solution. -/
theorem nextSolution_of_still (context : Context) {machine : Machine}
    (still : machine.status = .idle ∨ machine.status = .failed) :
    machine.nextSolution context = .ok none machine := by
  have unsolved : machine.status ≠ .succeeded := by
    obtain idle | failed := still <;> simp [*]
  rw [nextSolution, if_neg unsolved, turnBound, runWithin, bind_apply, get_apply]
  obtain idle | failed := still
  · simp [idle, pure_apply]
  · simp [failed, pure_apply]

/-- The search for a solution is a number of passes, and it is broken off where a pass is. -/
theorem reaches_nextSolution (machine : Machine) (origins : List Machine) :
    match nextSolution context machine with
    | .ok result later => ∃ last left,
        Reaches context ⟨machine.resumed, none, origins⟩ ⟨last, none, left⟩ ∧ last.Ends result later
    | .error error later => Breaks context ⟨machine.resumed, none, origins⟩ error later := by
  have run := reaches_runWithin context (machine.resumed.turnBound context)
    machine.resumed origins
  have unfolded : nextSolution context machine =
      match runWithin context (machine.resumed.turnBound context) machine.resumed with
      | .ok solution machine => .ok solution machine
      | .error error machine => .error error { machine with status := .failed } := rfl
  rw [unfolded]
  cases ended : runWithin context (machine.resumed.turnBound context) machine.resumed with
  | ok result later => rwa [ended] at run
  | error error later =>
    rw [ended] at run
    exact run.withStatus .failed

end Machine
end HornMachine
