import HornMachine.Proofs.Consequences
import HornMachine.Proofs.Machine.Enumeration
import HornMachine.Proofs.Machine.Twins

/-!
# More facts

A rule is attempted with some facts, and with more. Where the facts of one store are among those of
the other, so are the answers of each call, in the same order. The run with more facts follows the
other one: both do the same until a fact is tried that only one of them has. Then the other waits at
its choice point until the run goes back to its own, which gives the state of the same call again,
whatever was done in between. Main statement: the solutions found with fewer facts are among those
found with more, in the same order.
-/

namespace HornMachine

/-! ### Facts left to try -/

/-- A search finds in a store what it finds in one with fewer facts. -/
theorem FactStore.matching_sublist {store larger : FactStore} (consistent : store.Consistent)
    (consistent' : larger.Consistent)
    (more : ∀ functor, (store.factsOf functor).toList.Sublist (larger.factsOf functor).toList)
    (pattern : Term) : (store.matching pattern).Sublist (larger.matching pattern) := by
  cases called : pattern.functor? with
  | some functor =>
    rw [consistent.matching_eq called, consistent'.matching_eq called]
    exact (more functor).filter _
  | none =>
    have nothing : store.matching pattern = [] := by
      refine List.eq_nil_iff_forall_not_mem.2 fun fact member ↦ ?_
      obtain ⟨functor, searched, -⟩ := mem_factsOf_of_mem_remaining member
      cases called.symm.trans searched
    rw [nothing]
    exact List.nil_sublist _

/-- Two contexts with the same rules, where one has the facts of the other and more. -/
structure Context.Poorer (context larger : Context) : Prop where
  program : larger.program = context.program
  occursCheck : larger.occursCheck = context.occursCheck
  consistent : context.store.Consistent
  consistent_larger : larger.store.Consistent
  facts : ∀ functor, (context.store.factsOf functor).toList.Sublist
    (larger.store.factsOf functor).toList

/-- The facts ahead of two calls: there is none, both calls try the same one, or one call tries a
fact that the other does not have. -/
theorem Context.Poorer.compare {context larger : Context} (poorer : context.Poorer larger)
    {choice other : Choice}
    {count count' : Nat} (facts : (context.factsLeft choice).Sublist (larger.factsLeft other))
    (enough : context.store.Consistent → context.Enough choice count)
    (enough' : larger.store.Consistent → larger.Enough other count') :
    (context.upcoming choice count = none ∧ larger.upcoming other count' = none) ∨
      ∃ fact query', larger.upcoming other count' = some (fact, query') ∧
        ((∃ query, context.upcoming choice count = some (fact, query) ∧
            (context.factsLeft { choice with alternative := .facts query }).Sublist
              (larger.factsLeft { other with alternative := .facts query' })) ∨
          (context.factsLeft choice).Sublist
            (larger.factsLeft { other with alternative := .facts query' })) := by
  cases ahead' : larger.upcoming other count' with
  | none =>
    rw [factsLeft_of_none poorer.consistent_larger (enough' poorer.consistent_larger) ahead',
      List.sublist_nil] at facts
    cases ahead : context.upcoming choice count with
    | none => exact .inl ⟨rfl, rfl⟩
    | some found =>
      rw [factsLeft_of_upcoming poorer.consistent ahead] at facts
      cases facts
  | some found =>
    obtain ⟨fact, query'⟩ := found
    refine .inr ⟨fact, query', rfl, ?_⟩
    rw [factsLeft_of_upcoming poorer.consistent_larger ahead', List.sublist_cons_iff] at facts
    obtain skipped | ⟨others, left, fewer⟩ := facts
    · exact .inr skipped
    · cases ahead : context.upcoming choice count with
      | none =>
        rw [factsLeft_of_none poorer.consistent (enough poorer.consistent) ahead] at left
        cases left
      | some found =>
        rw [factsLeft_of_upcoming poorer.consistent ahead] at left
        cases left
        exact .inl ⟨found.2, rfl, fewer⟩

/-- Instructions other than calls of predicates do not look at the facts. -/
theorem Exec.execute_congr {context larger : Context}
    (same : larger.occursCheck = context.occursCheck)
    (compiled : CompiledRule) {instruction : Instruction}
    (silent : ∀ goal, instruction ≠ .call (.predicate goal)) :
    execute larger compiled instruction = execute context compiled instruction := by
  cases instruction with
  | call target =>
    cases target with
    | builtin => simp only [execute, call, same]
    | predicate goal => exact absurd rfl (silent goal)
  | _ => simp only [execute, same]

/-! ### Choice points -/

section Pairs

variable (program : Program) (context larger : Context)

/-- Two choice points of calls that are alike, where the facts that one has left are among those of
the other. -/
structure Choice.Paired (choice other : Choice) (origin twin : Machine) : Prop where
  goal : other.goal = choice.goal
  position : other.position = choice.position
  facts : (context.factsLeft choice).Sublist (larger.factsLeft other)
  call : ∃ live, Machine.Call program choice.goal live origin twin

/-- The choice points of a run, with the machines that pushed them, are among those of another. -/
inductive Choice.Among : List Choice → List Machine → List Choice → List Machine → Prop
  | nil : Among [] [] [] []
  | extra {choices others : List Choice} {origins twins : List Machine} {other : Choice}
    {twin : Machine} (rest : Among choices origins others twins) :
    Among choices origins (other :: others) (twin :: twins)
  | both {choices others : List Choice} {origins twins : List Machine} {choice other : Choice}
    {origin twin : Machine} (first : Paired program context larger choice other origin twin)
    (rest : Among choices origins others twins) :
    Among (choice :: choices) (origin :: origins) (other :: others) (twin :: twins)

variable {program context larger} in
/-- The newest choice point of the other run is one more, or it is of the same call as the first
run's. -/
theorem Choice.Among.cases_cons {choices others : List Choice} {origins twins : List Machine}
    {other : Choice} {twin : Machine}
    (among : Among program context larger choices origins (other :: others) (twin :: twins)) :
    Among program context larger choices origins others twins ∨
      ∃ choice older origin rest, choices = choice :: older ∧ origins = origin :: rest ∧
        Paired program context larger choice other origin twin ∧
        Among program context larger older rest others twins := by
  cases among with
  | extra rest => exact .inl rest
  | both first rest => exact .inr ⟨_, _, _, _, rfl, rfl, first, rest⟩

variable {program context larger} in
theorem Choice.Among.eq_nil {choices : List Choice} {origins twins : List Machine}
    (among : Among program context larger choices origins [] twins) : choices = [] := by
  cases among
  rfl

/-- A run with fewer facts and one with more, at moments when the second has found all that the
first has. -/
inductive Moment.Follows : Moment → Moment → Prop
  | together {machine other : Machine} {origins twins : List Machine}
    (running : machine.status = .running)
    (running' : other.status = .running) (alike : Machine.Twins program machine other)
    (among : Choice.Among program context larger machine.choices origins other.choices twins) :
    Follows ⟨machine, none, origins⟩ ⟨other, none, twins⟩
  | solved {machine other : Machine} {origins twins : List Machine}
    (succeeded : machine.status = .succeeded) (succeeded' : other.status = .succeeded)
    (same : other.pending = machine.pending)
    (among : Choice.Among program context larger machine.choices origins other.choices twins) :
    Follows ⟨machine, none, origins⟩ ⟨other, none, twins⟩
  | waiting {moment other : Moment}
    (waits : moment.seeking = none → moment.machine.status = .backtracking)
    (among : Choice.Among program context larger moment.machine.choices moment.origins
      other.machine.choices
      other.origins) : Follows moment other

end Pairs

/-! ### Answers tried -/

@[simp] theorem Machine.choices_goingOn (machine : Machine) (continuation : Continuation) :
    (machine.goingOn continuation).choices = machine.choices := by
  cases continuation <;> rfl

namespace Moment

variable {trial : Trial} {context : Context} {machine later : Machine} {origins : List Machine}
    {count : Nat}
  {finding : Finding} {choice : Choice} {older : List Choice}

/-- The moment after an answer was tried. -/
def tried (machine : Machine) (origins : List Machine) (count : Nat) (later : Machine) :
    Finding → Moment
  | .found => ⟨{ later with status := .running }, none,
      origins.drop (machine.choices.length - later.choices.length)⟩
  | .missed => ⟨later, some (count - 1), origins⟩
  | .exhausted => ⟨{ later with status := .backtracking }, none,
      origins.drop (machine.choices.length - later.choices.length)⟩

theorem Passes.exists_tried {moment : Moment}
    (passes : Passes context ⟨machine, some count, origins⟩ moment) :
    ∃ finding later, Exec.tryAnswer context count machine = .ok finding later ∧
      moment = tried machine origins count later finding := by
  cases passes with
  | miss ended => exact ⟨.missed, _, ended, rfl⟩
  | find ended => exact ⟨.found, _, ended, rfl⟩
  | exhaust ended => exact ⟨.exhausted, _, ended, rfl⟩

/-- Trying an answer drops the newest choice point or notes what it has left. -/
theorem stack_tried (stack : machine.choices = choice :: older)
    (tries : machine.Tries context choice older count finding later) (origin : Machine)
    (origins : List Machine) :
    ((tried machine (origin :: origins) count later finding).machine.choices = older ∧
      (tried machine (origin :: origins) count later finding).origins = origins) ∨
    ∃ alternative,
      (tried machine (origin :: origins) count later finding).machine.choices =
        { choice with alternative } :: older ∧
      (tried machine (origin :: origins) count later finding).origins = origin :: origins := by
  cases tries with
  | @fact _ query =>
    exact .inr ⟨.facts query, by simp [tried, Machine.noting, stack]⟩
  | mismatch => exact .inr ⟨_, rfl, rfl⟩
  | clause =>
    split
    · exact .inl (by simp [tried, stack])
    · exact .inr ⟨.clauses (choice.position + 1), by simp [tried, stack]⟩
  | exhausted => exact .inl (by simp [tried, stack])

end Moment

namespace Machine

variable {context : Context} {machine later : Machine} {choice : Choice} {older : List Choice}
    {count : Nat}
  {finding : Finding}

/-- The fact ahead is tried. -/
theorem Tries.of_upcoming (tries : machine.Tries context choice older count finding later)
    {fact : Fact} {query : Query} (ahead : context.upcoming choice count = some (fact, query)) :
    ∃ memory, (finding = .found ∧ later = goingOn { machine.noting choice older query with memory }
        choice.continuation ∧ Exec.unifyFact context.occursCheck choice.goal fact
          (machine.noting choice older query) =
            .ok true { machine.noting choice older query with memory }) ∨
      (finding = .missed ∧ later = { machine.noting choice older query with memory } ∧
        Exec.unifyFact context.occursCheck choice.goal fact (machine.noting choice older query) =
          .ok false { machine.noting choice older query with memory }) := by
  cases tries with
  | fact here unified =>
    cases here.symm.trans ahead
    exact ⟨_, .inl ⟨rfl, rfl, unified⟩⟩
  | mismatch here unified =>
    cases here.symm.trans ahead
    exact ⟨_, .inr ⟨rfl, rfl, unified⟩⟩
  | clause none_ahead | exhausted none_ahead => cases none_ahead.symm.trans ahead

/-- Without a fact ahead the next clause is entered, if there is one. -/
theorem Tries.of_none (tries : machine.Tries context choice older count finding later)
    (none_ahead : context.upcoming choice count = none) :
    (∃ rule, (context.program.clauses choice.goal)[choice.position]? = some rule ∧
      finding = .found ∧
      later = { machine.restored choice with
        choices := if choice.position + 1 = (context.program.clauses choice.goal).size then older
          else { choice with alternative := .clauses (choice.position + 1) } :: older
        rule := some rule
        counter := 0 }) ∨
    ((context.program.clauses choice.goal)[choice.position]? = none ∧ finding = .exhausted ∧
      later = { machine.restored choice with choices := older }) := by
  cases tries with
  | fact ahead | mismatch ahead => cases ahead.symm.trans none_ahead
  | clause _ here => exact .inl ⟨_, here, rfl, rfl⟩
  | exhausted _ none_here => exact .inr ⟨none_here, rfl, rfl⟩

/-- Choice points do not matter to the code that is run. -/
theorem Alike.withChoices {live : Set (Nat × Nat)} {registers : Set Nat} {tied : Prop}
    {other : Machine}
    (alike : machine.Alike live registers tied other) (choices choices' : List Choice) :
    Alike live registers tied { machine with choices } { other with choices := choices' } :=
  ⟨alike.memory, alike.environment, alike.continuation, alike.frames, alike.registers, alike.mode⟩

/-- Nor does the status. -/
theorem Twins.withStatus {program : Program} {other : Machine} (twins : Twins program machine other)
    (status : Status) : Twins program { machine with status } { other with status } := by
  obtain ⟨⟨rule, compiled, at_rule, at_rule', found, situated⟩, counter⟩ := twins
  refine ⟨⟨rule, compiled, at_rule, at_rule', found, ?_⟩, counter⟩
  have still {live : Set (Nat × Nat)} {registers : Set Nat} {tied : Prop}
      (alike : machine.Alike live registers tied other) :
      Alike live registers tied { machine with status } { other with status } :=
    ⟨alike.memory, alike.environment, alike.continuation, alike.frames, alike.registers, alike.mode⟩
  cases situated with
  | entering start alike waits => exact .entering start (still alike) waits
  | inside environment here sized disciplined own alike waits =>
    exact .inside environment here sized disciplined own (still alike) waits
  | leaving facing alike waits answer => exact .leaving facing (still alike) waits answer

end Machine

/-! ### The same answers -/

section Answers

variable {program : Program} {context larger : Context} {machine other next next' : Machine}
  {choice choice' : Choice} {older older' : List Choice} {origin twin : Machine}
  {origins twins : List Machine} {count count' : Nat} {finding finding' : Finding}

variable (poorer : context.Poorer larger) (same : context.program = program)
  (stack : machine.choices = choice :: older) (stack' : other.choices = choice' :: older')
  (first : Choice.Paired program context larger choice choice' origin twin)
  (rest : Choice.Among program context larger older origins older' twins)
  (back : Machine.BackAt program origin choice (machine.restored choice))
  (back' : Machine.BackAt program twin choice' (other.restored choice'))
  (tries : machine.Tries context choice older count finding next)
  (tries' : other.Tries larger choice' older' count' finding' next')

include poorer stack stack' first rest back back' tries tries'

/-- The same fact answers both calls or neither. -/
theorem Moment.follows_fact {fact : Fact} {query query' : Query}
    (ahead : context.upcoming choice count = some (fact, query))
    (ahead' : larger.upcoming choice' count' = some (fact, query'))
    (left : (context.factsLeft { choice with alternative := .facts query }).Sublist
      (larger.factsLeft { choice' with alternative := .facts query' })) :
    Moment.Follows program context larger (.tried machine (origin :: origins) count next finding)
      (.tried other (twin :: twins) count' next' finding') := by
  obtain ⟨live, call⟩ := first.call
  obtain ⟨less, alike, waits⟩ := Machine.alike_of_backAt first.goal call back back'
  obtain ⟨rule, compiled, -, -, -, continuation⟩ := back.continuation
  have noting := alike.withChoices ({ choice with alternative := .facts query } :: older)
    ({ choice' with alternative := .facts query' } :: older')
  have among : Choice.Among program context larger
    ({ choice with alternative := .facts query } :: older)
      (origin :: origins) ({ choice' with alternative := .facts query' } :: older')
        (twin :: twins) :=
    .both ⟨first.goal, rfl, left, first.call⟩ rest
  have same_continuation : choice'.continuation = choice.continuation := alike.continuation
  have continuation : choice.continuation = .goTo rule (origin.offset + 1) := continuation
  obtain ⟨memory, answers⟩ := tries.of_upcoming ahead
  obtain ⟨memory', answers'⟩ := tries'.of_upcoming ahead'
  simp only [poorer.occursCheck, first.goal, same_continuation] at answers'
  have both {success success' : Bool}
      (unified : Exec.unifyFact context.occursCheck choice.goal fact
        (machine.noting choice older query) =
        .ok success { machine.noting choice older query with memory })
      (unified' : Exec.unifyFact context.occursCheck choice.goal fact
        (other.noting choice' older' query') =
        .ok success' { other.noting choice' older' query' with memory := memory' }) :=
    Machine.twins_fact noting waits continuation unified unified'
  obtain ⟨rfl, rfl, unified⟩ | ⟨rfl, rfl, unified⟩ := answers <;>
    obtain ⟨rfl, rfl, unified'⟩ | ⟨rfl, rfl, unified'⟩ := answers'
  · obtain ⟨-, twins_on⟩ := both unified unified'
    rw [← continuation] at twins_on
    refine .together rfl rfl (twins_on.withStatus .running) ?_
    simpa [Machine.noting, stack, stack'] using among
  · cases (both unified unified').1
  · cases (both unified unified').1
  · exact .waiting nofun among

include same in
/-- The same clause is entered by both, or there is none. -/
theorem Moment.follows_clause (none_ahead : context.upcoming choice count = none)
    (none_ahead' : larger.upcoming choice' count' = none) :
    Moment.Follows program context larger (.tried machine (origin :: origins) count next finding)
      (.tried other (twin :: twins) count' next' finding') := by
  obtain ⟨live, call⟩ := first.call
  obtain ⟨less, alike, waits⟩ := Machine.alike_of_backAt first.goal call back back'
  have answers := tries.of_none none_ahead
  have answers' := tries'.of_none none_ahead'
  simp only [poorer.program, first.goal, first.position] at answers'
  obtain ⟨rule, here, rfl, rfl⟩ | ⟨none_here, rfl, rfl⟩ := answers <;>
    obtain ⟨rule', here', rfl, rfl⟩ | ⟨none_here', rfl, rfl⟩ := answers'
  · cases here.symm.trans here'
    obtain ⟨compiled, found, head, -⟩ := Context.clause_of_getElem? here
    refine .together rfl rfl ((Machine.twins_clause alike waits (same ▸ found) head _ _).withStatus
      .running) ?_
    dsimp only
    split
    · simpa [stack, stack'] using rest
    · have more : Choice.Among program context larger
          ({ choice with alternative := .clauses (choice.position + 1) } :: older)
            (origin :: origins)
          ({ choice' with alternative := .clauses (choice.position + 1) } :: older')
            (twin :: twins) :=
        .both ⟨first.goal, rfl, List.nil_sublist _, first.call⟩ rest
      simpa [stack, stack', first.goal] using more
  · cases here.symm.trans none_here'
  · cases none_here.symm.trans here'
  · exact .waiting (fun _ ↦ rfl) (by simpa [Moment.tried, stack, stack'] using rest)

end Answers

/-! ### One pass -/

private theorem Exec.Sees.rightUnique (heap : Heap) : Relator.RightUnique (Sees heap) := by
  rintro argument term term' ⟨address, rfl, read⟩ ⟨_, same, read'⟩
  cases same
  obtain read | ⟨read, rfl⟩ := read <;> obtain read' | ⟨read', rfl⟩ := read'
  · cases read.symm.trans read'
    rfl
  · cases read.symm.trans read'
  · cases read.symm.trans read'
  · rfl

/-- Calls of machines that are alike push choice points that are paired. -/
theorem Machine.Call.among {program : Program} {context larger : Context}
    (poorer : context.Poorer larger)
    {goal : Functor} {live : Set (Nat × Nat)} {machine twin next next' : Machine}
    {origins twins : List Machine} (call : Call program goal live machine twin)
    (among : Choice.Among program context larger machine.choices origins twin.choices twins)
    {done done' : Unit} (ended : Exec.pushCall goal machine = .ok done next)
    (ended' : Exec.pushCall goal twin = .ok done' next') :
    Choice.Among program context larger next.choices (machine :: origins) next'.choices
      (twin :: twins) := by
  obtain ⟨rule, args, -, room, sees, rfl⟩ := Exec.pushCall_eq_ok ended
  obtain ⟨rule', args', -, room', sees', rfl⟩ := Exec.pushCall_eq_ok ended'
  have arguments : twin.registers.extract 0 goal.arity =
    machine.registers.extract 0 goal.arity := by
    refine Array.ext_getElem? fun index ↦ ?_
    rw [Array.getElem?_extract, Array.getElem?_extract]
    by_cases lower : index < goal.arity
    · rw [if_pos (by omega), if_pos (by omega), Nat.zero_add]
      exact call.alike.registers index lower
    · rw [if_neg (by omega), if_neg (by omega)]
  rw [arguments, call.alike.memory] at sees'
  cases List.right_unique_forall₂' (Exec.Sees.rightUnique _) sees sees'
  exact .both ⟨rfl, rfl, FactStore.matching_sublist poorer.consistent poorer.consistent_larger
    poorer.facts _, live, call⟩ among

namespace Moment

variable {program : Program} {trial : Trial} {context larger : Context}
    {moment other later later' : Moment}
  {view view' : Machine.View} {found all : List Solution}

/-- Going back to the newest choice point gives the call of the first of the machines kept. -/
theorem Fits.backAt {machine : Machine} {seeking : Option Nat} {origins : List Machine}
    {choice : Choice}
    {older : List Choice} (fits : Fits trial context ⟨machine, seeking, origins⟩ view)
    (stack : machine.choices = choice :: older) :
    ∃ origin rest, origins = origin :: rest ∧
      Machine.BackAt trial.program origin choice (machine.restored choice) := by
  obtain ⟨pause, pauses, paused, back⟩ := fits.machine.goesBack stack
  have traced := fits.traced
  dsimp only at traced
  rw [stack, paused] at traced
  cases traced with
  | cons first rest => exact ⟨_, _, rfl, back.backAt (fits.room choice (by simp [stack])) first⟩

/-- A run that goes back, or seeks an answer, tries one. -/
theorem Fits.answered {choice : Choice} {older : List Choice}
    (fits : moment.Fits trial context view)
    (runs : trial.Runs context) (waits : moment.seeking = none →
      moment.machine.status = .backtracking)
    (stack : moment.machine.choices = choice :: older) (yields : moment.Yields context found) :
    ∃ machine count finding next between after, machine.choices = choice :: older ∧
      Fits trial context ⟨machine, some count, moment.origins⟩ between ∧
      machine.Tries context choice older count finding next ∧
      Fits trial context (tried machine moment.origins count next finding) after ∧
      Yields context (tried machine moment.origins count next finding) found := by
  obtain ⟨machine, seeking, origins⟩ := moment
  have sought {machine : Machine} {count : Nat} {view : Machine.View}
    (stack : machine.choices = choice :: older)
      (fits : Fits trial context ⟨machine, some count, origins⟩ view)
      (yields : Yields context ⟨machine, some count, origins⟩ found) :
      ∃ machine count finding next between after, machine.choices = choice :: older ∧
        Fits trial context ⟨machine, some count, origins⟩ between ∧
        machine.Tries context choice older count finding next ∧
        Fits trial context (tried machine origins count next finding) after ∧
        Yields context (tried machine origins count next finding) found := by
    obtain ⟨later, passes, rest⟩ := yields.exists_pass (fits.seeking _ rfl).1
    obtain ⟨finding, next, ended, rfl⟩ := passes.exists_tried
    obtain ⟨after, later_fits, -⟩ := fits.passes (D := Term) runs passes
    exact ⟨machine, count, finding, next, view, after, stack, fits,
      (Exec.tryAnswer_eq_ok stack ended).2, later_fits, rest⟩
  cases seeking with
  | some count => exact sought stack fits yields
  | none =>
    have backtracking : machine.status = .backtracking := waits rfl
    obtain ⟨later, passes, rest⟩ := yields.exists_pass (.inr backtracking)
    obtain ⟨after, later_fits, -⟩ := fits.passes (D := Term) runs passes
    cases passes with
    | run running | call running => cases backtracking.symm.trans running
    | back => exact sought (by exact stack) later_fits rest
    | stop _ none_left => cases stack.symm.trans none_left

/-- A machine that runs either runs an instruction or calls a predicate. -/
theorem Passes.of_running {machine : Machine} {origins : List Machine}
    (running : machine.status = .running) (passes : Passes context ⟨machine, none, origins⟩ later) :
    (∃ compiled instruction success next, machine.Fetches context compiled instruction ∧
      (∀ goal, instruction ≠ .call (.predicate goal)) ∧
      Exec.execute context compiled instruction machine.begun = .ok success next ∧
      later = ⟨next.after success, none, origins⟩) ∨
    ∃ compiled goal next, machine.Fetches context compiled (.call (.predicate goal)) ∧
      Exec.pushCall goal machine.begun = .ok ⟨⟩ next ∧
      later = ⟨next, some (context.store.factsOf goal).size, machine.begun :: origins⟩ := by
  cases passes with
  | run _ fetches silent ended => exact .inl ⟨_, _, _, _, fetches, silent, ended, rfl⟩
  | call _ fetches ended => exact .inr ⟨_, _, _, fetches, ended, rfl⟩
  | back backtracking | stop backtracking => cases running.symm.trans backtracking

/-- An instruction other than a call of a predicate leaves the choice points as they are. -/
theorem Fits.choices_after {machine next : Machine} {origins : List Machine}
    {compiled : CompiledRule} {instruction : Instruction} {success : Bool}
    (fits : Fits trial context ⟨machine, none, origins⟩ view)
    (runs : trial.Runs context) (running : machine.status = .running)
    (fetches : machine.Fetches context compiled instruction)
    (silent : ∀ goal, instruction ≠ .call (.predicate goal))
    (ended : Exec.execute context compiled instruction machine.begun = .ok success next) :
    (next.after success).choices = machine.choices := by
  obtain ⟨situation, current⟩ := fits.exists_current rfl running
  obtain ⟨-, -, choices, -⟩ | ⟨-, choices, -⟩ :=
    Machine.advances_or_finds (D := Term) fits.machine runs current running fetches silent ended
  · exact choices
  · exact choices

/-- Trying an answer of a call that only the other run has made. -/
theorem follows_extra {machine next : Machine} {choice : Choice} {older : List Choice}
    {twin : Machine} {twins : List Machine} {count : Nat} {finding : Finding}
    (waits : moment.seeking = none → moment.machine.status = .backtracking)
    (rest : Choice.Among program context larger moment.machine.choices moment.origins older twins)
    (stack : machine.choices = choice :: older)
    (tries : machine.Tries larger choice older count finding next) :
    Follows program context larger moment (tried machine (twin :: twins) count next finding) := by
  refine .waiting waits ?_
  obtain ⟨choices, kept⟩ | ⟨alternative, choices, kept⟩ := stack_tried stack tries twin twins
  · rwa [choices, kept]
  · rw [choices, kept]
    exact .extra rest

/-- Trying a fact that only the other run has. -/
theorem follows_skipped {machine next : Machine} {choice choice' : Choice}
    {older older' : List Choice}
    {origin twin : Machine} {origins twins : List Machine} {count : Nat} {finding : Finding}
    {fact : Fact}
    {query : Query} (waits : moment.seeking = none → moment.machine.status = .backtracking)
    (stack : moment.machine.choices = choice :: older) (kept : moment.origins = origin :: origins)
    (stack' : machine.choices = choice' :: older')
    (first : Choice.Paired program context larger choice choice' origin twin)
    (rest : Choice.Among program context larger older origins older' twins)
    (ahead : larger.upcoming choice' count = some (fact, query))
    (left : (context.factsLeft choice).Sublist
      (larger.factsLeft { choice' with alternative := .facts query }))
    (tries : machine.Tries larger choice' older' count finding next) :
    Follows program context larger moment (tried machine (twin :: twins) count next finding) := by
  refine .waiting waits ?_
  have position : choice.position = 0 := by
    obtain ⟨asked, -, alternative, -⟩ := Context.upcoming_eq_some ahead
    rw [← first.position, Choice.position, alternative]
  have among : Choice.Among program context larger (choice :: older) (origin :: origins)
      ({ choice' with alternative := .facts query } :: older') (twin :: twins) :=
    .both ⟨first.goal, position.symm, left, first.call⟩ rest
  rw [stack, kept]
  obtain ⟨memory, ⟨rfl, rfl, -⟩ | ⟨rfl, rfl, -⟩⟩ := tries.of_upcoming ahead
  · simpa [tried, Machine.noting, stack'] using among
  · exact among

section Passes

variable (poorer : context.Poorer larger) (runs : trial.Runs context) (runs' : trial.Runs larger)
  (fits : moment.Fits trial context view) (fits' : other.Fits trial larger view')
  (yields : moment.Yields context found)

include poorer runs fits yields

/-- While one run waits, the other tries an answer at its newest choice point. -/
theorem Follows.step_tried (waits : moment.seeking = none → moment.machine.status = .backtracking)
    {machine next : Machine} {origins : List Machine} {count : Nat} {finding : Finding}
    (fits' : Fits trial larger ⟨machine, some count, origins⟩ view')
    (among : Choice.Among trial.program context larger moment.machine.choices moment.origins
      machine.choices
      origins)
    (ended : Exec.tryAnswer larger count machine = .ok finding next) :
    ∃ later after, later.Fits trial context after ∧ later.Yields context found ∧
      Follows trial.program context larger later (tried machine origins count next finding) := by
  obtain ⟨-, choice', older', stack', enough'⟩ := fits'.seeking _ rfl
  obtain ⟨-, tries'⟩ := Exec.tryAnswer_eq_ok stack' ended
  obtain ⟨twin, twins, rfl, back'⟩ := fits'.backAt stack'
  rw [stack'] at among
  obtain rest | ⟨choice, older, origin, rest, stack, kept, first, below⟩ := among.cases_cons
  · exact ⟨moment, view, fits, yields, follows_extra waits rest stack' tries'⟩
  -- the call is paired: the facts ahead are compared
  obtain ⟨seeker, fewer, found', next', between, after, seeker_stack, seeker_fits, tries,
    later_fits, more⟩ :=
    fits.answered runs waits stack yields
  rw [kept] at seeker_fits later_fits more
  obtain ⟨_, _, same, back⟩ := seeker_fits.backAt seeker_stack
  cases same
  obtain ⟨-, _, _, seeker_same, enough⟩ := seeker_fits.seeking _ rfl
  cases seeker_stack.symm.trans seeker_same
  obtain ⟨ahead, ahead'⟩ | ⟨fact, query', ahead', ⟨query, ahead, left⟩ | skipped⟩ :=
    poorer.compare first.facts enough enough'
  · exact ⟨_, after, later_fits, more,
      follows_clause poorer runs.program seeker_stack stack' first below back
      back' tries tries' ahead ahead'⟩
  · exact ⟨_, after, later_fits, more,
      follows_fact poorer seeker_stack stack' first below back back' tries
      tries' ahead ahead' left⟩
  · exact ⟨moment, view, fits, yields,
      follows_skipped waits stack kept stack' first below ahead' skipped tries'⟩

/-- While one run waits, the other makes a pass. -/
theorem Follows.step_waiting (waits : moment.seeking = none → moment.machine.status = .backtracking)
    (among : Choice.Among trial.program context larger moment.machine.choices moment.origins
      other.machine.choices other.origins) (fits' : other.Fits trial larger view') (runs' :
      trial.Runs larger)
    (passes : other.Passes larger later') :
    ∃ later after, later.Fits trial context after ∧ later.Yields context found ∧
      Follows trial.program context larger later later' := by
  obtain ⟨machine, seeking, origins⟩ := other
  cases seeking with
  | some count =>
    obtain ⟨finding, next, ended, rfl⟩ := passes.exists_tried
    exact Follows.step_tried poorer runs fits yields waits fits' among ended
  | none =>
    refine ⟨moment, view, fits, yields, .waiting waits ?_⟩
    cases passes with
    | run running fetches silent ended =>
      rwa [fits'.choices_after runs' running fetches silent ended]
    | call running _ ended =>
      obtain ⟨_, _, _, _, _, rfl⟩ := Exec.pushCall_eq_ok ended
      exact .extra among
    | back | stop => exact among

end Passes

/-- Two runs at the same place of a rule make a pass. -/
theorem Follows.step_together (poorer : context.Poorer larger)
    (lawful : trial.program.Lawful fun _ ↦ True)
    (runs : trial.Runs context) {machine twin : Machine} {origins twins : List Machine}
    (fits : Fits trial context ⟨machine, none, origins⟩ view)
    (yields : Yields context ⟨machine, none, origins⟩ found)
    (fits' : Fits trial larger ⟨twin, none, twins⟩ view') (runs' : trial.Runs larger)
    (running : machine.status = .running) (running' : twin.status = .running)
    (alike : Machine.Twins trial.program machine twin)
    (among : Choice.Among trial.program context larger machine.choices origins twin.choices twins)
    (passes' : Passes larger ⟨twin, none, twins⟩ later') :
    ∃ later after, later.Fits trial context after ∧ later.Yields context found ∧
      Follows trial.program context larger later later' := by
  have same : larger.program = trial.program := runs'.program
  obtain ⟨later, passes, rest⟩ := yields.exists_pass (.inl running)
  obtain ⟨after, later_fits, -⟩ := fits.passes (D := Term) runs passes
  refine ⟨later, after, later_fits, rest, ?_⟩
  obtain ⟨compiled, instruction, success, next, fetches, silent, ended, rfl⟩ |
    ⟨compiled, goal, next, fetches, ended, rfl⟩ := passes.of_running running <;>
  obtain ⟨compiled', instruction', success', next', fetches', silent', ended', rfl⟩ |
    ⟨compiled', goal', next', fetches', ended', rfl⟩ := passes'.of_running running' <;>
  obtain ⟨rfl, same_instruction⟩ := alike.fetches runs.program same fetches fetches'
  · subst same_instruction
    have choices := fits.choices_after runs running fetches silent ended
    have choices' := fits'.choices_after runs' running' fetches' silent ended'
    rw [Exec.execute_congr poorer.occursCheck _ silent] at ended'
    obtain ⟨rfl, stays⟩ :=
      alike.execute lawful runs.program fits.machine.entry fits'.machine.entry fetches
      silent ended ended'
    rw [← choices, ← choices'] at among
    cases success' with
    | false => exact .waiting (fun _ ↦ rfl) among
    | true =>
      obtain ⟨twins_on, status, status'⟩ | ⟨succeeded, succeeded', pending⟩ := stays rfl
      · exact .together (status.trans running) (status'.trans running') twins_on among
      · exact .solved succeeded succeeded' pending among
  · exact absurd same_instruction.symm (silent goal')
  · exact absurd same_instruction (silent' goal)
  · cases same_instruction
    obtain ⟨live, call⟩ := alike.call lawful runs.program fetches
    exact .waiting nofun (call.among poorer among ended ended')

/-- The run with more facts makes a pass. -/
theorem Follows.step (follows : Follows trial.program context larger moment other)
    (poorer : context.Poorer larger) (lawful : trial.program.Lawful fun _ ↦ True)
    (runs : trial.Runs context) (runs' : trial.Runs larger) (fits : moment.Fits trial context view)
    (fits' : other.Fits trial larger view')
    (yields : moment.Yields context found) (passes' : other.Passes larger later') :
    ∃ later after, later.Fits trial context after ∧ later.Yields context found ∧
      Follows trial.program context larger later later' := by
  cases follows with
  | together running running' alike among =>
    exact Follows.step_together poorer lawful runs fits yields fits' runs' running running' alike
      among passes'
  | solved succeeded succeeded' same among => exact absurd succeeded' (fits'.unfinished passes')
  | waiting waits among =>
    exact Follows.step_waiting poorer runs fits yields waits among fits' runs' passes'

/-- A run that has nothing to go back to has no more solutions. -/
theorem Fits.eq_nil_of_yields (fits : moment.Fits trial context view)
    (waits : moment.seeking = none → moment.machine.status = .backtracking)
    (none_left : moment.machine.choices = []) (yields : moment.Yields context found) :
    found = [] := by
  cases yields with
  | pass passes rest =>
    cases passes with
    | run running | call running => cases (waits rfl).symm.trans running
    | miss | find | exhaust =>
      obtain ⟨-, _, _, stack, -⟩ := fits.seeking _ rfl
      cases none_left.symm.trans stack
    | back _ stack => cases none_left.symm.trans stack
    | stop =>
      cases rest with
      | pass passes => exact absurd passes (not_passes_of_failed rfl)
      | solution succeeded => cases succeeded
      | finish => rfl
  | solution succeeded => cases (waits rfl).symm.trans succeeded
  | finish => rfl

/-- A run with fewer facts yields, in the same order, some of what a run with more facts yields. -/
theorem Follows.sublist (follows : Follows trial.program context larger moment other)
    (poorer : context.Poorer larger) (lawful : trial.program.Lawful fun _ ↦ True)
    (runs : trial.Runs context) (runs' : trial.Runs larger) (fits : moment.Fits trial context view)
    (fits' : other.Fits trial larger view')
    (yields : moment.Yields context found) (yields' : other.Yields larger all) :
    found.Sublist all := by
  induction yields' generalizing moment view view' found with
  | pass passes rest ih =>
    obtain ⟨later, after, later_fits, more, follows⟩ :=
      follows.step poorer lawful runs runs' fits fits' yields passes
    obtain ⟨after', later_fits', -⟩ := fits'.passes (D := Term) runs' passes
    exact ih follows later_fits later_fits' more
  | @solution twin twins solution all succeeded' pending' rest ih =>
    have goes_back := fits'.handOut succeeded'
    cases follows with
    | together _ running' => cases succeeded'.symm.trans running'
    | solved succeeded _ same among =>
      cases yields with
      | pass passes => exact absurd succeeded (fits.unfinished passes)
      | solution _ pending more =>
        cases pending.symm.trans (same.symm.trans pending')
        exact (ih (.waiting (fun _ ↦ rfl) among) (fits.handOut succeeded) goes_back more).cons_cons
          _
      | finish failed => cases succeeded.symm.trans failed
    | waiting waits among => exact (ih (.waiting waits among) fits goes_back yields).cons _
  | finish failed' =>
    cases follows with
    | together _ running' => cases failed'.symm.trans running'
    | solved _ succeeded' => cases failed'.symm.trans succeeded'
    | waiting waits among =>
      have none_left := fits'.status.2 failed'
      dsimp only at among none_left
      rw [none_left] at among
      rw [fits.eq_nil_of_yields waits among.eq_nil yields]

end Moment

/-! ### An attempt -/

namespace Machine

/-- Start an attempt and take all its solutions, with the facts as they are. -/
def allSolutions (context : Context) (rule : RuleId) (goal : Option Term) : Run (List Solution) :=
  do
  start context rule goal
  solutions context

variable {context larger : Context} {rule : RuleId} {goal : Option Term}
    {machine last last' : Machine}
  {found all : List Solution}

/-- Starting an attempt does not look at the facts. -/
theorem start_congr (same : larger.program = context.program) :
    start larger rule goal = start context rule goal := by
  unfold start
  rw [same]

/-- The solutions of an attempt with some facts are found with more facts too, and in the same
order. -/
theorem solutions_sublist {allowed : Rule → Prop} (built : context.program.Built allowed)
    (program : larger.program = context.program)
    (occursCheck : larger.occursCheck = context.occursCheck)
    (store : context.store.Built) (store_larger : larger.store.Built)
    (facts : ∀ functor,
      (context.store.factsOf functor).toList.Sublist (larger.store.factsOf functor).toList)
    (ended : allSolutions context rule goal machine = .ok found last)
    (ended' : allSolutions larger rule goal machine = .ok all last') : found.Sublist all := by
  obtain ⟨_, started, start, ended⟩ := bind_eq_ok.1 ended
  obtain ⟨_, started', start', ended'⟩ := bind_eq_ok.1 ended'
  rw [start_congr program, start] at start'
  cases start'
  have poorer : context.Poorer larger :=
    ⟨program, occursCheck, store.consistent, store_larger.consistent, facts⟩
  cases listed : context.program.rule? rule with
  | none => simp [Machine.start, listed, throw_apply] at start
  | some compiled =>
    cases fits : goal.all (fitsHead compiled.head) with
    | false =>
      obtain ⟨-, rfl⟩ | ⟨fit, -⟩ := start_eq_ok listed start
      · cases (solutions_of_failed rfl).symm.trans ended
        exact List.nil_sublist _
      · rw [fits] at fit
        cases fit
    | true =>
      have lawful := built.lawful_true
      obtain ⟨arguments, view, start_fits, -⟩ :=
        fits_start lawful listed (fun term _ ↦ term.allFunctors_true)
        start fits
      have runs : Trial.Runs (.attempting context.program (fun _ ↦ True) rule compiled arguments)
        context :=
        ⟨rfl, lawful, listed, fun _ fact _ ↦ fact.term.allFunctors_true⟩
      have runs' := Moment.runs_of_true runs rfl program
      have start_fits' := start_fits.inContext larger rfl
      obtain ⟨-, _, memory, registers, -, -, rfl⟩ :=
        (start_eq_ok listed start).resolve_left (by simp [fits])
      have yields := yields_solutions start_fits runs ended
      have yields' := yields_solutions start_fits' runs' ended'
      refine Moment.Follows.sublist (.together rfl rfl ?_ .nil) poorer lawful runs runs'
        start_fits start_fits'
        yields yields'
      exact ⟨⟨rule, compiled, rfl, rfl, listed, .entering rfl (.refl ∅ _ _ _) .halt⟩, rfl⟩

end Machine

namespace Machine

/-- The heads in the solutions of an attempt without a goal, if it is not broken off. -/
def headsFound (context : Context) (rule : RuleId) (registers : Nat) : Option (List Term) :=
  match allSolutions context rule none (.new registers) with
  | .ok found _ => some (found.map (·.head))
  | .error _ _ => none

theorem headsFound_eq_some {context : Context} {rule : RuleId} {registers : Nat} {heads : List Term}
    (found : headsFound context rule registers = some heads) : ∃ solutions last,
    allSolutions context rule none (.new registers) = .ok solutions last ∧
    solutions.map (·.head) = heads := by
  unfold headsFound at found
  split at found
  · next solutions last ended => exact ⟨solutions, last, ended, Option.some.inj found⟩
  · cases found

/-- With the fact `p(f(a))` before the others there is a solution more, before the other one. -/
theorem solutions_sublist_selecting :
    let fewer := Fact.candidates.tail
    Program.selecting.Built (Rule.AllFunctors fun functor ↦ 0 < functor.arity) ∧
    (∀ functor, ((FactStore.ofFacts fewer).factsOf functor).toList.Sublist
      ((FactStore.ofFacts Fact.candidates).factsOf functor).toList) ∧
    ∃ found last all last', allSolutions (.selecting fewer) ⟨2⟩ none (.new 2) = .ok found last ∧
      allSolutions (.selecting Fact.candidates) ⟨2⟩ none (.new 2) = .ok all last' ∧
      found.map (·.head) = [.struct ⟨2⟩ [.atom ⟨5⟩]] ∧
      all.map (·.head) = [.struct ⟨2⟩ [.struct ⟨3⟩ [.atom ⟨4⟩]], .struct ⟨2⟩ [.atom ⟨5⟩]] ∧
      found.Sublist all := by
  intro fewer
  have facts (functor : Functor) : ((FactStore.ofFacts fewer).factsOf functor).toList.Sublist
      ((FactStore.ofFacts Fact.candidates).factsOf functor).toList := by
    rw [FactStore.toList_factsOf_ofFacts (by decide), FactStore.toList_factsOf_ofFacts (by decide)]
    exact (List.tail_sublist _).filter _
  obtain ⟨found, last, ended, heads⟩ := @headsFound_eq_some (.selecting fewer) ⟨2⟩ 2
    [.struct ⟨2⟩ [.atom ⟨5⟩]] (by decide +kernel)
  obtain ⟨all, last', ended', heads'⟩ := @headsFound_eq_some (.selecting Fact.candidates) ⟨2⟩ 2
    [.struct ⟨2⟩ [.struct ⟨3⟩ [.atom ⟨4⟩]], .struct ⟨2⟩ [.atom ⟨5⟩]] (by decide +kernel)
  have program : (Context.selecting Fact.candidates).program = (Context.selecting fewer).program :=
    rfl
  have occursCheck : (Context.selecting Fact.candidates).occursCheck =
    (Context.selecting fewer).occursCheck := rfl
  exact ⟨Program.built_selecting, facts, found, last, all, last', ended, ended', heads, heads',
    solutions_sublist Program.built_selecting program occursCheck (.ofFacts _)
      (.ofFacts _) facts ended ended'⟩

end Machine
end HornMachine
