import HornMachine.Proofs.Cursors
import HornMachine.Proofs.Machine.FactAnswers
import HornMachine.Proofs.Machine.Regular
import HornMachine.Proofs.MoreFacts

/-!
# The facts that answer a call

A call searches the store for a pattern that is read from its arguments once, with a variable for an
argument that is cyclic. The index by first arguments and the pattern leave facts out, and those
that remain are unified with the arguments later, each from the state of the call. Here the answers
of a call are recorded over the whole run, through backtracking and facts asserted in between. Main
statement: the facts that answer a call are, in order, those among all facts of its functor that
unify with its arguments.
-/

namespace HornMachine

/-- Whether a fact unifies with the arguments of a call when it is loaded in the state of the
call. -/
def Machine.unifies (origin : Machine) (check : OccursCheck) (goal : Functor) (fact : Fact) :
    Bool :=
  match Exec.unifyFact check goal fact origin with
  | .ok success _ => success
  | .error _ _ => false

/-- The facts of the functor called that unify with the arguments, in the order they were
asserted. -/
def Context.unifying (context : Context) (goal : Functor) (origin : Machine) : List Fact :=
  (context.store.factsOf goal).toList.filter (origin.unifies context.occursCheck goal)

/-! ### One fact -/

/-- A fact unifies exactly if the arguments are its own in some solution of the heap. -/
theorem Machine.unifies_iff {machine : Machine} {goal : Functor} {fact : Fact} {check : OccursCheck}
    (formed : machine.memory.heap.Formed (fun functor ↦ 0 < functor.arity) 0)
    (holds : Point.Holds machine.registers {index | index < goal.arity} machine.memory.heap.size)
    (called : fact.functor = goal) (canonical : fact.term.Canonical) :
    machine.unifies check goal fact = true ↔ ∃ θ : Valuation Tree, machine.memory.heap.Solution θ ∧
      (List.range goal.arity).map (Bank.values machine.registers θ) = fact.values := by
  obtain ⟨success, later, ended⟩ : ∃ success later, Exec.unifyFact check goal fact machine =
    .ok success later :=
    Exec.exists_unifyFact formed called canonical holds
  rw [unifies, ended]
  cases success with
  | true =>
    have narrows := Exec.narrows_unifyFact (D := Tree) formed canonical called holds ended
    exact iff_of_true rfl ⟨_, narrows.back _ (narrows.formed.solution_trees fun _ ↦ 0)⟩
  | false =>
    have settles : ∀ value ∈ (fact.values : List Tree), check.Settles value := by
      intro value member _
      obtain ⟨arg, inside, rfl⟩ := List.mem_map.1 member
      have ground := Term.isGround_of_mem_args fact.ground inside
      exact ⟨Tree.sizes, arg, Term.eval_of_isGround ground _ _⟩
    refine iff_of_false nofun ?_
    rintro ⟨θ, solution, same⟩
    exact Exec.ne_of_unifyFact formed canonical settles called holds ended solution same

/-- What holds of a machine that makes a call, with what is seen of the arguments. -/
structure Machine.Asks (goal : Functor) (args : List Term) (origin : Machine) : Prop where
  formed : origin.memory.heap.Formed (fun functor ↦ 0 < functor.arity) 0
  holds : Point.Holds origin.registers {index | index < goal.arity} origin.memory.heap.size
  room : goal.arity ≤ origin.registers.size
  sees : List.Forall₂ (Exec.Sees origin.memory.heap)
    (origin.registers.extract 0 goal.arity).toList args

namespace Machine.Asks

variable {goal : Functor} {args : List Term} {origin machine : Machine} {fact : Fact}
    {check : OccursCheck}
  (asks : origin.Asks goal args)

include asks

theorem length_args : args.length = goal.arity := by
  rw [← asks.sees.length_eq]
  simpa using asks.room

/-- In every state with the memory and the arguments of the call the answer is the same, and there
is one. -/
theorem exists_unifyFact (called : fact.functor = goal) (canonical : fact.term.Canonical)
    (memory : machine.memory = origin.memory)
    (registers : ∀ index < goal.arity, machine.registers[index]? = origin.registers[index]?) :
    ∃ later, Exec.unifyFact check goal fact machine =
      .ok (origin.unifies check goal fact) later := by
  obtain ⟨success, later, unified⟩ : ∃ success later, Exec.unifyFact check goal fact origin =
    .ok success later :=
    Exec.exists_unifyFact asks.formed called canonical asks.holds
  have same : origin.unifies check goal fact = success := by rw [unifies, unified]
  rw [same]
  exact ⟨_, Exec.unifyFact_congr memory registers unified⟩

/-- A fact that unifies is not left out: where the arguments stand for those of the fact, what was
seen of them covers these. -/
theorem covers_of_unifies (called : fact.functor = goal) (canonical : fact.term.Canonical)
    (unifies : origin.unifies check goal fact = true) :
    (Term.apply goal.symbol args).covers fact.term = true := by
  obtain ⟨θ, solution, values⟩ :=
    (Machine.unifies_iff asks.formed asks.holds called canonical).1 unifies
  exact Exec.keptBy_of_values (fun _ ↦ id) asks.formed solution asks.room asks.sees called
    canonical values

/-- The search loses no fact that unifies. -/
theorem filter_accepted {program : Program} {context : Context}
    (canonical : context.Canonical program)
    {query : Query} (pattern : query.pattern = Term.apply goal.symbol args) :
    (context.store.accepted query).filter (origin.unifies context.occursCheck goal) =
      context.unifying goal origin := by
  have consistent := canonical.built.consistent
  rw [FactStore.accepted, Context.unifying, Query.functor?, pattern]
  cases searched : (Term.apply goal.symbol args).functor? with
  | none => rw [consistent.factsOf_eq_nil asks.length_args searched]
  | some functor =>
    obtain rfl : functor = goal := by rw [Term.eq_of_functor?_apply searched, asks.length_args]
    simp only [List.filter_filter]
    refine List.filter_congr fun fact member ↦ ?_
    have listed := Array.mem_toList_iff.1 member
    have called := consistent.functor functor fact listed
    have canonical := canonical.facts fact (canonical.contains_of_mem listed)
    cases unifies : origin.unifies context.occursCheck functor fact with
    | false => rfl
    | true =>
      rw [Query.admits, pattern, asks.covers_of_unifies called canonical unifies]
      rfl

end Machine.Asks

/-! ### The answers so far -/

namespace Moment

/-- The fact by which a pass answers the call whose choice point is above a number of others, if it
does so: the next fact is tried, and the run goes on. -/
def answer? (context : Context) (older : Nat) (moment later : Moment) : Option Fact :=
  match moment.seeking, moment.machine.choices with
  | some count, choice :: rest =>
    if rest.length = older ∧ later.seeking = none ∧ later.machine.status = .running then
      (context.upcoming choice count).map Prod.fst
    else none
  | _, _ => none

/-- The moments of an attempt from a call on, as long as its choice point is there, with the facts
that have answered the call so far. -/
inductive Answered (program : Program) (goal : Functor) (origin : Machine) :
    Context → Moment → List Fact → Prop
  | call {context : Context} {machine later : Machine} {origins : List Machine}
    {compiled : CompiledRule} (regular : Regular program context ⟨machine, none, origins⟩)
    (running : machine.status = .running)
    (fetches : machine.Fetches context compiled (.call (.predicate goal)))
    (begun : machine.begun = origin) (ended : Exec.pushCall goal origin = .ok ⟨⟩ later) :
    Answered program goal origin context
      ⟨later, some (context.store.factsOf goal).size, origin :: origins⟩ []
  | step {context other : Context} {moment later : Moment} {answers : List Fact}
    (answered : Answered program goal origin context moment answers)
    (steps : Steps program context moment other later)
    (stays : origin.choices.length < later.machine.choices.length) :
    Answered program goal origin other later
      (answers ++ (answer? context origin.choices.length moment later).toList)

end Moment

/-- How far a choice point has come with the facts: those that were passed and unify have
answered. -/
def Context.Tracks (context : Context) (goal : Functor) (args : List Term) (origin : Machine)
    (answers : List Fact) : Alternative → Prop
  | .facts query => query.pattern = Term.apply goal.symbol args ∧
      query.position ≤ (context.store.listed query).length ∧
      answers = (context.store.passed query).filter (origin.unifies context.occursCheck goal)
  | .clauses _ => answers <+: context.unifying goal origin

section Tracks

variable {program : Program} {context other : Context} {goal : Functor} {args : List Term}
    {origin : Machine}
  {answers : List Fact} {alternative : Alternative} (asks : origin.Asks goal args)

include asks in
private theorem Context.Tracks.isPrefix
    (tracks : context.Tracks goal args origin answers alternative)
    (canonical : context.Canonical program) : answers <+: context.unifying goal origin := by
  cases alternative with
  | facts query =>
    obtain ⟨pattern, -, rfl⟩ := tracks
    rw [← asks.filter_accepted canonical pattern]
    exact (context.store.passed_prefix query).filter _
  | clauses position => exact tracks

/-- Facts that are added come after those there are. -/
theorem Context.Tracks.grow (tracks : context.Tracks goal args origin answers alternative)
    (same : other.occursCheck = context.occursCheck)
    (more : ∀ functor, (context.store.factsOf functor).toList <+:
      (other.store.factsOf functor).toList) :
    other.Tracks goal args origin answers alternative := by
  cases alternative with
  | facts query =>
    obtain ⟨pattern, inside, rfl⟩ := tracks
    have longer : context.store.listed query <+: other.store.listed query := by
      unfold FactStore.listed
      cases query.functor? with
      | none => exact List.prefix_refl _
      | some functor => exact (more functor).filter _
    refine ⟨pattern, Nat.le_trans inside longer.length_le, ?_⟩
    rw [same, FactStore.passed_of_listed_prefix longer inside]
  | clauses position =>
    have longer := (more goal).filter (origin.unifies context.occursCheck goal)
    rw [← same] at longer
    rw [Context.Tracks, Context.unifying, ← same] at tracks
    exact tracks.trans longer

include asks in
/-- The fact ahead is one of the call's functor. The call keeps track if it is answered by this fact
exactly where the fact unifies. -/
theorem Context.Tracks.upcoming {choice : Choice} {count : Nat} {fact : Fact} {later : Query}
    (tracks : context.Tracks goal args origin answers choice.alternative)
    (canonical : context.Canonical program)
    (ahead : context.upcoming choice count = some (fact, later)) :
    fact.functor = goal ∧ fact.term.Canonical ∧
      context.Tracks goal args origin
        (answers ++ (if origin.unifies context.occursCheck goal fact then some fact
          else none).toList)
        (.facts later) := by
  obtain ⟨query, fewer, searching, -, following⟩ := Context.upcoming_eq_some ahead
  rw [searching] at tracks
  obtain ⟨pattern, inside, rfl⟩ := tracks
  have consistent := canonical.built.consistent
  obtain ⟨still_inside, -, passed⟩ := consistent.passed_next inside
  have same := context.store.pattern_next query
  rw [following] at still_inside passed same
  obtain ⟨functor, searched, listed⟩ := FactStore.mem_factsOf_of_next following
  rw [pattern] at searched
  have called : fact.functor = goal := by
    rw [consistent.functor functor fact listed, Term.eq_of_functor?_apply searched,
      asks.length_args]
  refine ⟨called, canonical.facts fact (canonical.contains_of_mem listed), same.trans pattern,
    still_inside, ?_⟩
  rw [passed, List.filter_append]
  cases unifies : origin.unifies context.occursCheck goal fact <;> simp [unifies]

include asks in
/-- Once no fact is ahead, all facts that unify have answered. -/
theorem Context.Tracks.eq_of_none {choice : Choice} {count : Nat}
    (tracks : context.Tracks goal args origin answers choice.alternative)
    (canonical : context.Canonical program)
    (enough : context.Enough choice count) (none_ahead : context.upcoming choice count = none)
    {query : Query}
    (searching : choice.alternative = .facts query) : answers = context.unifying goal origin := by
  have consistent := canonical.built.consistent
  have none_left := Context.factsLeft_of_none consistent enough none_ahead
  rw [searching] at tracks
  obtain ⟨pattern, inside, rfl⟩ := tracks
  rw [← asks.filter_accepted canonical pattern, consistent.passed_eq_accepted inside]
  obtain ⟨-, remaining⟩ := consistent.next_remaining query
  rw [Context.factsLeft, searching] at none_left
  cases next : context.store.next query with
  | mk found later =>
    rw [next] at remaining
    cases found with
    | none => rfl
    | some fact =>
      dsimp only at remaining none_left
      rw [none_left] at remaining
      cases remaining

end Tracks

/-! ### One step -/

private theorem Machine.choices_resumed (machine : Machine) :
    machine.resumed.choices = machine.choices := by
  unfold resumed
  split <;> rfl

namespace Moment

section Tries

variable {program : Program} {context : Context} {goal : Functor} {args : List Term}
  {origin machine next : Machine} {origins : List Machine} {choice : Choice} {older : List Choice}
  {answers : List Fact} {count : Nat} {finding : Finding}

/-- What is recorded when an answer is tried. -/
theorem answer?_tried (stack : machine.choices = choice :: older) (depth : Nat) :
    answer? context depth ⟨machine, some count, origins⟩
      (tried machine origins count next finding) =
      if older.length = depth ∧ finding = .found then (context.upcoming choice count).map Prod.fst
        else none := by
  simp only [answer?, stack]
  cases finding <;> simp [tried]

/-- Trying an answer of the call itself. -/
theorem tracks_tries (asks : origin.Asks goal args) (canonical : context.Canonical program)
    (called : choice.goal = goal)
    (back : Machine.BackAt program origin choice (machine.restored choice))
    (tracks : context.Tracks goal args origin answers choice.alternative)
    (tries : machine.Tries context choice older count finding next)
    (stays : older.length < next.choices.length) :
    ∃ alternative, next.choices = { choice with alternative } :: older ∧
      context.Tracks goal args origin (answers ++ (if finding = .found then
        (context.upcoming choice count).map Prod.fst else none).toList) alternative := by
  subst called
  cases ahead : context.upcoming choice count with
  | none =>
    simp only [Option.map_none, ite_self, Option.toList_none, List.append_nil]
    have begins := tracks.isPrefix asks canonical
    obtain ⟨rule, -, -, rfl⟩ | ⟨-, -, rfl⟩ := tries.of_none ahead
    · dsimp only at stays ⊢
      split at stays
      · exact absurd stays (Nat.lt_irrefl _)
      · next more => exact ⟨_, if_neg more, begins⟩
    · exact absurd stays (Nat.lt_irrefl _)
  | some found =>
    obtain ⟨fact, later⟩ := found
    obtain ⟨fact_called, fact_canonical, tracked⟩ := tracks.upcoming asks canonical ahead
    obtain ⟨memory, answers⟩ := tries.of_upcoming ahead
    obtain ⟨_, unified⟩ : ∃ last, Exec.unifyFact context.occursCheck choice.goal fact
        (machine.noting choice older later) =
          .ok (origin.unifies context.occursCheck choice.goal fact) last :=
      asks.exists_unifyFact fact_called fact_canonical back.memory back.arguments
    -- the fact is recorded if and only if it unifies
    generalize origin.unifies context.occursCheck choice.goal fact = unifies at unified tracked
    obtain ⟨rfl, rfl, ended⟩ | ⟨rfl, rfl, ended⟩ := answers
    · cases unified.symm.trans ended
      exact ⟨.facts later, by simp [Machine.noting], tracked⟩
    · cases unified.symm.trans ended
      exact ⟨.facts later, rfl, tracked⟩

end Tries

variable {program : Program} {context other : Context} {goal : Functor} {args : List Term}
    {origin : Machine}
  {moment later : Moment} {answers : List Fact}

/-- The choice point of the call is there, and it has come so far. -/
def Tracked (goal : Functor) (args : List Term) (origin : Machine) (context : Context)
    (moment : Moment) (answers : List Fact) : Prop :=
  ∃ newer choice, moment.machine.choices = newer ++ choice :: origin.choices ∧
    moment.origins[newer.length]? = some origin ∧ choice.goal = goal ∧
    context.Tracks goal args origin answers choice.alternative

private theorem Tracked.choices_ne_nil (tracked : Tracked goal args origin context moment answers) :
    moment.machine.choices ≠ [] := by
  obtain ⟨newer, choice, stack, -⟩ := tracked
  simp [stack]

/-- Trying an answer of any call. -/
theorem Tracked.tried {machine next : Machine} {origins : List Machine} {count : Nat}
    {finding : Finding}
    (tracked : Tracked goal args origin context ⟨machine, some count, origins⟩ answers)
    (asks : origin.Asks goal args) (canonical : context.Canonical program)
    (fitting : Fitting program context ⟨machine, some count, origins⟩)
    (ended : Exec.tryAnswer context count machine = .ok finding next)
    (stays : origin.choices.length <
      (tried machine origins count next finding).machine.choices.length) :
    Tracked goal args origin context (tried machine origins count next finding)
      (answers ++ (answer? context origin.choices.length ⟨machine, some count, origins⟩
        (tried machine origins count next finding)).toList) := by
  obtain ⟨trial, view, runs, rfl, -, fits⟩ := fitting
  obtain ⟨newer, choice, stack, kept, called, tracks⟩ := tracked
  dsimp only at stack kept
  cases newer with
  | nil =>
    obtain ⟨twin, rest, rfl, back⟩ := fits.backAt stack
    cases kept
    obtain ⟨-, tries⟩ := Exec.tryAnswer_eq_ok stack ended
    have same : (tried machine (origin :: rest) count next finding).machine.choices =
      next.choices := by
      cases finding <;> rfl
    rw [same] at stays
    obtain ⟨alternative, choices, tracks⟩ :=
      tracks_tries asks canonical called back tracks tries stays
    rw [answer?_tried stack]
    simp only [true_and]
    refine ⟨[], { choice with alternative }, same.trans choices, ?_, called, tracks⟩
    cases finding <;> simp [tried, stack, choices]
  | cons newest newer =>
    obtain ⟨twin, rest, rfl, -⟩ := fits.backAt stack
    obtain ⟨-, tries⟩ := Exec.tryAnswer_eq_ok stack ended
    have above : (newer ++ choice :: origin.choices).length ≠ origin.choices.length := by
      simp only [List.length_append, List.length_cons]
      omega
    rw [answer?_tried stack, if_neg (fun here ↦ above here.1), Option.toList_none, List.append_nil]
    obtain ⟨choices, still⟩ | ⟨alternative, choices, still⟩ := stack_tried stack tries twin rest
    · exact ⟨newer, choice, choices, by rw [still]; exact kept, called, tracks⟩
    · exact ⟨{ newest with alternative } :: newer, choice, choices, by rw [still]; exact kept,
        called, tracks⟩

/-- Whatever happens to the attempt, the choice point of the call keeps track. -/
theorem Tracked.step (tracked : Tracked goal args origin context moment answers)
    (asks : origin.Asks goal args)
    (canonical : context.Canonical program) (fitting : Fitting program context moment)
    (steps : Steps program context moment other later)
    (stays : origin.choices.length < later.machine.choices.length) :
    Tracked goal args origin other later
      (answers ++ (answer? context origin.choices.length moment later).toList) := by
  cases steps with
  | pass passes =>
    obtain ⟨machine, seeking, origins⟩ := moment
    cases seeking with
    | some count =>
      obtain ⟨finding, next, ended, rfl⟩ := passes.exists_tried
      exact tracked.tried asks canonical fitting ended stays
    | none =>
      rw [answer?, Option.toList_none, List.append_nil]
      obtain ⟨trial, view, runs, rfl, -, fits⟩ := fitting
      obtain ⟨newer, choice, stack, kept, called, tracks⟩ := tracked
      cases passes with
      | run running fetches silent ended =>
        exact ⟨newer, choice, (fits.choices_after runs running fetches silent ended).trans stack,
          kept, called, tracks⟩
      | call running fetches ended =>
        obtain ⟨rule, patterns, -, -, -, rfl⟩ := Exec.pushCall_eq_ok ended
        exact ⟨_ :: newer, choice, congrArg _ stack, kept, called, tracks⟩
      | back | stop => exact ⟨newer, choice, stack, kept, called, tracks⟩
  | handOut =>
    rw [answer?, Option.toList_none, List.append_nil]
    exact tracked
  | resume =>
    rw [answer?, Option.toList_none, List.append_nil]
    obtain ⟨newer, choice, stack, rest⟩ := tracked
    exact ⟨newer, choice, (Machine.choices_resumed _).trans stack, rest⟩
  | facts canonical same more =>
    rw [answer?, Option.toList_none, List.append_nil]
    obtain ⟨newer, choice, stack, kept, called, tracks⟩ := tracked
    exact ⟨newer, choice, stack, kept, called, tracks.grow same more⟩

/-! ### The run -/

theorem Answered.regular (answered : Answered program goal origin context moment answers) :
    moment.Regular program context := by
  induction answered with
  | call regular running fetches begun ended =>
    subst begun
    exact regular.step (.pass (.call running fetches ended))
  | step _ steps _ ih => exact ih.step steps

variable (built : program.Built (Rule.AllFunctors fun functor ↦ 0 < functor.arity))
  (answered : Answered program goal origin context moment answers)

include built answered

private theorem Answered.tracked :
    ∃ args, origin.Asks goal args ∧ Tracked goal args origin context moment answers := by
  induction answered with
  | call regular running fetches begun ended =>
    obtain ⟨formed, holds⟩ := regular.arguments built running fetches
    subst begun
    obtain ⟨rule, args, -, room, sees, rfl⟩ := Exec.pushCall_eq_ok ended
    exact ⟨args, ⟨formed, holds, room, sees⟩, [], _, rfl, rfl, rfl, rfl, Nat.zero_le _, rfl⟩
  | step answered steps stays ih =>
    obtain ⟨args, asks, tracked⟩ := ih
    have some_left := tracked.choices_ne_nil
    exact ⟨args, asks, tracked.step asks answered.regular.canonical
      (answered.regular.fitting_of_choices built some_left) steps stays⟩

/-- The facts that have answered a call are, in order, the first of those among all facts of its
functor that unify with its arguments; once no fact is ahead, they are all of them. From every state
of the call, each of these facts unifies or does not, always the same, and seeking the next answer
meets no fault. -/
theorem Answered.lookup_exact :
    answers <+: context.unifying goal origin ∧
    (∀ count choice query, moment.seeking = some count →
      moment.machine.choices = choice :: origin.choices →
      choice.alternative = .facts query → context.upcoming choice count = none →
      answers = context.unifying goal origin) ∧
    (∀ machine choice, choice.goal = goal → Machine.BackAt program origin choice machine →
      ∀ fact ∈ context.store.factsOf goal, ∃ later,
        Exec.unifyFact context.occursCheck goal fact machine =
        .ok (origin.unifies context.occursCheck goal fact) later) ∧
    ∀ count, moment.seeking = some count →
      ∃ finding later, Exec.tryAnswer context count moment.machine = .ok finding later := by
  obtain ⟨args, asks, tracked⟩ := answered.tracked built
  have canonical := answered.regular.canonical
  obtain ⟨trial, view, runs, -, -, fits⟩ :=
    answered.regular.fitting_of_choices built tracked.choices_ne_nil
  obtain ⟨newer, own, stack, -, called, tracks⟩ := tracked
  have consistent := canonical.built.consistent
  refine ⟨tracks.isPrefix asks canonical,
    fun count choice query sought top searching none_ahead ↦ ?_,
    fun machine choice same back fact listed ↦ ?_, fun count sought ↦ ?_⟩
  · obtain ⟨-, newest, older, newest_stack, enough⟩ := fits.seeking count sought
    rw [top] at stack newest_stack
    obtain rfl := (List.cons.inj newest_stack).1
    obtain rfl : newer = [] := List.length_eq_zero_iff.1 (by simpa using congrArg List.length stack)
    obtain rfl := (List.cons.inj stack).1
    exact tracks.eq_of_none asks canonical (enough consistent) none_ahead searching
  · subst same
    exact asks.exists_unifyFact (consistent.functor _ fact listed)
      (canonical.facts fact (canonical.contains_of_mem listed)) back.memory back.arguments
  · obtain ⟨machine, seeking, origins⟩ := moment
    cases sought
    exact fits.exists_tryAnswer runs consistent

end Moment

/-! ### A lookup -/

/-- The facts of a store are canonical if those asserted were. -/
theorem Context.canonical_of_asserted {context : Context} (operations : List Operation)
    (same : context.store = (Usage.after operations).store)
    (canonical : ∀ fact ∈ (Usage.after operations).facts, fact.term.Canonical) :
    context.Canonical context.program where
  program := rfl
  built := same ▸ (Usage.sound_after operations).built
  facts fact stored :=
    canonical fact (((Usage.sound_after operations).known fact).1 (same ▸ stored))

/-- A rule that calls its own predicate: `p(1) :- p(2).` -/
def Rule.lookingUp : Rule where
  head := .struct ⟨0⟩ [.num 1]
  body := [.struct ⟨0⟩ [.num 2]]

/-- The program of that rule. -/
def Program.lookingUp : Program :=
  match (Program.new 3).addRule .empty .lookingUp with
  | .ok (_, program) => program
  | .error _ => .new 3

/-- The fact `p(1).` -/
def Fact.passedOver : Fact := ⟨.struct ⟨0⟩ [.num 1], rfl, rfl, rfl⟩

/-- The fact `p(2).` -/
def Fact.lookedUp : Fact := ⟨.struct ⟨0⟩ [.num 2], rfl, rfl, rfl⟩

/-- The program with both facts. -/
def Context.lookingUp : Context where
  program := .lookingUp
  store := (Usage.after [.assert .passedOver, .assert .lookedUp]).store
  occursCheck := .on
  stepLimit := 100

private theorem Program.built_lookingUp :
    Program.lookingUp.Built (Rule.AllFunctors fun functor ↦ 0 < functor.arity) := by
  unfold lookingUp
  split
  · next added =>
    refine .addRule (.new 3) ?_ added
    simp [Rule.AllFunctors, Rule.lookingUp, Term.AllFunctors, Term.AllFunctorsList]
  · exact .new 3

namespace Context

private theorem factsOf_lookingUp :
    (lookingUp.store.factsOf ⟨⟨0⟩, 1⟩).toList = [.passedOver, .lookedUp] := by
  rw [lookingUp, (Usage.sound_after _).lists]
  decide +kernel

private theorem canonical_lookingUp : lookingUp.Canonical .lookingUp := by
  have same : lookingUp.store = (Usage.after [.assert .passedOver, .assert .lookedUp]).store := rfl
  refine canonical_of_asserted _ same fun fact asserted ↦ ?_
  have either : fact ∈ [Fact.passedOver, Fact.lookedUp] := asserted
  obtain rfl | rfl : fact = .passedOver ∨ fact = .lookedUp := by simpa using either
  · simp [Term.Canonical, Term.AllFunctors, Term.AllFunctorsList, Fact.passedOver]
  · simp [Term.Canonical, Term.AllFunctors, Term.AllFunctorsList, Fact.lookedUp]

end Context

/-- Whether a machine is at the rule's call, which one of the facts unifies with. -/
def Machine.looksUp (caller : Machine) : Bool :=
  match Exec.pushCall ⟨⟨0⟩, 1⟩ caller.begun with
  | .error _ _ => false
  | .ok _ later =>
    decide (caller.status = .running ∧ caller.rule = some ⟨0⟩ ∧ caller.counter = 3 ∧
      later.choices.map (·.alternative) = [.facts { pattern := .struct ⟨0⟩ [.num 2] }] ∧
      caller.begun.unifies .on ⟨⟨0⟩, 1⟩ .passedOver = false ∧
      caller.begun.unifies .on ⟨⟨0⟩, 1⟩ .lookedUp = true)

namespace Moment

/-- The attempt comes to its call. -/
theorem exists_lookingUp : ∃ machine origins compiled later,
    Regular .lookingUp .lookingUp ⟨machine, none, origins⟩ ∧ machine.status = .running ∧
    machine.Fetches .lookingUp compiled (.call (.predicate ⟨⟨0⟩, 1⟩)) ∧
    Exec.pushCall ⟨⟨0⟩, 1⟩ machine.begun = .ok ⟨⟩ later ∧
    later.choices.map (·.alternative) = [.facts { pattern := .struct ⟨0⟩ [.num 2] }] ∧
    machine.begun.unifies .on ⟨⟨0⟩, 1⟩ .passedOver = false ∧
    machine.begun.unifies .on ⟨⟨0⟩, 1⟩ .lookedUp = true := by
  have made : (Context.lookingUp.attempt ⟨0⟩ 3 3).any Machine.looksUp = true := by decide +kernel
  obtain ⟨caller, reached, looks⟩ := (Option.any_eq_true _ _).1 made
  obtain ⟨compiled, found, code⟩ : ∃ compiled, Program.lookingUp.rule? ⟨0⟩ = some compiled ∧
      compiled.code[3]? = some (.call (.predicate ⟨⟨0⟩, 1⟩)) := ⟨_, rfl, rfl⟩
  obtain ⟨origins, regular⟩ := Context.regular_attempt Context.canonical_lookingUp reached
  unfold Machine.looksUp at looks
  split at looks
  · cases looks
  next later ended =>
  obtain ⟨running, rule, counter, rest⟩ := of_decide_eq_true looks
  exact ⟨caller, origins, compiled, later, regular, running, ⟨⟨⟨0⟩, rule, found⟩, counter ▸ code⟩,
    ended, rest⟩

/-- The search for `p(2)` has one fact ahead. -/
theorem upcoming_lookingUp {choice : Choice}
    (searching : choice.alternative = .facts { pattern := .struct ⟨0⟩ [.num 2] }) :
    ∃ query, Context.lookingUp.upcoming choice (Context.lookingUp.store.factsOf ⟨⟨0⟩, 1⟩).size =
      some (.lookedUp, query) := by
  have consistent := Context.canonical_lookingUp.built.consistent
  have size : (Context.lookingUp.store.factsOf ⟨⟨0⟩, 1⟩).size = 2 := by
    rw [← Array.length_toList, Context.factsOf_lookingUp]
    rfl
  have remaining : Context.lookingUp.store.remaining { pattern := .struct ⟨0⟩ [.num 2] } =
    [.lookedUp] := by
    have matching : Context.lookingUp.store.matching (.struct ⟨0⟩ [.num 2]) =
        (Context.lookingUp.store.factsOf ⟨⟨0⟩, 1⟩).toList.filter fun fact ↦
          (Term.struct ⟨0⟩ [.num 2]).covers fact.term := consistent.matching_eq rfl
    rw [Context.factsOf_lookingUp] at matching
    exact matching.trans (by decide +kernel)
  obtain ⟨-, following⟩ := consistent.next_remaining { pattern := .struct ⟨0⟩ [.num 2] }
  simp only [Context.upcoming, searching, size]
  cases next : Context.lookingUp.store.next { pattern := .struct ⟨0⟩ [.num 2] } with
  | mk found query =>
    rw [next, remaining] at following
    cases found with
    | none => cases following
    | some fact =>
      obtain rfl : Fact.lookedUp = fact := (List.cons.inj following).1
      exact ⟨query, rfl⟩

/-- Of the two facts the call is answered by the one that unifies. -/
theorem lookup_exact_lookingUp : ∃ origin moment,
    Answered .lookingUp ⟨⟨0⟩, 1⟩ origin .lookingUp moment [.lookedUp] ∧
    [.lookedUp] <+: Context.lookingUp.unifying ⟨⟨0⟩, 1⟩ origin ∧
    Context.lookingUp.unifying ⟨⟨0⟩, 1⟩ origin = [.lookedUp] := by
  obtain ⟨machine, origins, compiled, later, regular, running, fetches, ended, searching,
    unlike, alike⟩ :=
    exists_lookingUp
  have built := Program.built_lookingUp
  have called : Answered .lookingUp ⟨⟨0⟩, 1⟩ machine.begun .lookingUp
      ⟨later, some (Context.lookingUp.store.factsOf ⟨⟨0⟩, 1⟩).size, machine.begun :: origins⟩ [] :=
    .call regular running fetches rfl ended
  have unifying : Context.lookingUp.unifying ⟨⟨0⟩, 1⟩ machine.begun = [.lookedUp] := by
    rw [Context.unifying, Context.factsOf_lookingUp]
    simp [show Context.lookingUp.occursCheck = .on from rfl, unlike, alike]
  have listed : Fact.lookedUp ∈ Context.lookingUp.store.factsOf ⟨⟨0⟩, 1⟩ := by
    rw [← Array.mem_toList_iff, Context.factsOf_lookingUp]
    simp
  obtain ⟨rule, args, -, -, -, pushed⟩ := Exec.pushCall_eq_ok ended
  let choice := machine.begun.calling ⟨⟨0⟩, 1⟩ rule (Term.apply ⟨0⟩ args)
  have stack : later.choices = choice :: machine.begun.choices := by rw [pushed]
  rw [stack, List.map_cons] at searching
  obtain ⟨query, ahead⟩ := upcoming_lookingUp (List.cons.inj searching).1
  obtain ⟨trial, view, runs, same, -, fits⟩ :=
    called.regular.fitting_of_choices built (by simp [stack])
  obtain ⟨_, _, kept, back⟩ := fits.backAt stack
  cases kept
  obtain ⟨-, -, decides, answers⟩ := called.lookup_exact built
  obtain ⟨finding, next, tried⟩ := answers _ rfl
  obtain ⟨-, tries⟩ := Exec.tryAnswer_eq_ok stack tried
  obtain ⟨_, unified⟩ := decides _ choice rfl (same ▸ back) .lookedUp listed
  rw [show Context.lookingUp.occursCheck = .on from rfl, alike] at unified
  obtain ⟨memory, ⟨rfl, found, -⟩ | ⟨-, -, missed⟩⟩ := tries.of_upcoming ahead
  · have answered := called.step (.pass (.find tried)) (by simp [found, Machine.noting])
    simp only [answer?, stack, ahead, true_and, if_true, Option.map_some, Option.toList_some,
      List.nil_append] at answered
    exact ⟨_, _, answered, (answered.lookup_exact built).1, unifying⟩
  · obtain ⟨_, again⟩ : ∃ last, Exec.unifyFact .on ⟨⟨0⟩, 1⟩ .lookedUp
        (later.noting choice machine.begun.choices query) = .ok true last :=
      ⟨_, Exec.unifyFact_congr (by rfl) (fun _ _ ↦ by rfl) unified⟩
    cases again.symm.trans missed

end Moment
end HornMachine
