import HornMachine.Proofs.Heap.Loading
import HornMachine.Proofs.Machine.Calls

/-!
# Choice points and their answers

A call of a predicate pushes a choice point; answers are then tried one at a time, each from the
state of the call. Main statements: pushing a choice point keeps what holds of a machine and is a
move that leaves out candidates only if they answer nothing, and trying an answer takes the next
candidate, passes it, or drops the choice point.
-/

namespace HornMachine

open Code (Meaning Disciplined Shape Total)

variable {D : Type} [Domain D] {trial : Trial} {context : Context}

/-! ### Unifying with a fact -/

namespace Fact

theorem functor?_term (fact : Fact) : fact.term.functor? = some fact.functor := by
  simp [functor]

theorem length_args (fact : Fact) : fact.args.length = fact.functor.arity :=
  (Rule.functor?_eq_some fact.functor?_term).1

/-- A fact with arguments is a structure. -/
theorem term_eq_struct (fact : Fact) (some_args : fact.functor.arity ≠ 0) :
    fact.term = .struct fact.functor.symbol fact.args := by
  have found := fact.functor?_term
  have count := fact.length_args
  unfold args at count ⊢
  cases same : fact.term with
  | struct symbol args =>
    rw [same, Term.functor?] at found
    split at found
    · rw [← Option.some.inj found]
      rfl
    · cases found
  | atom | var | num =>
    rw [same] at count
    exact absurd count.symm some_args

/-- The value of a fact's arguments does not depend on variables. -/
theorem values_eq (fact : Fact) (β : Var → D) : fact.args.map (Term.eval β) = fact.values :=
  List.map_congr_left fun _ member ↦
    Term.eval_of_isGround (Term.isGround_of_mem_args fact.ground member) β
    default

end Fact

namespace Exec

variable {check : OccursCheck} {machine later : Machine}

/-- Unifying arguments only binds variables. -/
theorem binds_unifyArguments {header : Address} {indices : List Nat} {success : Bool}
    (ended : unifyArguments check header indices machine = .ok success later) :
    Memory.Binds check machine.memory later.memory := by
  induction indices generalizing machine with
  | nil =>
    cases ended
    exact .refl
  | cons index indices ih =>
    obtain ⟨address, middle, read, rest⟩ := bind_eq_ok.1 ended
    obtain ⟨-, rfl⟩ := register_eq_ok.1 read
    obtain ⟨unified, next, first, rest⟩ := bind_eq_ok.1 rest
    obtain ⟨memory, run, rfl⟩ := onMemory_eq_ok.1 first
    have binds := Memory.binds_unify run
    cases unified with
    | true => exact binds.trans (ih rest)
    | false =>
      cases rest
      exact binds

/-- Unifying arguments equates the registers with the arguments of the structure. -/
theorem solution_unifyArguments {header : Address} {indices : List Nat}
    (ended : unifyArguments check header indices machine = .ok true later) (θ : Valuation D) :
    later.memory.heap.Solution θ ↔ machine.memory.heap.Solution θ ∧
      ∀ index ∈ indices, Bank.values machine.registers θ index =
        θ (Heap.argument header index) := by
  induction indices generalizing machine with
  | nil =>
    cases ended
    simp
  | cons index indices ih =>
    obtain ⟨address, middle, read, rest⟩ := bind_eq_ok.1 ended
    obtain ⟨here, rfl⟩ := register_eq_ok.1 read
    obtain ⟨unified, next, first, rest⟩ := bind_eq_ok.1 rest
    obtain ⟨memory, run, rfl⟩ := onMemory_eq_ok.1 first
    cases unified with
    | false => cases rest
    | true =>
      rw [ih rest, Memory.solution_unify run, List.forall_mem_cons, Bank.values_of_getElem? here,
        and_assoc]

/-- If arguments do not unify, no solution equates the registers with them. -/
theorem ne_of_unifyArguments {header : Address} {indices : List Nat}
    (ended : unifyArguments check header indices machine = .ok false later) {θ : Valuation D}
    (solution : machine.memory.heap.Solution θ)
    (settles : ∀ index ∈ indices, check.Settles (θ (Heap.argument header index))) :
    ¬∀ index ∈ indices, Bank.values machine.registers θ index = θ (Heap.argument header index) := by
  induction indices generalizing machine with
  | nil => cases ended
  | cons index indices ih =>
    obtain ⟨address, middle, read, rest⟩ := bind_eq_ok.1 ended
    obtain ⟨here, rfl⟩ := register_eq_ok.1 read
    obtain ⟨unified, next, first, rest⟩ := bind_eq_ok.1 rest
    obtain ⟨memory, run, rfl⟩ := onMemory_eq_ok.1 first
    obtain ⟨own, settles⟩ := List.forall_mem_cons.1 settles
    rw [List.forall_mem_cons, Bank.values_of_getElem? here]
    rintro ⟨same, others⟩
    cases unified with
    | false => exact Memory.ne_of_unify_of_settles run solution (same ▸ own) same
    | true => exact ih rest ((Memory.solution_unify run θ).2 ⟨solution, same⟩) settles others

/-- How the argument registers are unified with a fact that has arguments: the fact is added to the
heap, found to be a structure, and its arguments are unified. -/
theorem unifyFact_eq_ok_cases {goal : Functor} {fact : Fact} {success : Bool}
    (some_args : goal.arity ≠ 0)
    (ended : unifyFact check goal fact machine = .ok success later) :
    ∃ address heap found value, machine.memory.heap.loadAlone fact.term = (.ok address, heap) ∧
      heap.value address = .ok (found, value) ∧
      ((∃ header, value = .compound goal header ∧
        unifyArguments check header (List.range goal.arity)
          { machine with memory := { machine.memory with heap } } = .ok success later) ∨
      (∀ header, value ≠ .compound goal header) ∧ success = false ∧
        later = { machine with memory := { machine.memory with heap } }) := by
  rw [unifyFact, if_neg some_args] at ended
  obtain ⟨address, middle, loading, rest⟩ := bind_eq_ok.1 ended
  obtain ⟨memory, loaded, rfl⟩ := onMemory_eq_ok.1 loading
  obtain ⟨⟨found, value⟩, next, reading, rest⟩ := bind_eq_ok.1 rest
  obtain ⟨read, rfl⟩ := value_eq_ok.1 reading
  cases result : machine.memory.heap.loadAlone fact.term with
  | mk outcome heap =>
    simp only [result, Prod.mk.injEq] at loaded
    obtain ⟨rfl, rfl⟩ := loaded
    refine ⟨address, heap, found, value, rfl, read, ?_⟩
    cases value with
    | compound functor header =>
      simp only at rest
      split at rest
      · next same =>
        subst same
        exact .inl ⟨header, rfl, rest⟩
      · next other =>
        cases rest
        refine .inr ⟨fun header same ↦ other ?_, rfl, rfl⟩
        cases same
        rfl
    | unbound | atom | num =>
      cases rest
      exact .inr ⟨nofun, rfl, rfl⟩

variable {admits : Functor → Prop} {goal : Functor} {fact : Fact} {success : Bool}
  (formed : machine.memory.heap.Formed admits 0) (kinds : fact.term.AllFunctors admits)

include formed kinds

/-- What unifying with a fact does to the memory can be taken back. -/
theorem rewinds_unifyFact (ended : unifyFact check goal fact machine = .ok success later) :
    later.memory.Rewinds machine.memory ∧ later.memory.heap.Formed admits 0 := by
  by_cases none_args : goal.arity = 0
  · rw [unifyFact, if_pos none_args] at ended
    cases ended
    exact ⟨.refl _, formed⟩
  obtain ⟨address, heap, found, value, loaded, -, rest⟩ := unifyFact_eq_ok_cases none_args ended
  obtain ⟨formed, rewinds, -⟩ := Memory.narrows_loadAlone Term formed fact.ground kinds loaded
  obtain ⟨header, -, unified⟩ | ⟨-, -, rfl⟩ := rest
  · have binds := binds_unifyArguments unified
    exact ⟨binds.rebinds.toRewinds.trans rewinds, binds.formed formed⟩
  · exact ⟨rewinds, formed⟩

omit formed kinds in
/-- Registers that hold the arguments of a structure hold the fact's arguments. -/
theorem forall_argument_iff {registers : Bank} {θ : Valuation D} {header : Address}
    {values : List D} (same : (Heap.arguments goal header).map θ = values) :
    (∀ index ∈ List.range goal.arity, registers.values θ index = θ (Heap.argument header index)) ↔
      (List.range goal.arity).map (registers.values θ) = values := by
  rw [← same, Heap.arguments, List.map_map, List.map_inj_left]
  rfl

/-- A loaded fact is a structure, whose arguments stand for the fact's. -/
theorem value_fact (called : fact.functor = goal) (some_args : goal.arity ≠ 0) {heap : Heap}
    {address : Address} (loaded : machine.memory.heap.loadAlone fact.term = (.ok address, heap)) :
    heap.value address = .ok (address, .compound goal (address + 1)) ∧
      ∀ θ : Valuation D, heap.Solution θ →
        (Heap.arguments goal (address + 1)).map θ = fact.values := by
  obtain ⟨-, -, -, back, -⟩ := Memory.narrows_loadAlone D formed fact.ground kinds loaded
  have same := fact.term_eq_struct (called ▸ some_args)
  have read : heap.value address = .ok (address, .compound goal (address + 1)) := by
    rw [same] at loaded kinds
    have count := fact.length_args
    have found := Memory.value_loadAlone_struct formed kinds loaded
    rwa [count, called] at found
  refine ⟨read, fun θ solution ↦ ?_⟩
  obtain ⟨one, two⟩ := solution.value read
  have stands := (back θ solution).2 default
  rw [one, two, same, Term.eval_struct, fact.values_eq] at stands
  exact (Domain.struct_inj.1 stands).2

/-- Unifying with a fact keeps the solutions in which the arguments are the fact's. -/
theorem narrows_unifyFact (called : fact.functor = goal)
    (holds : Point.Holds machine.registers {index | index < goal.arity} machine.memory.heap.size)
    (ended : unifyFact check goal fact machine = .ok true later) :
    machine.memory.Narrows admits later.memory fun θ : Valuation D ↦
      (List.range goal.arity).map (Bank.values machine.registers θ) = fact.values := by
  obtain ⟨rewinds, later_formed⟩ := rewinds_unifyFact formed kinds ended
  by_cases none_args : goal.arity = 0
  · have empty : (fact.values : List D) = [] := by
      rw [Fact.values, List.map_eq_nil_iff, ← List.length_eq_zero_iff, fact.length_args, called,
        none_args]
    rw [unifyFact, if_pos none_args] at ended
    cases ended
    refine ⟨fun θ solution ↦ ⟨solution, ?_⟩, fun θ solution _ ↦ ⟨θ, fun _ _ ↦ rfl, solution⟩,
      rewinds, formed⟩
    rw [empty, none_args]
    rfl
  obtain ⟨address, heap, found, value, loaded, read, rest⟩ := unifyFact_eq_ok_cases none_args ended
  obtain ⟨heap_formed, grown, -, back, forth⟩ :=
    Memory.narrows_loadAlone D formed fact.ground kinds loaded
  obtain ⟨header, shown, unified⟩ | ⟨-, failed, -⟩ := rest
  swap
  · cases failed
  obtain ⟨known, arguments⟩ := value_fact (D := D) formed kinds called none_args loaded
  cases known.symm.trans read
  cases shown
  refine ⟨fun θ solution ↦ ?_, fun θ solution same ↦ ?_, rewinds, later_formed⟩
  · obtain ⟨solution, each⟩ := (solution_unifyArguments unified θ).1 solution
    exact ⟨(back θ solution).1, (forall_argument_iff (arguments θ solution)).1 each⟩
  · obtain ⟨θ', kept, solution'⟩ := forth θ solution
    refine ⟨θ', kept, (solution_unifyArguments unified θ').2 ⟨solution', ?_⟩⟩
    refine (forall_argument_iff (arguments θ' solution')).2 ?_
    rw [← same]
    refine List.map_congr_left fun index lower ↦ ?_
    obtain ⟨held, here, inside⟩ := holds index (List.mem_range.1 lower)
    rw [Bank.values_of_getElem? here, Bank.values_of_getElem? here, kept held inside]

/-- If a fact does not unify, no solution has its arguments. -/
theorem ne_of_unifyFact (settles : ∀ value ∈ (fact.values : List D), check.Settles value)
    (called : fact.functor = goal)
    (holds : Point.Holds machine.registers {index | index < goal.arity} machine.memory.heap.size)
    (ended : unifyFact check goal fact machine = .ok false later) {θ : Valuation D}
    (solution : machine.memory.heap.Solution θ) :
    (List.range goal.arity).map (Bank.values machine.registers θ) ≠ fact.values := by
  intro same
  by_cases none_args : goal.arity = 0
  · rw [unifyFact, if_pos none_args] at ended
    cases ended
  obtain ⟨address, heap, found, value, loaded, read, rest⟩ := unifyFact_eq_ok_cases none_args ended
  obtain ⟨-, -, -, -, forth⟩ := Memory.narrows_loadAlone D formed fact.ground kinds loaded
  obtain ⟨θ', kept, solution'⟩ := forth θ solution
  obtain ⟨known, arguments⟩ := value_fact (D := D) formed kinds called none_args loaded
  cases known.symm.trans read
  obtain ⟨header, shown, unified⟩ | ⟨other, -, -⟩ := rest
  · cases shown
    have values := arguments θ' solution'
    refine ne_of_unifyArguments unified solution' (fun index member ↦ settles _ ?_) ?_
    · rw [← values]
      exact List.mem_map_of_mem (Heap.mem_arguments (List.mem_range.1 member))
    refine (forall_argument_iff values).2 ?_
    rw [← same]
    refine List.map_congr_left fun index lower ↦ ?_
    obtain ⟨held, here, inside⟩ := holds index (List.mem_range.1 lower)
    rw [Bank.values_of_getElem? here, Bank.values_of_getElem? here, kept held inside]
  · exact other _ rfl

end Exec

/-- A functor has at most 255 arguments. -/
theorem Term.arity_le_of_functor? {term : Term} {functor : Functor}
    (found : term.functor? = some functor) : functor.arity ≤ Functor.maxArity := by
  cases term with
  | atom symbol =>
    cases found
    exact Nat.zero_le _
  | struct symbol args =>
    rw [Term.functor?] at found
    split at found
    · next few =>
      cases found
      exact few
    · cases found
  | var | num => cases found

/-- A name with arguments that are few enough has a functor. -/
theorem Term.functor?_apply {symbol : Symbol} {args : List Term}
    (few : args.length ≤ Functor.maxArity) :
    (Term.apply symbol args).functor? = some ⟨symbol, args.length⟩ := by
  cases args with
  | nil => rfl
  | cons arg args => simp only [Term.apply, Term.functor?, if_pos few]

/-- A name with its arguments has no other functor. -/
theorem Term.eq_of_functor?_apply {symbol : Symbol} {args : List Term} {functor : Functor}
    (found : (Term.apply symbol args).functor? = some functor) :
    functor = ⟨symbol, args.length⟩ := by
  cases args with
  | nil => exact (Option.some.inj found).symm
  | cons arg args =>
    simp only [Term.apply, Term.functor?] at found
    split at found
    · exact (Option.some.inj found).symm
    · cases found

/-! ### Going back to a choice point -/

namespace Machine

variable {machine later : Machine} {view : View} {choice : Choice} {older : List Choice}

private theorem getElem?_foldl_setIfInBounds (entries : List (Option Address)) (start : Nat)
    (registers : Bank) (index : Nat) :
    ((entries.zipIdx start).foldl (fun registers (address, index) ↦
      registers.setIfInBounds index address) registers : Bank)[index]? =
      if start ≤ index ∧ index < start + entries.length ∧ index < registers.size then
        entries[index - start]? else registers[index]? := by
  induction entries generalizing start registers with
  | nil =>
    rw [if_neg (by simp only [List.length_nil]; omega)]
    rfl
  | cons entry entries ih =>
    rw [List.zipIdx_cons, List.foldl_cons, ih, Array.size_setIfInBounds, List.length_cons]
    by_cases first : start = index
    · subst first
      rw [if_neg (by omega)]
      by_cases room : start < registers.size
      · simp [room]
      · simp [room]
    · rw [Array.getElem?_setIfInBounds_ne first]
      by_cases inside : start + 1 ≤ index ∧ index < start + 1 + entries.length ∧
          index < registers.size
      · rw [if_pos inside, if_pos (by omega), show index - start = index - (start + 1) + 1 by omega,
          List.getElem?_cons_succ]
      · rw [if_neg inside, if_neg (by omega)]

/-- Going back puts the arguments of the call in the registers. -/
theorem registers_restored (room : choice.arguments.size ≤ machine.registers.size) {index : Nat}
    (lower : index < choice.arguments.size) :
    (machine.restored choice).registers[index]? = choice.arguments[index]? := by
  rw [restored, getElem?_foldl_setIfInBounds, if_pos (by simp; omega), Nat.sub_zero,
    Array.getElem?_toList]

/-- Going back to the newest choice point gives the state of its call, up to slots filled since. -/
structure GoesBack (trial : Trial) (machine : Machine) (choice : Choice) (older : List Choice)
    (pause : Pause) (pauses : List Pause) : Prop where
  marks : pause.Marks trial choice
  backed : Pause.Backed trial older pause.memory pause.frames pauses
  trail : choice.trailSize ≤ machine.memory.trail.size
  memory : (machine.restored choice).memory = pause.memory
  sizes : (machine.restored choice).frames.size = pause.frames.size
  grown : Frame.Grown (machine.restored choice).frames pause.frames

theorem Fits.goesBack (fits : machine.Fits trial view) (stack : machine.choices = choice :: older) :
    ∃ pause pauses, view.pauses = pause :: pauses ∧
      machine.GoesBack trial choice older pause pauses := by
  have backed := fits.backed
  rw [stack] at backed
  generalize view.pauses = pauses at backed
  cases backed with
  | @cons _ _ _ _ pause pauses marks rewinds grown older =>
    have all := fits.frames.trans grown
    refine ⟨pause, pauses, rfl, marks, older, marks.trail ▸ rewinds.trail, ?_, ?_, ?_⟩
    · rw [Machine.restored, ← marks.trail, ← marks.heap]
      exact rewinds.back
    · have := all.size
      rw [marks.count] at this ⊢
      simp only [Machine.restored, Array.shrink_eq_take, Array.take_eq_extract, Array.size_extract]
      omega
    · exact all.shrink (Nat.le_of_eq marks.count)

end Machine

/-- What a choice point goes back to does not depend on the answers it has left. -/
theorem Pause.Marks.noting {choice : Choice} {pause : Pause} (marks : pause.Marks trial choice)
    (alternative : Alternative)
    (pattern : ∀ query, alternative = .facts query → ∃ args, args.length = choice.goal.arity ∧
      query.pattern = Term.apply choice.goal.symbol args) :
    pause.Marks trial { choice with alternative } :=
  { marks with pattern := pattern }

theorem Pause.Marks.functor_eq {choice : Choice} {pause : Pause} (marks : pause.Marks trial choice)
    {query : Query} (alternative : choice.alternative = .facts query) {functor : Functor}
    (found : query.pattern.functor? = some functor) : functor = choice.goal := by
  obtain ⟨args, length, same⟩ := marks.pattern query alternative
  rw [same] at found
  rw [Term.eq_of_functor?_apply found, length]

/-! ### Candidates -/

namespace Context

variable {choice : Choice} {count : Nat}

/-- Enough facts may be tried to come to the end of them. -/
def Enough (context : Context) (choice : Choice) (count : Nat) : Prop :=
  ∀ query, choice.alternative = .facts query → (context.store.remaining query).length ≤ count

/-- The next fact is tried. -/
theorem upcoming_eq_some {fact : Fact} {later : Query}
    (ahead : context.upcoming choice count = some (fact, later)) :
    ∃ query fewer, choice.alternative = .facts query ∧ count = fewer + 1 ∧
      context.store.next query = (some fact, later) := by
  unfold upcoming at ahead
  split at ahead
  · next query fewer alternative =>
    split at ahead
    · next found next here =>
      cases ahead
      exact ⟨query, fewer, alternative, rfl, here⟩
    · cases ahead
  · cases ahead

/-- The facts that a choice point has left to try. -/
def factsLeft (context : Context) (choice : Choice) : List Fact :=
  match choice.alternative with
  | .facts query => context.store.remaining query
  | .clauses _ => []

/-- Facts are tried before clauses. -/
theorem candidatesLeft_eq (context : Context) (choice : Choice) :
    context.candidatesLeft choice =
      (context.factsLeft choice).map Candidate.fact ++
        context.clausesFrom choice.goal choice.position := by
  unfold candidatesLeft factsLeft Choice.position
  cases choice.alternative <;> rfl

/-- The facts left begin with the fact ahead. -/
theorem factsLeft_of_upcoming (consistent : context.store.Consistent) {fact : Fact} {later : Query}
    (ahead : context.upcoming choice count = some (fact, later)) :
    context.factsLeft choice = fact :: context.factsLeft
      { choice with alternative := .facts later } := by
  obtain ⟨query, fewer, alternative, rfl, next⟩ := upcoming_eq_some ahead
  obtain ⟨-, remaining⟩ := consistent.next_remaining query
  rw [next] at remaining
  simp only [factsLeft, alternative]
  exact remaining

/-- Once no fact is ahead, none is left. -/
theorem factsLeft_of_none (consistent : context.store.Consistent)
    (enough : context.Enough choice count)
    (ahead : context.upcoming choice count = none) : context.factsLeft choice = [] := by
  unfold factsLeft
  cases alternative : choice.alternative with
  | clauses position => rfl
  | facts query =>
    have few := enough query alternative
    unfold upcoming at ahead
    rw [alternative] at ahead
    cases count with
    | zero => exact List.length_eq_zero_iff.1 (Nat.le_zero.1 few)
    | succ fewer =>
      obtain ⟨-, remaining⟩ := consistent.next_remaining query
      cases next : context.store.next query with
      | mk found later =>
        rw [next] at remaining
        cases found with
        | none => exact remaining
        | some fact => simp [next] at ahead

/-- The fact ahead has the functor that is searched for. -/
theorem functor?_of_upcoming (consistent : context.store.Consistent) {fact : Fact} {later : Query}
    (ahead : context.upcoming choice count = some (fact, later)) :
    later.pattern.functor? = some fact.functor := by
  obtain ⟨query, fewer, alternative, rfl, next⟩ := upcoming_eq_some ahead
  obtain ⟨same, -⟩ := consistent.next_remaining query
  obtain ⟨functor, searched, member⟩ := FactStore.mem_factsOf_of_next next
  rw [next] at same
  dsimp only at same
  rw [same, searched, consistent.functor functor fact member]

/-- The candidates left begin with the fact ahead. -/
theorem candidatesLeft_of_upcoming (consistent : context.store.Consistent) {fact : Fact}
    {later : Query} (ahead : context.upcoming choice count = some (fact, later)) :
    later.pattern.functor? = some fact.functor ∧
      context.candidatesLeft choice =
        .fact fact :: context.candidatesLeft { choice with alternative := .facts later } := by
  obtain ⟨query, fewer, alternative, -, -⟩ := upcoming_eq_some ahead
  refine ⟨functor?_of_upcoming consistent ahead, ?_⟩
  rw [candidatesLeft_eq, candidatesLeft_eq, factsLeft_of_upcoming consistent ahead]
  simp only [Choice.position, alternative, List.map_cons, List.cons_append]

/-- Once no fact is ahead, clauses are left. -/
theorem candidatesLeft_of_none (consistent : context.store.Consistent)
    (enough : context.Enough choice count) (ahead : context.upcoming choice count = none) :
    context.candidatesLeft choice = context.clausesFrom choice.goal choice.position := by
  rw [candidatesLeft_eq, factsLeft_of_none consistent enough ahead, List.map_nil, List.nil_append]

private theorem clausesFrom_eq_nil {goal : Functor} {position : Nat}
    (none_here : (context.program.clauses goal)[position]? = none) :
    context.clausesFrom goal position = [] := by
  rw [clausesFrom, List.drop_eq_nil_of_le (by simpa using none_here)]
  rfl

/-- The facts among the candidates are those stored. -/
theorem mem_candidates_fact {goal : Functor} {stored : Fact} :
    Candidate.fact stored ∈ context.candidates goal ↔ stored ∈ context.store.factsOf goal := by
  simp [candidates, clausesFrom]

/-- The clause at a position is a rule with the functor called. -/
theorem clause_of_getElem? {goal : Functor} {position : Nat} {rule : RuleId}
    (here : (context.program.clauses goal)[position]? = some rule) :
    ∃ compiled, context.program.rule? rule = some compiled ∧ compiled.head = goal ∧
      context.clausesFrom goal position = .clause compiled :: context.clausesFrom goal
        (position + 1) := by
  rw [← Array.getElem?_toList] at here
  have member := List.mem_of_getElem? here
  rw [Program.toList_clauses, List.mem_filter] at member
  obtain ⟨compiled, found, head⟩ := (Option.any_eq_true _ _).1 member.2
  refine ⟨compiled, found, by simpa using head, ?_⟩
  obtain ⟨inside, at_position⟩ := List.getElem?_eq_some_iff.1 here
  rw [clausesFrom, clausesFrom, List.drop_eq_getElem_cons inside, at_position,
    List.filterMap_cons, found]
  rfl

end Context

/-! ### Trying answers -/

namespace Pause

variable {choice : Choice} {pause : Pause}

/-- The registers of a call that was gone back to hold its arguments. -/
theorem Marks.holds_restored (marks : pause.Marks trial choice) {machine : Machine}
    (room : choice.arguments.size ≤ machine.registers.size) :
    Point.Holds (machine.restored choice).registers {index | index < choice.goal.arity}
      pause.memory.heap.size := by
  intro index lower
  rw [Machine.registers_restored room (marks.arity ▸ lower)]
  exact marks.holds index lower

private theorem Marks.values_restored (marks : pause.Marks trial choice) {machine : Machine}
    (room : choice.arguments.size ≤ machine.registers.size) (θ : Valuation D) :
    (List.range choice.goal.arity).map (Bank.values (machine.restored choice).registers θ) =
      (List.range choice.goal.arity).map (Bank.values choice.arguments θ) := by
  refine List.map_congr_left fun index lower ↦ ?_
  unfold Bank.values
  rw [Machine.registers_restored room (marks.arity ▸ List.mem_range.1 lower)]

end Pause

namespace Machine

variable {machine later : Machine} {view : View} {choice : Choice} {older : List Choice}
    {count : Nat}
  {finding : Finding}

/-- A machine that has tried an answer fits a later view, and what it has done are moves. -/
def Turns (D : Type) [Domain D] (trial : Trial) (context : Context) (machine : Machine)
    (view : View)
    (choice : Choice) (older : List Choice) (count : Nat) (finding : Finding) (later : Machine) :
    Prop :=
  ∃ after : View, later.Fits trial after ∧ (after.current.isSome = true ↔ finding = .found) ∧
    ((later.choices = older ∧ after.pauses = view.pauses.tail) ∨
      ∃ alternative, later.choices = { choice with alternative } :: older ∧
        after.pauses = view.pauses) ∧
    (trial.Sense context → context.Enough choice count →
      Moves (trial.Exact D) context ⟨none, (view.stage D trial context machine.choices).choices⟩
        (after.stage D trial context later.choices))

private theorem stage_choices_cons (D : Type) [Domain D] {pause : Pause} {pauses : List Pause}
    (stack : machine.choices = choice :: older) (paused : view.pauses = pause :: pauses) :
    (view.stage D trial context machine.choices).choices =
      (pause.instances trial choice, context.candidatesLeft choice) ::
        (View.stage D trial context older ⟨view.frames, view.current, pauses⟩).choices := by
  rw [View.stage, paused, stack]
  rfl

section Turns

variable {pause : Pause} {pauses : List Pause} (fits : machine.Fits trial view)
  (stack : machine.choices = choice :: older) (paused : view.pauses = pause :: pauses)
  (back : machine.GoesBack trial choice older pause pauses)

include fits stack paused back

/-- The call of the choice point has no answer left. -/
theorem turns_exhausted (none_ahead : context.upcoming choice count = none)
    (none_here : (context.program.clauses choice.goal)[choice.position]? = none) :
    machine.Turns D trial context view choice older count .exhausted
      { machine.restored choice with choices := older } := by
  refine ⟨⟨pause.frames, none, pauses⟩, ⟨fits.entry, back.sizes, back.grown, nofun, ?_, ?_⟩,
    by simp, .inl ⟨rfl, by rw [paused]; rfl⟩, fun sense enough ↦ ?_⟩
  · exact back.memory ▸ back.backed
  · exact back.memory ▸ back.marks.inside
  · rw [stage_choices_cons D stack paused, Context.candidatesLeft_of_none sense.consistent enough
      none_ahead, Context.clausesFrom_eq_nil none_here]
    exact .single .pop

omit fits stack paused in
/-- Unifying the arguments of the call with the fact ahead. -/
theorem unifyFact_noting (runs : trial.Runs context) {fact : Fact} {query : Query} {memory : Memory}
    {success : Bool} (ahead : context.upcoming choice count = some (fact, query))
    (unified : Exec.unifyFact context.occursCheck choice.goal fact
      (machine.noting choice older query) =
        .ok success { machine.noting choice older query with memory }) :
    pause.Marks trial { choice with alternative := .facts query } ∧
      (machine.noting choice older query).memory = pause.memory ∧
      fact.term.AllFunctors trial.admits ∧ memory.Rewinds pause.memory ∧
      memory.heap.Formed trial.admits 0 := by
  obtain ⟨asked, fewer, alternative, rfl, next⟩ := Context.upcoming_eq_some ahead
  have same : (machine.noting choice older query).memory = pause.memory := back.memory
  obtain ⟨functor, -, stored⟩ := FactStore.mem_factsOf_of_next next
  have kinds := runs.facts functor fact stored
  obtain ⟨rewinds, formed⟩ := Exec.rewinds_unifyFact (same ▸ back.marks.formed) kinds unified
  refine ⟨back.marks.noting _ ?_, same, kinds, same ▸ rewinds, formed⟩
  rintro _ ⟨⟩
  obtain ⟨args, length, pattern⟩ := back.marks.pattern asked alternative
  refine ⟨args, length, ?_⟩
  rw [← pattern, ← show (context.store.next asked).2 = query by rw [next]]
  exact Candidates.pattern_scan _ _ _

/-- A fact does not answer the call. -/
theorem turns_mismatch (runs : trial.Runs context)
    (room : choice.arguments.size ≤ machine.registers.size) {fact : Fact} {query : Query}
    {memory : Memory} (ahead : context.upcoming choice count = some (fact, query))
    (unified : Exec.unifyFact context.occursCheck choice.goal fact
      (machine.noting choice older query) =
        .ok false { machine.noting choice older query with memory }) :
    machine.Turns D trial context view choice older count .missed
      { machine.noting choice older query with memory } := by
  obtain ⟨marks, same, kinds, rewinds, -⟩ := unifyFact_noting back runs ahead unified
  refine ⟨⟨pause.frames, none, pause :: pauses⟩, ⟨fits.entry, back.sizes, back.grown, nofun,
    .cons marks rewinds (.refl _) back.backed, ?_⟩, by simp, .inr ⟨_, rfl, paused.symm⟩,
    fun sense enough ↦ ?_⟩
  · exact fun address member ↦ Nat.lt_of_lt_of_le (marks.inside address member) rewinds.heap
  · obtain ⟨pattern, left⟩ := Context.candidatesLeft_of_upcoming sense.consistent ahead
    rw [stage_choices_cons D stack paused, left]
    refine .single (.skip fun exact ↦ Set.eq_empty_iff_forall_notMem.2 fun an answered ↦ ?_)
    have called : fact.functor = choice.goal := marks.functor_eq rfl pattern
    change an ∈ Instance.After _ _ at answered
    rw [called] at answered
    obtain ⟨θ, solution, values⟩ := exists_solution_of_after ⟨an, answered⟩
    have decides : context.occursCheck.Decides D := fun _ ↦ exact.domain.1
    refine Exec.ne_of_unifyFact (same ▸ marks.formed) kinds (fun value _ ↦
      decides.settles value) called
      (same ▸ marks.holds_restored room) unified (same ▸ solution) ?_
    exact (marks.values_restored room θ).trans values.symm

/-- A fact answers the call. -/
theorem turns_fact (runs : trial.Runs context)
    (room : choice.arguments.size ≤ machine.registers.size) {fact : Fact} {query : Query}
    {memory : Memory} (ahead : context.upcoming choice count = some (fact, query))
    (unified : Exec.unifyFact context.occursCheck choice.goal fact
      (machine.noting choice older query) =
        .ok true { machine.noting choice older query with memory }) :
    machine.Turns D trial context view choice older count .found
      (goingOn { machine.noting choice older query with memory } choice.continuation) := by
  obtain ⟨marks, same, kinds, rewinds, formed⟩ := unifyFact_noting back runs ahead unified
  obtain ⟨caller, offset, continuation⟩ := marks.resumes
  have waits := marks.stack caller
  rw [continuation] at waits ⊢
  have stack_later := waits.grow rewinds.heap
  obtain ⟨layer, layers, compiled, number, frame, paused_layers, disciplined, inside⟩ :=
    inside_of_stack (goingOn { machine.noting choice older query with memory }
      (.goTo caller offset)) back.grown formed stack_later rfl rfl
  refine
    ⟨⟨pause.frames, some ⟨⟨memory, layer.code, (machine.restored choice).registers, layer.slots,
    machine.mode, 0⟩, layers⟩, pause :: pauses⟩, ⟨fits.entry, back.sizes, back.grown, ?_,
    .cons marks rewinds (.refl _) back.backed, ?_⟩, by simp, .inr ⟨_, rfl, paused.symm⟩,
    fun sense enough ↦ ?_⟩
  · rintro _ ⟨⟩
    exact .inside inside
  · exact fun address member ↦ Nat.lt_of_lt_of_le (marks.inside address member) rewinds.heap
  · obtain ⟨pattern, left⟩ := Context.candidatesLeft_of_upcoming sense.consistent ahead
    have called : fact.functor = choice.goal := marks.functor_eq rfl pattern
    have narrows := Exec.narrows_unifyFact (D := D) (same ▸ marks.formed) kinds called
      (same ▸ marks.holds_restored room) unified
    rw [same] at narrows
    simp only [show (machine.noting choice older query).registers =
      (machine.restored choice).registers from rfl, back.marks.values_restored room] at narrows
    have answered := instances_answer (.predicate choice.goal) (machine.restored choice).registers
      machine.mode (fun args ↦ args = fact.values) narrows (paused_layers ▸ waits.bounded)
        marks.inside
      disciplined
    rw [stage_choices_cons D stack paused, left]
    refine .single (?_ : Move (trial.Exact D) context _
      ⟨some (Situation.instances trial ⟨⟨memory, layer.code,
      (machine.restored choice).registers, layer.slots, machine.mode, 0⟩, layers⟩), _⟩)
    have taken : Situation.instances (D := D) trial ⟨⟨memory, layer.code,
        (machine.restored choice).registers, layer.slots, machine.mode, 0⟩, layers⟩ =
        (Candidate.fact fact).answers (pause.instances trial choice) := by
      rw [answered, Candidate.answers, called]
      simp only [exists_eq_left]
      rw [← paused_layers]
      rfl
    rw [taken]
    exact .take

/-- A clause is entered. -/
theorem turns_clause (runs : trial.Runs context)
    (room : choice.arguments.size ≤ machine.registers.size) {rule : RuleId}
    (none_ahead : context.upcoming choice count = none)
    (here : (context.program.clauses choice.goal)[choice.position]? = some rule) :
    machine.Turns D trial context view choice older count .found
      { machine.restored choice with
        choices := if choice.position + 1 = (context.program.clauses choice.goal).size then older
          else { choice with alternative := .clauses (choice.position + 1) } :: older
        rule := some rule
        counter := 0 } := by
  obtain ⟨compiled, found, head, candidates⟩ := Context.clause_of_getElem? here
  rw [runs.program] at found
  obtain ⟨caller, offset, continuation⟩ := back.marks.resumes
  have holds := back.marks.holds_restored room
  have stack_here := back.marks.stack rule
  refine ⟨⟨pause.frames, some ⟨⟨(machine.restored choice).memory, compiled.body,
      (machine.restored choice).registers, Array.replicate compiled.frameSize none, machine.mode,
        0⟩, pause.layers⟩,
    if choice.position + 1 = (context.program.clauses choice.goal).size then pauses
      else pause :: pauses⟩, ⟨fits.entry, back.sizes, back.grown, ?_, ?_, ?_⟩, by simp, ?_,
      fun sense enough ↦ ?_⟩
  · rintro _ ⟨⟩
    refine .entering rfl found rfl (back.memory ▸ back.marks.formed) ?_ ?_
    · rw [head]
      exact back.memory ▸ holds
    · exact back.memory ▸ stack_here
  · split
    · exact back.memory ▸ back.backed
    · exact .cons (back.marks.noting _ nofun) (back.memory ▸ .refl _) (.refl _) back.backed
  · exact back.memory ▸ back.marks.inside
  · split
    · exact .inl ⟨rfl, by rw [paused]; rfl⟩
    · exact .inr ⟨_, rfl, paused.symm⟩
  · obtain ⟨layer, layers, paused_layers⟩ : ∃ layer layers, pause.layers = layer :: layers := by
      rw [continuation] at stack_here
      generalize pause.layers = all, choice.environment = environment,
        pause.frames.size = bound at stack_here
      cases stack_here
      exact ⟨_, _, rfl⟩
    have values (θ : Valuation D) : (List.range compiled.head.arity).map
        (Bank.values (machine.restored choice).registers θ) =
          (List.range choice.goal.arity).map (Bank.values choice.arguments θ) := by
      rw [head]
      exact back.marks.values_restored room θ
    have entered := instances_enter pause.memory layer layers machine.mode values
      (runs.lawful.disciplined found)
    rw [stage_choices_cons D stack paused, Context.candidatesLeft_of_none sense.consistent enough
      none_ahead, candidates]
    have taken : Situation.instances (D := D) trial
      ⟨⟨(machine.restored choice).memory, compiled.body,
        (machine.restored choice).registers, Array.replicate compiled.frameSize none,
          machine.mode, 0⟩,
        pause.layers⟩ = (Candidate.clause compiled).answers (pause.instances trial choice) := by
      rw [back.memory, paused_layers, entered, head, ← paused_layers]
      rfl
    by_cases last : choice.position + 1 = (context.program.clauses choice.goal).size
    · rw [if_pos last, if_pos last, Context.clausesFrom_eq_nil (Array.getElem?_eq_none last.ge)]
      refine .tail (.single .take) ?_
      rw [← taken]
      exact .pop
    · rw [if_neg last, if_neg last]
      refine .single (?_ : Move (trial.Exact D) context _ ⟨some (Situation.instances trial _), _⟩)
      rw [taken]
      exact .take

end Turns

/-- Trying an answer turns the machine. -/
theorem turns_of_tries (fits : machine.Fits trial view) (runs : trial.Runs context)
    (stack : machine.choices = choice :: older)
    (room : choice.arguments.size ≤ machine.registers.size)
    (tries : machine.Tries context choice older count finding later) :
    machine.Turns D trial context view choice older count finding later := by
  obtain ⟨pause, pauses, paused, back⟩ := fits.goesBack stack
  cases tries with
  | fact ahead unified => exact turns_fact fits stack paused back runs room ahead unified
  | mismatch ahead unified => exact turns_mismatch fits stack paused back runs room ahead unified
  | clause ahead here => exact turns_clause fits stack paused back runs room ahead here
  | exhausted ahead none_here => exact turns_exhausted fits stack paused back ahead none_here

/-- Facts that may still be tried are enough for those that remain after one that is missed. -/
theorem Tries.enough (tries : machine.Tries context choice older (count + 1) .missed later) :
    ∃ missed, later.choices = missed :: older ∧
      (context.store.Consistent → context.Enough choice (count + 1) →
        context.Enough missed count) := by
  cases tries with
  | @mismatch fact query memory ahead unified =>
    refine ⟨_, rfl, fun consistent enough ↦ ?_⟩
    obtain ⟨asked, fewer, alternative, -, next⟩ := Context.upcoming_eq_some ahead
    have few := enough asked alternative
    obtain ⟨-, remaining⟩ := consistent.next_remaining asked
    rw [next] at remaining
    dsimp only at remaining
    rintro _ ⟨⟩
    rw [remaining, List.length_cons] at few
    omega

end Machine

/-! ### Calling a predicate -/

/-- What is seen of an argument covers every term that the argument stands for. -/
theorem Exec.Sees.covers {admits : Functor → Prop}
    (kinds : ∀ functor, admits functor → 0 < functor.arity)
    {heap : Heap} (formed : heap.Formed admits 0) {address : Address} {pattern term : Term}
    (sees : Sees heap (some address) pattern) (ground : term.isGround = true) {θ : Valuation D}
    (solution : heap.Solution θ) {β : Var → D} (same : θ address = term.eval β) :
    pattern.covers term = true := by
  obtain ⟨found, here, seen⟩ := sees
  cases here
  obtain read | ⟨-, rfl⟩ := seen
  · have proper := VarNames.proper_reserving [] heap
    cases named : heap.extractNamed address {} with
    | mk result names =>
      rw [Heap.extract, named] at read
      simp only at read
      subst read
      have reads := Heap.reads_extractNamed kinds formed proper named
      obtain ⟨γ, stands⟩ := reads.proper.exists_stands θ
      have eq := reads.eq θ solution γ stands
      simp only [List.map_cons, List.map_nil, List.cons.injEq, and_true] at eq
      exact Term.covers_of_eval ground (eq.symm.trans same)
  · rfl

/-- The values of the first registers, entry by entry. -/
theorem Bank.map_range_values {bank : Bank} {count : Nat} (room : count ≤ bank.size)
    (θ : Valuation D) : (List.range count).map (bank.values θ) =
      (bank.extract 0 count).toList.map fun entry ↦ (entry.map θ).getD default := by
  refine List.ext_getElem? fun index ↦ ?_
  rw [List.getElem?_map, List.getElem?_map, @Array.getElem?_toList _ (bank.extract 0 count),
    Array.getElem?_extract]
  by_cases lower : index < count
  · rw [List.getElem?_range lower, if_pos (by omega), Nat.zero_add]
    have inside : index < bank.size := by omega
    simp only [Option.map_some, Bank.values, Array.getElem?_eq_getElem inside]
    cases (bank[index] : Option Address) <;> rfl
  · rw [List.getElem?_eq_none (by simpa using lower), if_neg (by omega)]
    rfl

/-- What is seen of arguments covers all terms that the arguments stand for. -/
theorem Exec.covers_of_sees {admits : Functor → Prop}
    (kinds : ∀ functor, admits functor → 0 < functor.arity) {heap : Heap}
    (formed : heap.Formed admits 0) {θ : Valuation D} (solution : heap.Solution θ) {β : Var → D}
    {entries : List (Option Address)} {patterns terms : List Term}
    (sees : List.Forall₂ (Sees heap) entries patterns)
    (same : (entries.map fun entry ↦ (entry.map θ).getD default) = terms.map (Term.eval β))
    (ground : ∀ term ∈ terms, term.isGround = true) :
    List.Forall₂ (fun pattern term ↦ pattern.covers term = true) patterns terms := by
  induction sees generalizing terms with
  | nil =>
    rw [List.map_nil, eq_comm, List.map_eq_nil_iff] at same
    subst same
    exact .nil
  | cons first _ ih =>
    rw [List.map_cons, eq_comm] at same
    obtain ⟨term, others, rfl, here, rest⟩ := List.map_eq_cons_iff.1 same
    obtain ⟨first_ground, others_ground⟩ := List.forall_mem_cons.1 ground
    obtain ⟨address, rfl, -⟩ := id first
    exact .cons (first.covers kinds formed first_ground solution here.symm)
      (ih rest.symm others_ground)

namespace Candidate

/-- Whether a search with a pattern keeps a candidate. -/
def keptBy (pattern : Term) : Candidate → Bool
  | .fact stored => pattern.covers stored.term
  | .clause _ => true

end Candidate

/-- A fact that is not kept has arguments that the goal's do not stand for. -/
theorem Exec.keptBy_of_values {admits : Functor → Prop}
    (kinds : ∀ functor, admits functor → 0 < functor.arity) {heap : Heap}
    (formed : heap.Formed admits 0) {θ : Valuation D} (solution : heap.Solution θ)
    {registers : Bank} {goal : Functor} (room : goal.arity ≤ registers.size) {args : List Term}
    (sees : List.Forall₂ (Sees heap) (registers.extract 0 goal.arity).toList args) {fact : Fact}
    (called : fact.functor = goal) (admitted : fact.term.AllFunctors admits)
    (same : (List.range goal.arity).map (registers.values θ) = fact.values) :
    Candidate.keptBy (Term.apply goal.symbol args) (.fact fact) = true := by
  change (Term.apply goal.symbol args).covers fact.term = true
  have count : args.length = goal.arity := by
    rw [← sees.length_eq]
    simpa using room
  by_cases none_args : goal.arity = 0
  · have empty : args = [] := List.length_eq_zero_iff.1 (count.trans none_args)
    have found := fact.functor?_term
    rw [called] at found
    subst empty
    cases term_eq : fact.term with
    | atom symbol =>
      rw [term_eq] at found
      cases found
      simp [Term.apply, Term.covers]
    | struct symbol inner =>
      rw [term_eq] at admitted
      have some_args := kinds _ (Term.allFunctors_struct.1 admitted).1
      have length := fact.length_args
      rw [called, none_args, Fact.args, term_eq] at length
      exact absurd length some_args.ne'
    | var | num =>
      rw [term_eq] at found
      cases found
  · have shape := fact.term_eq_struct (called ▸ none_args)
    have ground := fact.ground
    rw [shape] at ground
    have covered := covers_of_sees kinds formed solution sees
      ((Bank.map_range_values room θ).symm.trans same) fun _ member ↦
        Term.isGround_of_mem ground member
    cases args with
    | nil => exact absurd count.symm none_args
    | cons arg args =>
      rw [shape, called, Term.apply, Term.covers, Term.coversAll_iff.2 covered]
      simp

/-- No fact has more arguments than a functor can have. -/
theorem FactStore.Consistent.factsOf_eq_nil {store : FactStore} (consistent : store.Consistent)
    {goal : Functor} {args : List Term} (count : args.length = goal.arity)
    (unsearched : (Term.apply goal.symbol args).functor? = none) :
    (store.factsOf goal).toList = [] := by
  refine List.eq_nil_iff_forall_not_mem.2 fun fact member ↦ ?_
  have functor := consistent.functor goal fact (Array.mem_toList_iff.1 member)
  have few := Term.arity_le_of_functor? fact.functor?_term
  rw [functor, ← count] at few
  cases unsearched.symm.trans (Term.functor?_apply few)

/-- A search for the facts that could match keeps what it should, and all clauses. -/
theorem Context.filter_candidates (consistent : context.store.Consistent) {goal : Functor}
    {args : List Term} (count : args.length = goal.arity) :
    (context.candidates goal).filter (Candidate.keptBy (Term.apply goal.symbol args)) =
      (context.store.remaining { pattern := Term.apply goal.symbol args }).map Candidate.fact ++
        context.clausesFrom goal 0 := by
  have clauses : (context.clausesFrom goal 0).filter
      (Candidate.keptBy (Term.apply goal.symbol args)) = context.clausesFrom goal 0 := by
    rw [List.filter_eq_self]
    intro candidate member
    obtain ⟨id, -, made⟩ := List.mem_filterMap.1 member
    obtain ⟨compiled, -, rfl⟩ := Option.map_eq_some_iff.1 made
    rfl
  rw [candidates, List.filter_append, clauses, List.filter_map]
  congr 2
  cases found : (Term.apply goal.symbol args).functor? with
  | some functor =>
    have same : functor = goal := by rw [Term.eq_of_functor?_apply found, count]
    exact (same ▸ consistent.matching_eq found).symm
  | none =>
    have nothing : (context.store.remaining { pattern := Term.apply goal.symbol args }) = [] := by
      refine List.eq_nil_iff_forall_not_mem.2 fun fact member ↦ ?_
      obtain ⟨functor, searched, -⟩ := FactStore.mem_factsOf_of_mem_remaining member
      cases found.symm.trans searched
    rw [nothing, consistent.factsOf_eq_nil count found]
    rfl

namespace Machine

variable {machine later : Machine} {view : View} {rule : RuleId} {compiled : CompiledRule}
  {number : Nat} {frame : Frame} {point : Point} {layers : List Layer} {goal : Functor}

/-- A choice point keeps the argument registers. -/
theorem arguments_calling (machine : Machine) (room : goal.arity ≤ machine.registers.size)
    (pattern : Term) {index : Nat} (lower : index < goal.arity) :
    (machine.calling goal rule pattern).arguments[index]? = machine.registers[index]? := by
  rw [calling, Array.getElem?_extract, if_pos (by omega), Nat.zero_add]

/-- A predicate is called. -/
theorem advances_call (fits : machine.Fits trial view) (runs : trial.Runs context)
    (current : view.current = some ⟨point, layers⟩)
    (inside : machine.Inside trial view.frames rule compiled number frame point layers)
    (here : compiled.code[machine.counter]? = some (.call (.predicate goal))) {done : Unit}
    (ended : Exec.pushCall goal machine.begun = .ok done later) :
    ∃ waiting : List Layer,
      later.Fits trial ⟨view.frames, none, ⟨machine.memory, view.frames, waiting⟩ :: view.pauses⟩ ∧
      (trial.Sense context →
        Moves (trial.Exact D) context (view.stage D trial context machine.choices)
        (View.stage D trial context later.choices
          ⟨view.frames, none, ⟨machine.memory, view.frames, waiting⟩ :: view.pauses⟩)) := by
  obtain ⟨caller, args, running, room, sees, rfl⟩ := Exec.pushCall_eq_ok ended
  cases inside.running.symm.trans running
  obtain ⟨between, formed, holds⟩ := inside.arguments here
  have waits := inside.waits here
  have count : args.length = goal.arity := by
    rw [← sees.length_eq]
    simpa [begun] using room
  refine ⟨⟨compiled.code.toList.drop (machine.counter + 1), point.slots⟩ :: layers,
    ⟨fits.entry, fits.sizes, fits.frames, by simp, .cons
      ⟨rfl, rfl, fits.sizes.symm, formed, ?_, ?_, ⟨_, _, rfl⟩, waits, ?_, fits.inside⟩
        (.refl _) (.refl _)
      fits.backed, fits.inside⟩, fun sense ↦ ?_⟩
  · simpa [calling, begun] using room
  · intro index lower
    obtain ⟨address, held, below⟩ := holds index lower
    exact ⟨address, (arguments_calling machine.begun room _ lower).trans held, below⟩
  · rintro query ⟨⟩
    exact ⟨args, count, rfl⟩
  · rw [stage_of_current current, inside.instances_call here]
    have values (θ : Valuation D) : (List.range goal.arity).map (Bank.values machine.registers θ) =
        (List.range goal.arity).map
          (Bank.values (machine.begun.calling goal rule (Term.apply goal.symbol args)).arguments
            θ) := by
      refine List.map_congr_left fun index lower ↦ ?_
      unfold Bank.values
      rw [arguments_calling machine.begun room _ (List.mem_range.1 lower)]
      rfl
    refine .single (?_ : Move (trial.Exact D) context _ ⟨none, (_, (context.store.remaining
      { pattern := Term.apply goal.symbol args }).map Candidate.fact ++
        context.clausesFrom goal 0) ::
        _⟩)
    have set : Pause.instances (D := D) trial ⟨machine.memory, view.frames,
        ⟨compiled.code.toList.drop (machine.counter + 1), point.slots⟩ :: layers⟩
        (machine.begun.calling goal rule (Term.apply goal.symbol args)) =
        trial.instances (machine.memory.heap.Calls
          (fun θ ↦ (List.range goal.arity).map (Bank.values machine.registers θ)) (.predicate goal))
          (⟨compiled.code.toList.drop (machine.counter + 1), point.slots⟩ :: layers) := by
      rw [funext values]
      rfl
    rw [← Context.filter_candidates sense.consistent count, set]
    refine .call calls_instances _ fun exact candidate member dropped ↦ ?_
    refine Set.eq_empty_iff_forall_notMem.2 fun an answered ↦ ?_
    cases candidate with
    | clause => cases dropped
    | fact stored =>
      have listed := Context.mem_candidates_fact.1 member
      have called := sense.consistent.functor goal stored listed
      change an ∈ Instance.After _ _ at answered
      rw [called] at answered
      obtain ⟨θ, solution, same⟩ := exists_solution_of_after ⟨an, answered⟩
      rw [Exec.keptBy_of_values exact.kinds formed solution room sees called
        (runs.facts goal stored listed) same.symm] at dropped
      cases dropped

end Machine

end HornMachine
