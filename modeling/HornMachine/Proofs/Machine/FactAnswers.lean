import HornMachine.Proofs.Heap.Rigid
import HornMachine.Proofs.Machine.Moments

/-!
# Facts as answers to calls

Whether a fact answers a call depends on the memory and the arguments of the call only, and it
always comes out: the arguments of a fact are ground, so not even the occurs check on a cyclic heap
meets a fault. Main statements: unifying with a fact ends well (`exists_unifyFact`), and so does
trying an answer at any moment (`Fits.exists_tryAnswer`).
-/

namespace HornMachine

namespace Exec

variable {check : OccursCheck} {machine other later : Machine}

/-- What a unification does depends on the memory and the registers it reads. -/
theorem unifyArguments_congr {header : Address} {indices : List Nat} {success : Bool}
    (memory : other.memory = machine.memory)
    (registers : ∀ index ∈ indices, other.registers[index]? = machine.registers[index]?)
    (ended : unifyArguments check header indices machine = .ok success later) :
    unifyArguments check header indices other =
      .ok success { other with memory := later.memory } := by
  induction indices generalizing machine other with
  | nil =>
    cases ended
    rw [← memory]
    rfl
  | cons index indices ih =>
    obtain ⟨first, others⟩ := List.forall_mem_cons.1 registers
    obtain ⟨address, middle, read, rest⟩ := bind_eq_ok.1 ended
    obtain ⟨here, rfl⟩ := register_eq_ok.1 read
    obtain ⟨unified, next, one, rest⟩ := bind_eq_ok.1 rest
    obtain ⟨last, run, rfl⟩ := onMemory_eq_ok.1 one
    refine bind_eq_ok.2 ⟨address, other, register_eq_ok.2 ⟨first.trans here, rfl⟩, ?_⟩
    refine bind_eq_ok.2 ⟨unified, { other with memory := last },
      onMemory_eq_ok.2 ⟨last, memory ▸ run, rfl⟩, ?_⟩
    cases unified with
    | true =>
      have held : ∀ index ∈ indices, ({ other with memory := last } : Machine).registers[index]? =
          ({ middle with memory := last } : Machine).registers[index]? := others
      exact ih (by rfl) held rest
    | false =>
      cases rest
      rfl

/-- Whether a fact answers a call depends on the memory and the arguments. -/
theorem unifyFact_congr {goal : Functor} {fact : Fact} {success : Bool}
    (memory : other.memory = machine.memory)
    (registers : ∀ index < goal.arity, other.registers[index]? = machine.registers[index]?)
    (ended : unifyFact check goal fact machine = .ok success later) :
    unifyFact check goal fact other = .ok success { other with memory := later.memory } := by
  by_cases none_args : goal.arity = 0
  · rw [unifyFact, if_pos none_args] at ended ⊢
    cases ended
    rw [← memory]
    rfl
  rw [unifyFact, if_neg none_args] at ended ⊢
  obtain ⟨address, middle, loaded, rest⟩ := bind_eq_ok.1 ended
  obtain ⟨heap, run, rfl⟩ := onMemory_eq_ok.1 loaded
  obtain ⟨⟨found, shown⟩, middle, read, rest⟩ := bind_eq_ok.1 rest
  obtain ⟨looked, rfl⟩ := value_eq_ok.1 read
  refine bind_eq_ok.2 ⟨address, { other with memory := heap },
    onMemory_eq_ok.2 ⟨heap, memory ▸ run, rfl⟩, ?_⟩
  refine bind_eq_ok.2 ⟨(found, shown), _, value_eq_ok.2 ⟨looked, rfl⟩, ?_⟩
  cases shown with
  | compound functor header =>
    simp only at rest ⊢
    split at rest
    · next same =>
      rw [if_pos same]
      have held : ∀ index ∈ List.range goal.arity,
          ({ other with memory := heap } : Machine).registers[index]? =
            ({ machine with memory := heap } : Machine).registers[index]? :=
        fun index member ↦ registers index (List.mem_range.1 member)
      exact unifyArguments_congr (by rfl) held rest
    · next differ =>
      rw [if_neg differ]
      cases rest
      rfl
  | unbound | atom | num =>
    cases rest
    rfl

/-- A clause is taken or there is none. -/
theorem exists_takeClause (context : Context) (choice : Choice) (position : Nat)
    (machine : Machine) :
    ∃ taken later, takeClause context choice position machine = .ok taken later := by
  unfold takeClause
  cases (context.program.clauses choice.goal)[position]? with
  | none => exact ⟨false, _, rfl⟩
  | some rule =>
    simp only
    split <;> exact ⟨true, _, rfl⟩

variable {admits : Functor → Prop} (formed : machine.memory.heap.Formed admits 0)

include formed

/-- Arguments of which one side is ground come to an answer. -/
theorem exists_unifyArguments {header : Address} {indices : List Nat}
    (held : ∀ index ∈ indices, Heap.argument header index < machine.memory.heap.size ∧
      machine.memory.heap.Rigid (Heap.argument header index) ∧
      ∃ address : Nat, machine.registers[index]? = some (some address) ∧
        address < machine.memory.heap.size) :
    ∃ success later, unifyArguments check header indices machine = .ok success later := by
  induction indices generalizing machine with
  | nil => exact ⟨true, machine, rfl⟩
  | cons index indices ih =>
    obtain ⟨⟨below, rigid, address, here, inside⟩, rest⟩ := List.forall_mem_cons.1 held
    obtain ⟨unified, memory, run⟩ : ∃ unified memory, machine.memory.unify check address
        (Heap.argument header index) = (.ok unified, memory) :=
      Memory.exists_unify_of_rigid formed inside below rigid
    have read : register index machine = .ok address machine := register_eq_ok.2 ⟨here, rfl⟩
    have first : unify check address (Heap.argument header index) machine =
        .ok unified { machine with memory } := onMemory_eq_ok.2 ⟨memory, run, rfl⟩
    have binds := Memory.binds_unify run
    rw [unifyArguments, bind_apply, read]
    dsimp only
    rw [bind_apply, first]
    cases unified with
    | false => exact ⟨false, _, rfl⟩
    | true =>
      refine ih (binds.formed formed) fun other member ↦ ?_
      obtain ⟨argument, still, register⟩ := rest other member
      have size : memory.heap.size = machine.memory.heap.size := binds.rebinds.size
      exact ⟨size ▸ argument, still.mono fun θ solution ↦
        ((Memory.solution_unify run θ).1 solution).1, size ▸ register⟩

/-- Unifying with a fact of the functor called comes to an answer. -/
theorem exists_unifyFact {goal : Functor} {fact : Fact} (called : fact.functor = goal)
    (kinds : fact.term.AllFunctors admits)
    (holds : Point.Holds machine.registers {index | index < goal.arity} machine.memory.heap.size) :
    ∃ success later, unifyFact check goal fact machine = .ok success later := by
  by_cases none_args : goal.arity = 0
  · exact ⟨true, machine, by rw [unifyFact, if_pos none_args]; rfl⟩
  obtain ⟨address, heap, loaded⟩ := machine.memory.heap.exists_loadAlone fact.fits
  obtain ⟨heap_formed, grown, inside, -⟩ :=
    Memory.narrows_loadAlone Tree formed fact.ground kinds loaded
  obtain ⟨read, stands⟩ := value_fact (D := Tree) formed kinds called none_args loaded
  let next : Machine := { machine with memory := { machine.memory with heap } }
  have held (index : Nat) (member : index ∈ List.range goal.arity) :
      Heap.argument (address + 1) index < heap.size ∧
        heap.Rigid (Heap.argument (address + 1) index) ∧
        ∃ register : Nat, machine.registers[index]? = some (some register) ∧
          register < heap.size := by
    have lower := List.mem_range.1 member
    obtain ⟨register, here, below⟩ := holds index lower
    have among : Heap.argument (address + 1) index ∈ Heap.arguments goal (address + 1) :=
      Heap.mem_arguments lower
    have inner : index < fact.args.length := by rw [fact.length_args, called]; exact lower
    refine ⟨heap_formed.argument_lt read among, ⟨fact.args[index], fun θ solution ↦ ?_⟩,
      register, here, Nat.lt_of_lt_of_le below grown.heap⟩
    have same := congrArg (fun values ↦ values[index]?) (stands θ solution)
    simp only [Heap.arguments, Fact.values, List.map_map, List.getElem?_map,
      List.getElem?_range lower,
      List.getElem?_eq_getElem inner, Option.map_some, Option.some.injEq,
        Function.comp_apply] at same
    rw [same]
    exact Term.eval_of_isGround (Term.isGround_of_mem_args fact.ground (List.getElem_mem inner)) _ _
  obtain ⟨success, later, unified⟩ : ∃ success later,
      unifyArguments check (address + 1) (List.range goal.arity) next = .ok success later :=
    exists_unifyArguments heap_formed held
  refine ⟨success, later, ?_⟩
  rw [unifyFact, if_neg none_args]
  refine bind_eq_ok.2 ⟨address, next, onMemory_eq_ok.2 ⟨_, by rw [loaded], rfl⟩, ?_⟩
  refine bind_eq_ok.2 ⟨_, _, value_eq_ok.2 ⟨read, rfl⟩, ?_⟩
  dsimp only
  rw [if_pos rfl]
  exact unified

end Exec

namespace Moment

/-- Trying an answer ends well. -/
theorem Fits.exists_tryAnswer {trial : Trial} {context earlier : Context} {machine : Machine}
    {count : Nat} {origins : List Machine} {view : Machine.View}
    (fits : Fits trial earlier ⟨machine, some count, origins⟩ view) (runs : trial.Runs context)
    (consistent : context.store.Consistent) :
    ∃ finding later, Exec.tryAnswer context count machine = .ok finding later := by
  obtain ⟨-, choice, older, stack, -⟩ := fits.seeking _ rfl
  obtain ⟨pause, pauses, -, back⟩ := fits.machine.goesBack stack
  have room := fits.room choice (stack ▸ List.mem_cons_self)
  have same : (machine.restored choice).choices = choice :: older := stack
  simp only [Exec.tryAnswer, bind_apply, Exec.restore_of_le stack back.trail, get_apply, same]
  cases ahead : context.upcoming choice count with
  | none =>
    simp only
    obtain ⟨taken, later, ended⟩ :=
      Exec.exists_takeClause context choice choice.position (machine.restored choice)
    rw [bind_apply, ended]
    cases taken <;> exact ⟨_, _, rfl⟩
  | some found =>
    obtain ⟨fact, query⟩ := found
    obtain ⟨asked, fewer, alternative, rfl, next⟩ := Context.upcoming_eq_some ahead
    obtain ⟨functor, searched, stored⟩ := FactStore.mem_factsOf_of_next next
    have called : fact.functor = choice.goal := by
      rw [consistent.functor functor fact stored]
      exact back.marks.functor_eq alternative searched
    have memory : (machine.noting choice older query).memory = pause.memory := back.memory
    obtain ⟨success, later, unified⟩ : ∃ success later,
      Exec.unifyFact context.occursCheck choice.goal fact
        (machine.noting choice older query) = .ok success later :=
      Exec.exists_unifyFact (memory ▸ back.marks.formed) called (runs.facts functor fact stored)
        (memory ▸ back.marks.holds_restored room)
    have noted : Exec.setAlternative (.facts query) (machine.restored choice) =
        .ok ⟨⟩ (machine.noting choice older query) := by
      rw [Exec.setAlternative, modify_apply, same]
      rfl
    simp only [bind_apply, noted, unified]
    cases success with
    | true =>
      simp only [if_true, bind_apply, Exec.continueAfter_apply]
      exact ⟨_, _, rfl⟩
    | false => exact ⟨_, _, rfl⟩

end Moment
end HornMachine
