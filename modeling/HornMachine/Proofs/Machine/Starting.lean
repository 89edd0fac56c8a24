import HornMachine.Proofs.Machine.Moments

/-!
# Starting an attempt

An attempt begins with the arguments of its goal on the heap, or with new variables. Main statement:
a machine that was started has before it the instances of its rule whose arguments are those of the
goal, and nothing else.
-/

namespace HornMachine

open Code (Meaning Disciplined Shape Total)
open Heap (Loading)
open Heap.Loading (Loads Assigns Sound loadsTerm sound_of_formed meets_empty)

variable {D : Type} [Domain D] {admits : Functor → Prop} {context : Context}

/-- The instances of a rule that is attempted: its goals, its arguments and its variables, where the
arguments are those of an instance of the goal. -/
def CompiledRule.attempts (D : Type) [Domain D] (compiled : CompiledRule) (goal : Option Term) :
    Set (Instance D) :=
  {an | ∃ η ρ, Meaning η compiled.body ρ [] an.goals ∧
    an.head = (List.range compiled.head.arity).map ρ ∧
    an.values = (List.range compiled.frameSize).map η ∧
    ∀ term ∈ goal, ∃ β, an.head = term.args.map (Term.eval β)}

/-! ### Arguments -/

namespace Machine

/-- Terms are loaded one after another, and the trail is kept. -/
theorem mapM_of_loadAll {terms : List Term} {memory later : Memory} {vars : Std.HashMap Var Address}
    {addresses : List Address} (ended : loadAll memory terms vars = (.ok addresses, later)) :
    ∃ more, terms.mapM Heap.Load.load { heap := memory.heap, vars } =
      .ok addresses { heap := later.heap, vars := more } ∧ later.trail = memory.trail := by
  induction terms generalizing memory vars addresses with
  | nil =>
    cases ended
    exact ⟨vars, rfl, rfl⟩
  | cons term terms ih =>
    rw [loadAll, Heap.load] at ended
    cases loaded : (Heap.Load.load term).run { heap := memory.heap, vars } with
    | error fault state => simp [loaded] at ended
    | ok address state =>
      simp only [loaded] at ended
      cases rest : loadAll { memory with heap := state.heap } terms state.vars with
      | mk result last =>
        simp only [rest, Prod.mk.injEq] at ended
        obtain ⟨mapped, rfl⟩ := ended
        cases result with
        | error fault => simp [Except.map] at mapped
        | ok others =>
          simp only [Except.map, Except.ok.injEq] at mapped
          subst mapped
          obtain ⟨more, run, trail⟩ := ih rest
          refine ⟨more, ?_, trail⟩
          rw [List.mapM_cons]
          exact bind_eq_ok.2 ⟨address, state, loaded, bind_eq_ok.2 ⟨others, _, run, rfl⟩⟩

/-- Loading terms that share variables. -/
theorem loads_loadAll {terms : List Term} {memory later : Memory} {vars : Std.HashMap Var Address}
    {addresses : List Address} (kinds : ∀ term ∈ terms, term.AllFunctors admits)
    (sound : Sound admits ∅ { heap := memory.heap, vars })
    (ended : loadAll memory terms vars = (.ok addresses, later)) :
    ∃ more, Loads D admits ∅ ∅ { heap := memory.heap, vars } { heap := later.heap, vars := more }
        (fun _ _ ↦ True) (fun θ β ↦ addresses.map θ = terms.map (Term.eval β)) ∧
      (∀ address ∈ addresses, address < later.heap.size) ∧ later.trail = memory.trail := by
  obtain ⟨more, run, trail⟩ := mapM_of_loadAll ended
  obtain ⟨loads, inside⟩ := Heap.Loading.loads_mapM (D := D) kinds sound run
  exact ⟨more, loads, inside, trail⟩

end Machine

variable (D admits) in
/-- New variables are added one after another. -/
theorem Exec.pushVars_eq_ok {indices : List Nat} {machine later : Machine} {found : List Address}
    (ended : (indices.mapM fun _ ↦ pushVar) machine = .ok found later) :
    ∃ heap, later = { machine with memory := { machine.memory with heap } } ∧
      found = addresses machine.memory.heap.size indices.length ∧
      heap.size = machine.memory.heap.size + indices.length ∧
      (machine.memory.heap.Formed admits 0 → heap.Formed admits 0) ∧
      ∀ θ : Valuation D, heap.Solution θ ↔ machine.memory.heap.Solution θ := by
  induction indices generalizing machine found with
  | nil =>
    cases ended
    exact ⟨_, rfl, rfl, rfl, id, fun _ ↦ Iff.rfl⟩
  | cons index indices ih =>
    rw [List.mapM_cons] at ended
    obtain ⟨address, middle, first, rest⟩ := bind_eq_ok.1 ended
    obtain ⟨rfl, rfl⟩ := extend_eq_ok.1 first
    obtain ⟨others, last, second, rest⟩ := bind_eq_ok.1 rest
    cases rest
    obtain ⟨heap, rfl, rfl, size, formed, solution⟩ := ih second
    refine ⟨heap, rfl, ?_, ?_, fun sound ↦ formed sound.pushVar, fun θ ↦ ?_⟩
    · rw [List.length_cons, addresses_succ, Heap.size_pushVar]
    · rw [size, Heap.size_pushVar, List.length_cons]
      omega
    · rw [solution, Heap.solution_pushVar]

namespace Machine

variable {machine later : Machine}

/-- The arguments of an attempt are on the heap: what they can stand for is what the goal can. -/
structure Entered (D : Type) [Domain D] (admits : Functor → Prop) (arity : Nat) (goal : Option Term)
    (arguments : List Address) (heap : Heap) : Prop where
  formed : heap.Formed admits 0
  inside : ∀ address ∈ arguments, address < heap.size
  length : arguments.length = arity
  back : ∀ θ : Valuation D, heap.Solution θ →
    ∀ term ∈ goal, ∃ β, arguments.map θ = term.args.map (Term.eval β)
  forth : ∀ values : List D, values.length = arity →
    (∀ term ∈ goal, ∃ β, values = term.args.map (Term.eval β)) →
    ∃ θ : Valuation D, heap.Solution θ ∧ arguments.map θ = values

/-- Adding the arguments changes the memory alone. -/
theorem enterArguments_eq_ok {arity : Nat} {goal : Option Term} {arguments : List Address}
    (ended : enterArguments arity goal machine = .ok arguments later) :
    ∃ memory, later = { machine with memory } := by
  cases goal with
  | none =>
    obtain ⟨heap, rfl, -⟩ := Exec.pushVars_eq_ok Term (fun _ ↦ True) ended
    exact ⟨_, rfl⟩
  | some term =>
    rw [enterArguments] at ended
    obtain ⟨memory, -, rfl⟩ := Exec.onMemory_eq_ok.1 ended
    exact ⟨memory, rfl⟩

theorem entered_of_enterArguments {head : Functor} {goal : Option Term}
    (kinds : ∀ term ∈ goal, term.AllFunctors admits) (fits : goal.all (fitsHead head) = true)
    {arguments : List Address} (blank : machine.memory = {})
    (ended : enterArguments head.arity goal machine = .ok arguments later) :
    Entered D admits head.arity goal arguments later.memory.heap := by
  cases goal with
  | none =>
    obtain ⟨heap, rfl, rfl, size, formed, solution⟩ :=
      Exec.pushVars_eq_ok D admits ended
    rw [blank] at size formed solution
    simp only [List.length_range] at size ⊢
    refine ⟨formed .empty, ?_, by simp [addresses], by simp, fun values length _ ↦ ?_⟩
    · simp only [addresses, List.mem_map, List.mem_range, blank]
      rintro _ ⟨index, lower, rfl⟩
      rw [size]
      exact Nat.add_lt_add_left lower _
    · refine ⟨fun address ↦ values.getD address default, (solution _).2 ?_, ?_⟩
      · intro address cell here
        simp at here
      · refine List.ext_getElem (by simp [addresses, length]) fun index _ lower ↦ ?_
        simp [addresses, blank, Heap.size, lower]
  | some term =>
    rw [enterArguments] at ended
    obtain ⟨memory, loaded, rfl⟩ := Exec.onMemory_eq_ok.1 ended
    have count : term.args.length = head.arity := by
      simp only [Option.all_some, fitsHead, Bool.and_eq_true, decide_eq_true_eq] at fits
      exact fits.1.1
    have term_kinds := kinds term rfl
    rw [blank] at loaded
    obtain ⟨vars, loads, inside, -⟩ := loads_loadAll (D := D)
      (fun arg member ↦ term_kinds.of_mem_args member) (sound_of_formed .empty (by simp)) loaded
    have length : arguments.length = term.args.length := by
      have nothing : Heap.Loading.Meets ∅ ({} : Heap) (default : Valuation D) := by
        intro address cell here
        simp at here
      obtain ⟨θ, -, meets, assigns⟩ := loads.forth default default nothing
        (fun v address known ↦ by simp at known) trivial
      simpa using congrArg List.length ((loads.back θ meets).2 default assigns)
    refine ⟨loads.sound.formed, inside, length.trans count, ?_, ?_⟩
    · rintro θ solution _ ⟨⟩
      obtain ⟨β, assigns⟩ := Heap.Loading.exists_assigns vars θ
      exact ⟨β, (loads.back θ (meets_empty.2 solution)).2 β assigns⟩
    · intro values _ instances
      obtain ⟨β, rfl⟩ := instances term rfl
      obtain ⟨θ, -, meets, assigns⟩ :=
        loads.forth default β (fun address cell here ↦ by simp at here)
        (fun v address known ↦ by simp at known) trivial
      exact ⟨θ, meets_empty.1 meets, (loads.back θ meets).2 β assigns⟩

private theorem setArguments_eq_ok {index : Nat} {arguments : List Address} {done : Unit}
    (ended : setArguments index arguments machine = .ok done later) :
    ∃ registers, later = { machine with registers } ∧ registers.size = machine.registers.size ∧
      (∀ other < index, registers[other]? = machine.registers[other]?) ∧
      ∀ (position : Nat) (address : Address), arguments[position]? = some address →
        registers[index + position]? = some (some address) := by
  induction arguments generalizing index machine with
  | nil =>
    cases ended
    exact ⟨_, rfl, rfl, fun _ _ ↦ rfl, by simp⟩
  | cons address arguments ih =>
    obtain ⟨_, middle, first, rest⟩ := bind_eq_ok.1 ended
    obtain ⟨room, rfl⟩ := Exec.setRegister_eq_ok.1 first
    obtain ⟨registers, rfl, size, kept, held⟩ := ih rest
    refine ⟨registers, rfl, by simpa [Bank.fill] using size, fun other lower ↦ ?_,
      fun position found here ↦ ?_⟩
    · rw [kept other (by omega), Bank.getElem?_fill room, if_neg (by omega)]
    · cases position with
      | zero =>
        cases here
        rw [Nat.add_zero, kept index (by omega), Bank.getElem?_fill room, if_pos rfl]
      | succ position =>
        rw [List.getElem?_cons_succ] at here
        rw [← held position found here]
        congr 1
        omega

theorem Run.ofExec_eq_ok {α : Type} {exec : Exec α} {value : α} :
    Run.ofExec exec machine = .ok value later ↔ exec machine = .ok value later := by
  unfold Run.ofExec
  cases exec machine <;> simp

/-- How an attempt of a rule starts. -/
theorem start_eq_ok {rule : RuleId} {compiled : CompiledRule} {goal : Option Term} {done : Unit}
    (found : context.program.rule? rule = some compiled)
    (ended : start context rule goal machine = .ok done later) :
    (goal.all (fitsHead compiled.head) = false ∧
      later = { machine.reset with rule := some rule, status := .failed }) ∨
    goal.all (fitsHead compiled.head) = true ∧ ∃ arguments memory registers,
      enterArguments compiled.head.arity goal { machine.reset with rule := some rule } =
        .ok arguments { machine.reset with rule := some rule, memory } ∧
      (∀ (position : Nat) (address : Address), arguments[position]? = some address →
        registers[position]? = some (some address)) ∧
      later = { machine.reset with
        rule := some rule
        memory
        registers
        entry := some ⟨rule, compiled.head, arguments⟩
        status := .running } := by
  simp only [start, found, bind_apply, modify_apply, enter, get_apply] at ended
  by_cases room : compiled.head.arity > machine.reset.registers.size
  · rw [if_pos room] at ended
    cases ended
  rw [if_neg room] at ended
  cases fits : goal.all (fitsHead compiled.head) with
  | false =>
    simp only [fits, Bool.false_eq_true, if_false, modify_apply] at ended
    cases ended
    exact .inl ⟨rfl, rfl⟩
  | true =>
    simp only [fits, if_true] at ended
    obtain ⟨arguments, entering, entered, rest⟩ := bind_eq_ok.1 ended
    have entered := Run.ofExec_eq_ok.1 entered
    obtain ⟨memory, rfl⟩ := enterArguments_eq_ok entered
    obtain ⟨_, setting, stored, rest⟩ := bind_eq_ok.1 rest
    obtain ⟨registers, rfl, -, -, held⟩ := setArguments_eq_ok (Run.ofExec_eq_ok.1 stored)
    cases rest
    exact .inr ⟨rfl, arguments, memory, registers, entered, fun position address here ↦ by
      simpa using held position address here, rfl⟩

end Machine

/-- An attempt of a rule. -/
def Trial.attempting (program : Program) (admits : Functor → Prop) (rule : RuleId)
    (compiled : CompiledRule) (arguments : List Address) : Trial where
  program := program
  admits := admits
  entry := ⟨rule, compiled.head, arguments⟩
  compiled := compiled

/-- The instances of a rule that is about to open its frame, with the arguments of the attempt. -/
theorem instances_attempting {program : Program} (rule : RuleId) {compiled : CompiledRule}
    {arguments : List Address} {goal : Option Term} {memory : Memory} {registers : Bank}
    (mode : Mode) (disciplined : Disciplined (program.shape admits) compiled.frameSize compiled.body
      {index | index < compiled.head.arity} ∅ false 0)
    (entered : Machine.Entered D admits compiled.head.arity goal arguments memory.heap)
    (held : ∀ (position : Nat) (address : Address), arguments[position]? = some address →
      registers[position]? = some (some address)) :
    Situation.instances (Trial.attempting program admits rule compiled arguments)
      ⟨⟨memory, compiled.body, registers, Array.replicate compiled.frameSize none, mode, 0⟩, []⟩ =
      compiled.attempts D goal := by
  have values (θ : Valuation D) :
      arguments.map θ = (List.range compiled.head.arity).map (registers.values θ) := by
    refine List.ext_getElem (by simp [entered.length]) fun index lower _ ↦ ?_
    rw [List.length_map] at lower
    rw [List.getElem_map, List.getElem_map, List.getElem_range,
      Bank.values_of_getElem? (held index arguments[index] (List.getElem?_eq_getElem lower))]
  ext an
  constructor
  · rintro ⟨θ, η, first, others, own, said, ⟨rfl, rfl⟩, rfl⟩
    obtain ⟨solution, -, meaning⟩ := (Point.says_between rfl).1 said
    rw [List.append_nil]
    exact ⟨own, _, meaning, values θ, rfl, entered.back θ solution⟩
  · obtain ⟨goals, head, own⟩ := an
    rintro ⟨η, ρ, meaning, rfl, rfl, instances⟩
    obtain ⟨θ, solution, same⟩ := entered.forth _ (by simp) instances
    refine ⟨θ, η, goals, [], η, (Point.says_between rfl).2 ⟨solution, ?_, ?_⟩, ⟨rfl, rfl⟩, ?_⟩
    · intro index address here
      simp [Array.getElem?_replicate] at here
    · rw [values θ] at same
      refine meaning.congr disciplined fun index lower ↦ ?_
      exact (List.map_inj_left.1 same index (List.mem_range.2 lower)).symm
    · rw [List.append_nil]
      exact congrArg (Instance.mk goals · _) same.symm

namespace Machine

variable {machine later : Machine}

/-- A machine that was started has no solution to hand out. -/
theorem unsolved_start {rule : RuleId} {goal : Option Term} {done : Unit}
    (ended : start context rule goal machine = .ok done later) : later.status ≠ .succeeded := by
  obtain ⟨compiled, found⟩ := exists_rule_of_start ended
  obtain ⟨-, rfl⟩ | ⟨-, arguments, memory, registers, -, -, rfl⟩ := start_eq_ok found ended <;> simp

/-- A machine that was started has the instances of its rule before it. -/
theorem fits_start (lawful : context.program.Lawful admits) {rule : RuleId}
    {compiled : CompiledRule}
    {goal : Option Term} {done : Unit} (found : context.program.rule? rule = some compiled)
    (kinds : ∀ term ∈ goal, term.AllFunctors admits)
    (ended : start context rule goal machine = .ok done later)
    (fits : goal.all (fitsHead compiled.head) = true) :
    ∃ arguments view, Moment.Fits (.attempting context.program admits rule compiled arguments)
      context
        ⟨later, none, []⟩ view ∧
      ∀ (D : Type) [Domain D],
        view.stage D (.attempting context.program admits rule compiled arguments)
        context later.choices = ⟨some (compiled.attempts D goal), []⟩ := by
  obtain ⟨unfit, -⟩ | ⟨-, arguments, memory, registers, entered, held, rfl⟩ :=
    start_eq_ok found ended
  · rw [fits] at unfit
    cases unfit
  have entered (D : Type) [Domain D] := entered_of_enterArguments (D := D) kinds fits rfl entered
  refine ⟨arguments, ⟨#[], some ⟨⟨memory, compiled.body, registers,
    Array.replicate compiled.frameSize none, .write, 0⟩, []⟩, []⟩, ⟨⟨rfl, rfl, .refl _, ?_, .nil,
      (entered Term).inside⟩, by simp, nofun, by simp [reset], by simp, .nil⟩, fun D _ ↦ ?_⟩
  · rintro _ ⟨⟩
    refine .entering rfl found rfl (entered Term).formed (fun index lower ↦ ?_) .halt
    have inside : index < arguments.length := (entered Term).length ▸ lower
    exact ⟨arguments[index], held index _ (List.getElem?_eq_getElem inside),
      (entered Term).inside _ (List.getElem_mem inside)⟩
  · have instances := instances_attempting rule .write (lawful.disciplined found) (entered D) held
    simp only [View.stage, Option.map_some, instances]
    rfl

end Machine

end HornMachine
