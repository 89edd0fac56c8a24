import HornMachine.Proofs.Heap.Reading
import HornMachine.Proofs.Machine.Preservation

/-!
# Calls and their answers

A call waits with the code after it. What is left of its instances once it is answered, by a
builtin, by a fact or by a clause, is what the point says that the machine goes on at. Main
statements: a call of a builtin narrows the instances to those that pass, or it gives the branch up;
and for each kind of answer, the instances after it are those that it answers.
-/

namespace HornMachine

open Code (Meaning Disciplined Shape Total)

variable {D : Type} [Domain D] {trial : Trial} {context : Context}

/-! ### What a call says -/

/-- A valuation of a heap, with the call of a target. -/
def Heap.Calls (heap : Heap) (arguments : Valuation D → List D) (target : Target) (θ : Valuation D)
    (_ : Nat → D) (goals : List (Task D)) : Prop :=
  heap.Solution θ ∧ goals = [.call (arguments θ) target]

/-- A call in front of a point is a call for which the rest of the code waits. -/
theorem instances_call {point : Point} {layers : List Layer} {target : Target} {code : Code}
    (front : point.code = .call target :: code) (between : point.missing = 0) :
    Situation.instances (D := D) trial ⟨point, layers⟩ =
      trial.instances (point.memory.heap.Calls
        (fun θ ↦ (List.range target.arity).map (point.registers.values θ)) target)
        (⟨code, point.slots⟩ :: layers) := by
  ext an
  constructor
  · rintro ⟨θ, η, first, others, values, said, rest, rfl⟩
    obtain ⟨solution, agrees, meaning⟩ := (Point.says_between between).1 said
    rw [front] at meaning
    obtain ⟨later, rfl, ρ, meaning⟩ := meaning
    exact ⟨θ, η, _, later ++ others, values, ⟨solution, rfl⟩,
      ⟨η, ρ, later, others, agrees, meaning, rest, rfl⟩, rfl⟩
  · rintro ⟨θ, ζ, first, others, values, ⟨solution, rfl⟩,
      ⟨η, ρ, later, rest_goals, agrees, meaning, rest, rfl⟩, rfl⟩
    refine ⟨θ, η, _ :: later, rest_goals, values, (Point.says_between between).2
      ⟨solution, agrees, ?_⟩, rest, rfl⟩
    rw [front]
    exact ⟨later, rfl, ρ, meaning⟩

/-- The instances once a call is answered without a clause. -/
theorem instances_answer {memory later : Memory} {arguments : Valuation D → List D}
    (target : Target) {layer : Layer} {older : List Layer} (registers : Bank) (mode : Mode)
    (condition : List D → Prop)
    (narrows : memory.Narrows trial.admits later fun θ ↦ condition (arguments θ))
    (bounded : ∀ one ∈ layer :: older, Bank.Bounded one.slots memory.heap.size)
    (inside : ∀ address ∈ trial.entry.arguments, address < memory.heap.size)
    (disciplined : Disciplined trial.shape (Array.size layer.slots) layer.code ∅
      (Bank.filled layer.slots) false 0) :
    Situation.instances (D := D) trial ⟨⟨later, layer.code, registers, layer.slots, mode, 0⟩,
      older⟩ =
      {an | ∃ args, condition args ∧ an ∈ Instance.After
        (trial.instances (memory.heap.Calls arguments target) (layer :: older))
        (.call args target)} := by
  obtain ⟨own_bounded, others_bounded⟩ := List.forall_mem_cons.1 bounded
  ext an
  constructor
  · rintro ⟨θ, η, first, others, values, said, rest, rfl⟩
    obtain ⟨solution, agrees, meaning⟩ := (Point.says_between rfl).1 said
    obtain ⟨solution, holds⟩ := narrows.back θ solution
    exact ⟨arguments θ, holds, θ, η, _, first ++ others, values, ⟨solution, rfl⟩,
      ⟨η, _, first, others, agrees, meaning, rest, rfl⟩, rfl⟩
  · rintro ⟨args, holds, θ, ζ, first, others, values, ⟨solution, rfl⟩,
      ⟨η, ρ, tasks, rest_goals, agrees, meaning, rest, rfl⟩, same⟩
    obtain ⟨goals, head, own_values⟩ := an
    simp only [Instance.mk.injEq, List.cons_append, List.nil_append, List.cons.injEq,
      Task.call.injEq, and_true] at same
    obtain ⟨⟨rfl, rfl⟩, rfl, rfl⟩ := same
    obtain ⟨θ', kept, solution⟩ := narrows.forth θ solution holds
    refine ⟨θ', η, tasks, rest_goals, values, (Point.says_between rfl).2 ⟨solution,
      agrees.congr own_bounded kept, meaning.congr disciplined (by simp [Code.Alike])⟩,
      rest.congr others_bounded kept, ?_⟩
    rw [List.map_congr_left fun address member ↦ kept address (inside address member)]

/-- The instances once a clause is entered. -/
theorem instances_enter (memory : Memory) {arguments : Valuation D → List D}
    {compiled : CompiledRule} (layer : Layer) (older : List Layer) {registers : Bank} (mode : Mode)
    (entered : ∀ θ : Valuation D,
      (List.range compiled.head.arity).map (registers.values θ) = arguments θ)
    (disciplined : Disciplined trial.shape compiled.frameSize compiled.body
      {index | index < compiled.head.arity} ∅ false 0) :
    Situation.instances (D := D) trial ⟨⟨memory, compiled.body, registers,
        Array.replicate compiled.frameSize none, mode, 0⟩, layer :: older⟩ =
      (Candidate.clause compiled).answers (trial.instances
        (memory.heap.Calls arguments (.predicate compiled.head)) (layer :: older)) := by
  ext an
  constructor
  · rintro ⟨θ, η, first, others, values, said, rest, rfl⟩
    obtain ⟨solution, -, meaning⟩ := (Point.says_between rfl).1 said
    refine ⟨η, _, first, others, meaning, rfl, θ, η, _, others, values, ⟨solution, rfl⟩, rest, ?_⟩
    rw [← entered θ]
    rfl
  · rintro ⟨η, ρ, first, others, meaning, goals, θ, ζ, called, waiting, values, ⟨solution, rfl⟩,
      rest, same⟩
    obtain ⟨all, head, own_values⟩ := an
    simp only [Instance.mk.injEq, List.cons_append, List.nil_append, List.cons.injEq,
      Task.call.injEq, and_true] at same goals
    obtain ⟨⟨same, rfl⟩, rfl, rfl⟩ := same
    subst goals
    refine ⟨θ, η, first, others, values, (Point.says_between rfl).2 ⟨solution, ?_, ?_⟩, rest, rfl⟩
    · intro index address held
      simp [Array.getElem?_replicate] at held
    · rw [← entered θ] at same
      refine meaning.congr disciplined fun index lower ↦ ?_
      exact List.map_inj_left.1 same index (List.mem_range.2 lower)

theorem calls_instances {heap : Heap} {arguments : Valuation D → List D} {target : Target}
    {layers : List Layer} :
    Instance.Calls (trial.instances (heap.Calls arguments target) layers) target := by
  rintro an ⟨θ, η, first, others, values, ⟨-, rfl⟩, -, rfl⟩
  exact ⟨arguments θ, others, rfl⟩

/-- What is called is called of the values of a solution. -/
theorem exists_solution_of_after {heap : Heap} {arguments : Valuation D → List D} {target : Target}
    {layers : List Layer} {args : List D}
    (called : (Instance.After (trial.instances (heap.Calls arguments target) layers)
      (.call args target)).Nonempty) : ∃ θ, heap.Solution θ ∧ args = arguments θ := by
  obtain ⟨an, θ, η, first, others, values, ⟨solution, rfl⟩, -, same⟩ := called
  simp only [Instance.mk.injEq, List.cons_append, List.nil_append, List.cons.injEq,
    Task.call.injEq, and_true] at same
  exact ⟨θ, solution, same.1.1⟩

/-- Every solution of the heap is one of the call, if all rules that wait can go on. -/
theorem after_nonempty {heap : Heap} {arguments : Valuation D → List D} {target : Target}
    {layers : List Layer} (total : ∀ layer ∈ layers, Total layer.code) {θ : Valuation D}
    (solution : heap.Solution θ) :
    (Instance.After (trial.instances (heap.Calls arguments target) layers)
      (.call (arguments θ) target)).Nonempty := by
  obtain ⟨goals, values, rest⟩ := Layer.exists_rest total θ default
  exact ⟨⟨goals, _, _⟩, θ, default, _, goals, values, ⟨solution, rfl⟩, rest, rfl⟩

/-! ### Builtins -/

namespace Builtin

variable {admits : Functor → Prop} {memory later : Memory} {builtin : Builtin} {check : OccursCheck}
  {args : List Address}

/-- A builtin that is no unification leaves the memory as it is. -/
theorem run_eq_self {result : Except Fault Bool} (test : builtin ≠ .eq)
    (ended : builtin.run check memory args = (result, later)) : later = memory := by
  cases builtin with
  | eq => exact absurd rfl test
  | true | distinct => exact (Prod.ext_iff.1 ended).2.symm
  | neq =>
    unfold run at ended
    split at ended <;> first | exact (Prod.ext_iff.1 ended).2.symm | contradiction

/-- A builtin that tells two arguments apart refuses any other number of them. -/
theorem run_of_ne_pair (pair : builtin = .eq ∨ builtin = .neq)
    (other : ∀ left right, args ≠ [left, right]) :
    builtin.run check memory args = (.ok false, memory) := by
  obtain rfl | rfl := pair
  · unfold run
    split <;> simp_all
  · unfold run
    split <;> simp_all

/-- All that a builtin does to the memory is to bind variables, also where it ends in a fault. -/
theorem binds_run {result : Except Fault Bool}
    (ended : builtin.run check memory args = (result, later)) :
    Memory.Binds check memory later := by
  by_cases test : builtin = .eq
  swap
  · rw [run_eq_self test ended]
    exact .refl
  subst test
  by_cases pair : ∃ left right, args = [left, right]
  · obtain ⟨left, right, rfl⟩ := pair
    exact Memory.binds_unify ended
  · rw [run_of_ne_pair (.inl rfl) fun left right same ↦ pair ⟨left, right, same⟩] at ended
    cases ended
    exact .refl

/-- So it can be taken back. -/
theorem rewinds_run (formed : memory.heap.Formed admits 0) {success : Bool}
    (ended : builtin.run check memory args = (.ok success, later)) :
    later.Rewinds memory ∧ later.heap.Formed admits 0 :=
  ⟨(binds_run ended).rebinds.toRewinds, (binds_run ended).formed formed⟩

/-- What is found of terms that are to be ground and different. -/
theorem distinct_of_groundTerms (formed : memory.heap.Formed admits 0) {success : Bool}
    (ended : (groundTerms memory.heap args).map (fun terms ↦ terms.any allDifferent) =
      .ok success) :
    (success = Bool.true → ∀ θ : Valuation D, memory.heap.Solution θ → Distinct (args.map θ)) ∧
      (success = false → (∀ θ : Valuation D, memory.heap.Solution θ → ¬Distinct (args.map θ)) ∨
        memory.heap.Open D args) := by
  cases read : groundTerms memory.heap args with
  | error fault => simp [read, Except.map] at ended
  | ok found =>
    have known := groundTerms_eq_ok D formed read
    simp only [read, Except.map, Except.ok.injEq] at ended
    cases found with
    | none =>
      subst ended
      exact ⟨nofun, fun _ ↦ .inr known⟩
    | some terms =>
      obtain ⟨raws, rfl, ground, stand⟩ := known
      rw [Option.any_some] at ended
      refine ⟨fun found θ solution ↦ ⟨raws, ground, allDifferent_iff.1 (ended.trans found),
        stand θ solution⟩, fun missed ↦ .inl fun θ solution distinct ↦ ?_⟩
      · obtain ⟨others, others_ground, different, same⟩ := distinct
        have equal : raws = others := by
          have images := (stand θ solution default).symm.trans (same default)
          have related : List.Forall₂ Eq raws others := Term.forall₂_of_map_eq images
            fun one member other there ↦
              Term.eval_injective (ground one member) (others_ground other there)
          simpa using related
        rw [equal, allDifferent_iff.2 different, missed] at ended
        cases ended

/-- A builtin that succeeds keeps the solutions of which it holds; only `eq` excludes some. -/
theorem narrows_run (formed : memory.heap.Formed admits 0)
    (ended : builtin.run check memory args = (.ok Bool.true, later)) :
    memory.Narrows admits later (fun θ : Valuation D ↦ builtin.Passes (args.map θ)) ∧
      (builtin ≠ .eq → ∀ θ : Valuation D, memory.heap.Solution θ →
        builtin.Passes (args.map θ)) := by
  by_cases test : builtin = .eq
  · subst test
    refine ⟨?_, fun other ↦ absurd rfl other⟩
    by_cases pair : ∃ left right, args = [left, right]
    · obtain ⟨left, right, rfl⟩ := pair
      have narrows : memory.Narrows admits later fun θ : Valuation D ↦ θ left = θ right :=
        Memory.tested_unify formed ended
      simpa [Passes, eq_comm] using narrows
    · rw [run_of_ne_pair (.inl rfl) fun left right same ↦ pair ⟨left, right, same⟩] at ended
      cases ended
  have same := run_eq_self test ended
  subst same
  have holds : ∀ θ : Valuation D, later.heap.Solution θ → builtin.Passes (args.map θ) := by
    cases builtin with
    | eq => exact absurd rfl test
    | true => exact fun _ _ ↦ trivial
    | distinct =>
      exact (distinct_of_groundTerms formed (Prod.ext_iff.1 ended).1).1 rfl
    | neq =>
      by_cases pair : ∃ left right, args = [left, right]
      · obtain ⟨left, right, rfl⟩ := pair
        exact fun θ solution ↦
          ⟨rfl, (distinct_of_groundTerms formed (Prod.ext_iff.1 ended).1).1 rfl θ solution⟩
      · rw [run_of_ne_pair (.inr rfl) fun left right same ↦ pair ⟨left, right, same⟩] at ended
        cases ended
  exact ⟨⟨fun θ solution ↦ ⟨solution, holds θ solution⟩,
    fun θ solution _ ↦ ⟨θ, fun _ _ ↦ rfl, solution⟩, .refl _, formed⟩, fun _ ↦ holds⟩

/-- A builtin that fails holds of no solution, or there is an unbound cell inside its arguments. -/
theorem not_passes_of_run (formed : memory.heap.Formed admits 0) (decides : check.Decides D)
    (ended : builtin.run check memory args = (.ok false, later)) :
    (∀ θ : Valuation D, memory.heap.Solution θ → ¬builtin.Passes (args.map θ)) ∨
      builtin ≠ .eq ∧ builtin ≠ .true ∧ memory.heap.Open D args := by
  cases builtin with
  | true => cases ended
  | eq =>
    refine .inl fun θ solution passes ↦ ?_
    obtain ⟨value, pair⟩ := passes
    obtain ⟨left, others, rfl, at_left, rest⟩ := List.map_eq_cons_iff.1 pair
    obtain ⟨right, none_left, rfl, at_right, nothing⟩ := List.map_eq_cons_iff.1 rest
    rw [List.map_eq_nil_iff] at nothing
    subst nothing
    exact Memory.ne_of_unify decides ended solution (at_left.trans at_right.symm)
  | distinct =>
    obtain never | unbound :=
      (distinct_of_groundTerms (D := D) formed (Prod.ext_iff.1 ended).1).2 rfl
    · exact .inl never
    · exact .inr ⟨nofun, nofun, unbound⟩
  | neq =>
    by_cases pair : ∃ left right, args = [left, right]
    · obtain ⟨left, right, rfl⟩ := pair
      obtain never | unbound :=
        (distinct_of_groundTerms (D := D) formed (Prod.ext_iff.1 ended).1).2 rfl
      · exact .inl fun θ solution passes ↦ never θ solution passes.2
      · exact .inr ⟨nofun, nofun, unbound⟩
    · refine .inl fun θ solution passes ↦ pair ?_
      have two := passes.1
      rw [List.length_map] at two
      exact List.length_eq_two.1 two

/-- A builtin that asks for ground arguments does not hold of a value that is not ground. -/
theorem Distinct.exists_of_part {values : List D} (distinct : Distinct values) {inner value : D}
    (member : value ∈ values) (part : Domain.Part inner value) :
    ∃ term : Term, term.isGround = Bool.true ∧ ∀ β, term.eval β = inner := by
  obtain ⟨terms, ground, -, same⟩ := distinct
  rw [same default] at member
  obtain ⟨outer, there, rfl⟩ := List.mem_map.1 member
  obtain ⟨term, term_ground, rfl, -⟩ := Term.exists_of_part (ground outer there) part
  exact ⟨term, term_ground, fun β ↦ Term.eval_of_isGround term_ground β default⟩

theorem Passes.distinct {values : List D} (passes : builtin.Passes values) (test : builtin ≠ .eq)
    (other : builtin ≠ .true) : Distinct values := by
  cases builtin with
  | eq => exact absurd rfl test
  | true => exact absurd rfl other
  | neq => exact passes.2
  | distinct => exact passes

end Builtin

namespace Machine

variable {machine later : Machine} {view : View} {rule : RuleId} {compiled : CompiledRule}
  {number : Nat} {frame : Frame} {point : Point} {layers : List Layer}

/-- A rule that makes a call waits with the code after it. -/
theorem Inside.waits {frames : Array Frame}
    (inside : machine.Inside trial frames rule compiled number frame point layers) {target : Target}
    (here : compiled.code[machine.counter]? = some (.call target)) (other : RuleId) :
    trial.Stack frames machine.memory.heap.size frames.size other (.goTo rule (machine.counter + 1))
      machine.environment
      (⟨compiled.code.toList.drop (machine.counter + 1), point.slots⟩ :: layers) := by
  obtain ⟨registers, building, valid⟩ := inside.valid
  obtain ⟨-, -, resumes, disciplined⟩ := valid.disciplined_of_front (inside.front here)
  have stack := inside.stack
  rw [inside.shows.environment]
  exact .goTo (Array.getElem?_eq_some_iff.1 inside.here).1 inside.found inside.here
    inside.sized disciplined
    resumes (inside.passed.succ here (.refl _) (by simp [Instruction.slot?]))
    (inside.shows.memory ▸ valid.slots) stack

/-- Between structures, the arguments of a call are on the heap. -/
theorem Inside.arguments {frames : Array Frame}
    (inside : machine.Inside trial frames rule compiled number frame point layers) {target : Target}
    (here : compiled.code[machine.counter]? = some (.call target)) :
    point.missing = 0 ∧ machine.memory.heap.Formed trial.admits 0 ∧
      Point.Holds machine.registers {index | index < target.arity} machine.memory.heap.size := by
  obtain ⟨registers, building, valid⟩ := inside.valid
  obtain ⟨between, read, -⟩ := valid.disciplined_of_front (inside.front here)
  refine ⟨between, inside.shows.memory ▸ valid.formed_zero between, fun index lower ↦ ?_⟩
  rw [inside.shows.memory, inside.shows.registers]
  exact valid.registers index (read index lower)

/-- The instances of a machine that is about to make a call. -/
theorem Inside.instances_call {frames : Array Frame}
    (inside : machine.Inside trial frames rule compiled number frame point layers) {target : Target}
    (here : compiled.code[machine.counter]? = some (.call target)) :
    Situation.instances (D := D) trial ⟨point, layers⟩ =
      trial.instances (machine.memory.heap.Calls
        (fun θ ↦ (List.range target.arity).map (Bank.values machine.registers θ)) target)
        (⟨compiled.code.toList.drop (machine.counter + 1), point.slots⟩ :: layers) := by
  rw [HornMachine.instances_call (inside.front here) (inside.arguments here).1, inside.shows.memory,
    inside.shows.registers]

end Machine

/-- The addresses in the first registers are read. -/
theorem Exec.registers_eq_ok {count : Nat} {machine later : Machine} {addresses : List Address}
    (ended : (List.range count).mapM register machine = .ok addresses later) :
    later = machine ∧ addresses.map some = (List.range count).map fun index ↦
      (machine.registers[index]?).getD none := by
  generalize List.range count = indices at ended
  induction indices generalizing addresses with
  | nil =>
    cases ended
    exact ⟨rfl, rfl⟩
  | cons index indices ih =>
    rw [List.mapM_cons] at ended
    obtain ⟨address, middle, first, rest⟩ := bind_eq_ok.1 ended
    obtain ⟨here, rfl⟩ := register_eq_ok.1 first
    obtain ⟨others, last, second, rest⟩ := bind_eq_ok.1 rest
    cases rest
    obtain ⟨same, read⟩ := ih second
    exact ⟨same, by rw [List.map_cons, List.map_cons, read, here]; rfl⟩

/-- The values of addresses read from registers. -/
theorem Bank.map_values {bank : Bank} {indices : List Nat} {addresses : List Address}
    (read : addresses.map some = indices.map fun index ↦ (bank[index]?).getD none)
    (θ : Valuation D) : addresses.map θ = indices.map (bank.values θ) := by
  induction indices generalizing addresses with
  | nil =>
    rw [List.map_nil, List.map_eq_nil_iff] at read
    rw [read, List.map_nil, List.map_nil]
  | cons index indices ih =>
    rw [List.map_cons] at read
    obtain ⟨address, others, rfl, here, rest⟩ := List.map_eq_cons_iff.1 read
    rw [List.map_cons, List.map_cons, ih rest]
    congr 1
    unfold Bank.values
    cases found : bank[index]? with
    | none => simp [found] at here
    | some entry =>
      rw [found] at here
      subst here
      rfl

/-- A builtin is run on the addresses in the first registers. -/
theorem Exec.builtin_eq_ok {compiled : CompiledRule} {builtin : Builtin} {arity : Nat}
    {machine later : Machine} {success : Bool}
    (ended : execute context compiled (.call (.builtin builtin arity)) machine =
      .ok success later) :
    ∃ args memory stats, builtin.run context.occursCheck machine.memory args =
      (.ok success, memory) ∧
      args.map some = (List.range arity).map (fun index ↦ (machine.registers[index]?).getD none) ∧
      later = { machine with memory, stats } := by
  obtain ⟨done, counted, first, rest⟩ := bind_eq_ok.1 ended
  rw [modify_apply] at first
  cases first
  obtain ⟨args, middle, registers, rest⟩ := bind_eq_ok.1 rest
  obtain ⟨rfl, read⟩ := registers_eq_ok registers
  obtain ⟨memory, run, rfl⟩ := onMemory_eq_ok.1 rest
  exact ⟨args, memory, _, run, read, rfl⟩

namespace Machine

variable {machine later : Machine} {view : View} {rule : RuleId} {compiled : CompiledRule}
  {number : Nat} {frame : Frame} {point : Point} {layers : List Layer}

/-- A builtin that fails gives the branch up: an unbound cell in its arguments could stand for a
value of which it does not hold. -/
theorem reject_builtin {heap : Heap} (formed : heap.Formed trial.admits 0)
    (total : ∀ layer ∈ layers, Total layer.code) {builtin : Builtin} {arity : Nat}
    {args : List Address}
    (never : trial.Exact D →
      (∀ θ : Valuation D, heap.Solution θ → ¬builtin.Passes (args.map θ)) ∨
        builtin ≠ .eq ∧ builtin ≠ .true ∧ heap.Open D args)
    (choices : List (Set (Instance D) × List Candidate)) :
    Move (trial.Exact D) context
      ⟨some (trial.instances (heap.Calls (fun θ ↦ args.map θ) (.builtin builtin arity))
      layers), choices⟩ ⟨none, choices⟩ := by
  refine .reject calls_instances (fun exact same ↦ ?_) fun exact test ↦ ?_
  · obtain never | ⟨test, -⟩ := never exact
    · refine Set.eq_empty_iff_forall_notMem.2 ?_
      rintro an ⟨values, passes, after⟩
      obtain ⟨θ, solution, rfl⟩ := exists_solution_of_after ⟨an, after⟩
      exact never θ solution passes
    · exact absurd same test
  · refine or_iff_not_imp_left.2 fun some_instance ↦ ?_
    obtain ⟨an, θ, η, first, others, values, ⟨solution, rfl⟩, -, -⟩ :=
      Set.nonempty_iff_ne_empty.2 some_instance
    obtain never | ⟨-, other, free, unbound, address, member, part⟩ := never exact
    · exact ⟨_, after_nonempty total solution, never θ solution⟩
    · obtain ⟨⟨sized⟩, strange, unlike⟩ := exact.domain
      obtain ⟨θ', solution', values'⟩ := formed.exists_solution solution.acyclic fun _ ↦ strange
      refine ⟨_, after_nonempty total solution', fun passes ↦ ?_⟩
      obtain ⟨term, ground, same⟩ := (passes.distinct test other).exists_of_part
        (List.mem_map.2 ⟨address, member, rfl⟩) (part θ' solution')
      exact unlike term default ground ((same default).trans (values' free (.inr unbound)))

/-- A builtin is called. -/
theorem advances_builtin (fits : machine.Fits trial view)
    (current : view.current = some ⟨point, layers⟩)
    (inside : machine.Inside trial view.frames rule compiled number frame point layers)
    (running : machine.status = .running) {builtin : Builtin} {arity : Nat} {success : Bool}
    (here : compiled.code[machine.counter]? = some (.call (.builtin builtin arity)))
    (ended : Exec.execute context compiled (.call (.builtin builtin arity)) machine.begun =
      .ok success later) : machine.Advances D trial context view (later.after success) := by
  obtain ⟨between, formed, holds⟩ := inside.arguments here
  have waits := inside.waits here rule
  obtain ⟨args, memory, stats, run, read, rfl⟩ := Exec.builtin_eq_ok ended
  change builtin.run context.occursCheck machine.memory args = _ at run
  obtain ⟨rewinds, later_formed⟩ := Builtin.rewinds_run formed run
  have called : Situation.instances (D := D) trial ⟨point, layers⟩ =
      trial.instances (machine.memory.heap.Calls (fun θ ↦ args.map θ) (.builtin builtin arity))
        (⟨compiled.code.toList.drop (machine.counter + 1), point.slots⟩ :: layers) := by
    rw [inside.instances_call here]
    exact congrArg (fun arguments ↦ trial.instances (machine.memory.heap.Calls arguments
      (.builtin builtin arity)) _) (funext fun θ ↦ (Bank.map_values read θ).symm)
  cases success with
  | false =>
    refine advances_giveUp fits current rfl rfl rewinds rfl fits.frames fun sense ↦ ?_
    rw [called]
    refine reject_builtin formed (waits.total sense.named) (fun exact ↦ ?_) _
    exact Builtin.not_passes_of_run formed (fun _ ↦ exact.domain.1) run
  | true =>
    have stack := waits.grow rewinds.heap
    obtain ⟨layer, older, found, at_number, at_frame, same, disciplined, standing⟩ :=
      inside_of_stack
      { machine.begun with memory, stats } fits.frames later_formed stack inside.running rfl
    cases same
    have goes_on : Fits trial { machine.begun with memory, stats } ⟨view.frames, some ⟨_, layers⟩,
      _⟩ :=
      fits.goOn rfl rfl rewinds fits.sizes fits.frames (.refl _)
        (by rintro _ ⟨⟩; exact .inside standing)
    refine ⟨_, goes_on, rfl, rfl, by simp [after, begun, running], .inl running, fun sense ↦ ?_⟩
    obtain ⟨narrows, sure⟩ := Builtin.narrows_run (D := D) formed run
    rw [stage_of_current current, called]
    have passed :=
      instances_answer (.builtin builtin arity) machine.registers machine.mode _ narrows
      waits.bounded fits.inside disciplined
    refine .single (?_ : Move (trial.Exact D) context _
      ⟨some (Situation.instances trial ⟨⟨memory, _, machine.registers,
      _, machine.mode, 0⟩, layers⟩), _⟩)
    rw [passed]
    refine .pass calls_instances fun test values after ↦ ?_
    obtain ⟨θ, solution, rfl⟩ := exists_solution_of_after after
    exact sure test θ solution

end Machine

end HornMachine
