import HornMachine.Proofs.FactLookup
import HornMachine.Proofs.Heap.Shown

/-!
# The patterns of calls

The pattern a call searches the store for is read from the heap argument by argument, and every
reading names the unbound cells it meets from zero on. Within an argument variables are the same
exactly where they read the same cell. Across arguments they need not be: a call `p(X, Y)` searches
for `p(V, V)`. Main statement: the pattern has the arguments of the goal as it stands on the heap,
each numbered by itself; it is the goal up to a renaming exactly if the arguments are aligned, and
exactly then every ground instance of the goal is one of the pattern, whereas the facts that unify
are the instances of the goal (`Moment.Regular.searches_numbered`).
-/

namespace HornMachine

/-! ### The goal on the heap -/

private theorem Fact.term_eq_apply (fact : Fact) (canonical : fact.term.Canonical) :
    fact.term = Term.apply fact.functor.symbol fact.args := by
  have found := fact.functor?_term
  unfold args
  cases same : fact.term with
  | atom symbol =>
    rw [same] at found
    rw [← Option.some.inj found]
    rfl
  | struct symbol args =>
    rw [same] at canonical found
    cases args with
    | nil => exact absurd (Term.allFunctors_struct.1 canonical).1 (Nat.lt_irrefl 0)
    | cons arg args =>
      have applied : (Term.apply symbol (arg :: args)).functor? = some fact.functor := found
      rw [Term.eq_of_functor?_apply applied]
      rfl
  | var | num =>
    rw [same] at found
    cases found

/-- The term in an argument register, with the unbound cells for its variables. -/
def Heap.Carries (heap : Heap) (entry : Option Address) (arg : Term) : Prop :=
  ∃ address : Nat, entry = some address ∧ address < heap.size ∧ heap.Shown address arg

/-- The terms in the argument registers of a call. -/
def Machine.Calls (machine : Machine) (goal : Functor) (args : List Term) : Prop :=
  List.Forall₂ machine.memory.heap.Carries (machine.registers.extract 0 goal.arity).toList args

section Terms

variable {heap : Heap} {entries : List (Option Address)} {args : List Term}
  (formed : heap.Formed (fun functor ↦ 0 < functor.arity) 0)
  (carries : List.Forall₂ heap.Carries entries args)

include formed carries

/-- The variables of terms in registers are unbound cells. -/
theorem Heap.free_of_carries {arg : Term} (member : arg ∈ args) {cell : Address}
    (occurs : cell ∈ arg.occurrences) :
    heap.cells[cell]? = some (.ref cell) := by
  induction carries with
  | nil => cases member
  | cons first _ ih =>
    obtain rfl | other := List.mem_cons.1 member
    · obtain ⟨address, -, inside, shown⟩ := first
      exact (formed.extract_shown (fun _ ↦ id) inside shown).2.1 cell occurs
    · exact ih other

/-- In a solution of the heap registers have the values of the terms in them. -/
theorem Heap.values_of_carries {θ : Valuation Tree} (solution : heap.Solution θ) :
    (entries.map fun entry ↦ (entry.map θ).getD default) = args.map (Term.eval θ) := by
  induction carries with
  | nil => rfl
  | cons first _ ih =>
    obtain ⟨address, rfl, inside, shown⟩ := first
    rw [List.map_cons, List.map_cons, ih]
    exact congrArg (· :: _) ((formed.extract_shown (fun _ ↦ id) inside shown).2.2 θ solution)

private theorem Exec.mapM_patternArg_apply {machine : Machine} (memory : machine.memory.heap = heap)
    (start : Nat) :
    (List.mapM (fun (entry, index) ↦ patternArg index entry) (entries.zipIdx start) : Exec
      (List Term)) machine =
      .ok (args.map Term.numbered) machine := by
  induction carries generalizing start with
  | nil => rfl
  | @cons entry arg _ _ first _ ih =>
    obtain ⟨address, rfl, inside, shown⟩ := first
    have read := (formed.extract_shown (fun _ ↦ id) inside shown).1
    have first : patternArg start (some address) machine = .ok arg.numbered machine := by
      simp only [patternArg, bind_apply, get_apply, memory, read, pure_apply]
    rw [List.zipIdx_cons, List.mapM_cons]
    refine bind_eq_ok.2 ⟨_, _, first, ?_⟩
    exact bind_eq_ok.2 ⟨_, _, ih (start + 1), rfl⟩

end Terms

/-- The pattern has the terms in the registers for its arguments, each numbered by itself. -/
theorem Exec.pattern_apply {heap : Heap} (formed : heap.Formed (fun functor ↦ 0 < functor.arity) 0)
    {entries : Array (Option Address)} {args : List Term}
    (carries : List.Forall₂ heap.Carries entries.toList args) (goal : Functor) {machine : Machine}
    (memory : machine.memory.heap = heap) :
    pattern goal entries machine = .ok (Term.apply goal.symbol (args.map Term.numbered)) machine :=
  bind_eq_ok.2 ⟨_, machine, mapM_patternArg_apply formed carries memory 0, rfl⟩

/-- A call pushes a choice point with its pattern. -/
theorem Exec.exists_pushCall {machine : Machine} {goal : Functor} {rule : RuleId} {term : Term}
    (within : machine.rule = some rule) (room : goal.arity ≤ machine.registers.size)
    (read : ∀ stats, pattern goal (machine.registers.extract 0 goal.arity) { machine with stats } =
      .ok term { machine with stats }) :
    ∃ later, pushCall goal machine = .ok ⟨⟩ later ∧
      later.choices = machine.calling goal rule term :: machine.choices := by
  let counted : Machine :=
    { machine with stats := { machine.stats with calls := machine.stats.calls + 1 } }
  have enough : ¬goal.arity > counted.registers.size := Nat.not_lt.2 room
  let choices := machine.calling goal rule term :: machine.choices
  let stats := { counted.stats with choicePoints := counted.stats.choicePoints + 1 }
  refine ⟨{ counted with choices, stats },
    bind_eq_ok.2 ⟨⟨⟩, counted, rfl, bind_eq_ok.2 ⟨counted, counted, rfl, ?_⟩⟩, rfl⟩
  conv_lhs => simp only [show counted.rule = some rule from within, if_neg enough]
  exact bind_eq_ok.2 ⟨term, counted, read _, rfl⟩

section Call

variable {machine : Machine} {goal : Functor} {args : List Term} {fact : Fact} {check : OccursCheck}
  (formed : machine.memory.heap.Formed (fun functor ↦ 0 < functor.arity) 0)
  (holds : Point.Holds machine.registers {index | index < goal.arity} machine.memory.heap.size)

include formed holds

/-- Where no cycle is reached from the arguments there are terms in the registers. -/
theorem Machine.exists_calls
    (acyclic : ∀ index < goal.arity, ∀ address : Address, machine.registers[index]? =
      some (some address) →
      machine.memory.heap.AcyclicAt address) : ∃ args, machine.Calls goal args := by
  have each (entry : Option Address)
    (member : entry ∈ (machine.registers.extract 0 goal.arity).toList) :
      ∃ arg, machine.memory.heap.Carries entry arg := by
    obtain ⟨index, inside, rfl⟩ := List.getElem_of_mem member
    have lower : index < goal.arity ∧ index < machine.registers.size := by simpa using inside
    obtain ⟨address, here, below⟩ := holds index lower.1
    obtain ⟨arg, shown⟩ := formed.exists_shown below (acyclic index lower.1 address here)
    rw [Array.getElem?_eq_getElem lower.2, Option.some.injEq] at here
    exact ⟨arg, address, by simpa using here, below, shown⟩
  choose! arg carries using each
  exact ⟨_, List.forall₂_map_right_iff.2 (List.forall₂_same.2 carries)⟩

/-- A fact unifies with a call exactly if it is an instance of the goal. -/
theorem Machine.Calls.unifies_iff (calls : machine.Calls goal args) (called : fact.functor = goal)
    (canonical : fact.term.Canonical) : machine.unifies check goal fact = true ↔
      ∃ σ : Var → Term, (Term.apply goal.symbol args).subst σ = fact.term := by
  have values {θ : Valuation Tree} (solution : machine.memory.heap.Solution θ) :
      (List.range goal.arity).map (Bank.values machine.registers θ) = args.map (Term.eval θ) :=
    (Bank.map_range_values holds.le_size θ).trans (Heap.values_of_carries formed calls solution)
  rw [Machine.unifies_iff formed holds called canonical, fact.term_eq_apply canonical, called]
  simp only [Term.subst_apply, Term.apply_inj, ← fact.values_eq Tree.leaf]
  constructor
  · rintro ⟨θ, solution, same⟩
    rw [values solution] at same
    have each : List.Forall₂ (fun arg value ↦ arg.subst (finiteTerms θ) = value) args fact.args :=
      Term.forall₂_of_map_eq same fun arg _ value _ eq ↦ (Term.eq_subst_of_tree_eq eq.symm).symm
    exact ⟨finiteTerms θ, List.forall₂_eq_eq_eq ▸ List.forall₂_map_left_iff.2 each⟩
  · rintro ⟨σ, same⟩
    have solution := formed.solution_filled σ
    refine ⟨machine.memory.heap.filled σ, solution, ?_⟩
    rw [values solution, ← same, List.map_map]
    refine List.map_congr_left fun arg member ↦ ?_
    rw [Function.comp_apply, Term.eval_subst]
    refine Term.eval_congr fun cell occurs ↦ ?_
    exact Heap.filled_of_unbound σ
      (Heap.value_of_free (Heap.free_of_carries formed calls member occurs))

end Call

/-- A call whose arguments are acyclic searches the store for a pattern with the arguments of the
goal as it stands on the heap, each numbered by itself. The facts that unify with the call are the
instances of the goal. The pattern is the goal up to a renaming of variables exactly if the
arguments are aligned, and exactly then all ground instances of the goal are instances of the
pattern. -/
theorem Moment.Regular.searches_numbered {program : Program} {context : Context} {machine : Machine}
    {origins : List Machine} {compiled : CompiledRule} {goal : Functor}
    (built : program.Built (Rule.AllFunctors fun functor ↦ 0 < functor.arity))
    (regular : Regular program context ⟨machine, none, origins⟩)
    (running : machine.status = .running)
    (fetches : machine.Fetches context compiled (.call (.predicate goal)))
    (acyclic : ∀ index < goal.arity, ∀ address : Address, machine.registers[index]? =
      some (some address) →
      machine.memory.heap.AcyclicAt address) :
    ∃ args later choice, machine.Calls goal args ∧ Exec.pushCall goal machine.begun = .ok ⟨⟩ later ∧
      later.choices = choice :: machine.choices ∧
      choice.alternative = .facts { pattern := Term.apply goal.symbol (args.map Term.numbered) } ∧
      (∀ fact : Fact, fact.functor = goal → fact.term.Canonical →
        (machine.begun.unifies context.occursCheck goal fact = true ↔
          ∃ σ, (Term.apply goal.symbol args).subst σ = fact.term)) ∧
      ((∃ ρ : Equiv.Perm Var, Term.apply goal.symbol (args.map Term.numbered) =
        (Term.apply goal.symbol args).subst fun v ↦ .var (ρ v)) ↔ Term.Aligned args) ∧
      ((∀ σ : Var → Term, (∀ v, (σ v).isGround = true) → ∃ τ,
        (Term.apply goal.symbol (args.map Term.numbered)).subst τ =
          (Term.apply goal.symbol args).subst σ) ↔
          Term.Aligned args) := by
  obtain ⟨formed, holds⟩ := regular.arguments built running fetches
  obtain ⟨rule, within, -⟩ := fetches.rule
  obtain ⟨args, calls⟩ := Machine.exists_calls formed holds acyclic
  obtain ⟨later, pushed, stack⟩ : ∃ later, Exec.pushCall goal machine.begun = .ok ⟨⟩ later ∧
      later.choices =
        machine.begun.calling goal rule (Term.apply goal.symbol (args.map Term.numbered)) ::
          machine.choices :=
    Exec.exists_pushCall within holds.le_size fun _ ↦ Exec.pattern_apply formed calls goal (by rfl)
  have begun : machine.begun.Calls goal args := calls
  exact ⟨args, later, _, calls, pushed, stack, rfl,
    fun fact called canonical ↦ begun.unifies_iff formed holds called canonical,
    Term.exists_perm_iff_aligned goal.symbol args,
      Term.forall_instance_iff_aligned goal.symbol args⟩

/-! ### A call with two variables -/

/-- A rule that calls its predicate with its two variables: `p(X, Y) :- p(Y, X).` -/
def Rule.symmetric : Rule where
  head := .struct ⟨0⟩ [.var 0, .var 1]
  body := [.struct ⟨0⟩ [.var 1, .var 0]]

/-- The rule with its code. -/
def CompiledRule.symmetric : CompiledRule where
  rule := .symmetric
  head := ⟨⟨0⟩, 2⟩
  code := #[.allocate 2, .getVariable (.slot 0) 0, .getVariable (.slot 1) 1, .putValue (.slot 1) 0,
    .putValue (.slot 0) 1, .call (.predicate ⟨⟨0⟩, 2⟩), .deallocate, .proceed]
  slots := [(0, 0), (1, 1)]
  registers := 2

/-- The program of that rule. -/
def Program.symmetric : Program := (Program.new 3).append .symmetric

/-- The fact `p(a, b).` -/
def Fact.pair : Fact := ⟨.struct ⟨0⟩ [.atom ⟨1⟩, .atom ⟨2⟩], rfl, rfl, rfl⟩

/-- The program with that fact. -/
def Context.symmetric : Context where
  program := .symmetric
  store := (Usage.after [.assert .pair]).store
  occursCheck := .on
  stepLimit := 100

private theorem Program.built_symmetric :
    Program.symmetric.Built (Rule.AllFunctors fun functor ↦ 0 < functor.arity) := by
  have added : (Program.new 3).addRule .empty .symmetric = .ok (⟨0⟩, .symmetric) := rfl
  refine .addRule (.new 3) ?_ added
  simp [Rule.AllFunctors, Rule.symmetric, Term.AllFunctors, Term.AllFunctorsList]

private theorem Fact.canonical_pair : Fact.pair.term.Canonical := by
  simp [Term.Canonical, Term.AllFunctors, Term.AllFunctorsList, pair]

private theorem Context.canonical_symmetric : Context.symmetric.Canonical .symmetric := by
  have same : Context.symmetric.store = (Usage.after [.assert .pair]).store := rfl
  refine canonical_of_asserted _ same fun fact asserted ↦ ?_
  have listed : fact ∈ [Fact.pair] := asserted
  obtain rfl : fact = .pair := by simpa using listed
  exact Fact.canonical_pair

/-- Whether a machine is at the rule's call, with unbound cells in the argument registers. -/
def Machine.swaps (caller : Machine) : Bool :=
  decide (caller.status = .running ∧ caller.rule = some ⟨0⟩ ∧ caller.counter = 5 ∧
    caller.memory.heap.cells = #[.ref 0, .ref 1] ∧ caller.registers = #[some 1, some 0, none])

namespace Moment

/-- The attempt comes to its call. -/
theorem exists_swapping : ∃ machine origins compiled,
    Regular .symmetric .symmetric ⟨machine, none, origins⟩ ∧ machine.status = .running ∧
    machine.Fetches .symmetric compiled (.call (.predicate ⟨⟨0⟩, 2⟩)) ∧
    machine.memory.heap.cells = #[.ref 0, .ref 1] ∧
    machine.registers = #[some 1, some 0, none] := by
  have made : (Context.symmetric.attempt ⟨0⟩ 3 5).any Machine.swaps = true := by decide +kernel
  obtain ⟨caller, reached, swaps⟩ := (Option.any_eq_true _ _).1 made
  obtain ⟨compiled, found, code⟩ : ∃ compiled, Program.symmetric.rule? ⟨0⟩ = some compiled ∧
      compiled.code[5]? = some (.call (.predicate ⟨⟨0⟩, 2⟩)) := ⟨_, rfl, rfl⟩
  obtain ⟨origins, regular⟩ := Context.regular_attempt Context.canonical_symmetric reached
  obtain ⟨running, rule, counter, cells, registers⟩ := of_decide_eq_true swaps
  exact ⟨caller, origins, compiled, regular, running, ⟨⟨⟨0⟩, rule, found⟩, counter ▸ code⟩,
    cells, registers⟩

/-- The call is searched as `p(V, V)`, though `p(a, b)` unifies with it and is no instance of
that. -/
theorem searches_numbered_symmetric : ∃ machine origins compiled later choice,
    Regular .symmetric .symmetric ⟨machine, none, origins⟩ ∧ machine.status = .running ∧
    machine.Fetches .symmetric compiled (.call (.predicate ⟨⟨0⟩, 2⟩)) ∧
    Exec.pushCall ⟨⟨0⟩, 2⟩ machine.begun = .ok ⟨⟩ later ∧
    later.choices = choice :: machine.choices ∧
    choice.alternative = .facts { pattern := .struct ⟨0⟩ [.var 0, .var 0] } ∧
    machine.begun.unifies .on ⟨⟨0⟩, 2⟩ .pair = true ∧
    ∀ τ, (Term.struct ⟨0⟩ [.var 0, .var 0]).subst τ ≠ Fact.pair.term := by
  obtain ⟨machine, origins, compiled, regular, running, fetches, cells, registers⟩ :=
    exists_swapping
  have free (cell : Address) (inside : cell < 2) :
    machine.memory.heap.cells[cell]? = some (.ref cell) := by
    rw [cells]
    match cell, inside with
    | 0, _ | 1, _ => rfl
  have held (index : Nat) (lower : index < 2) :
    machine.registers[index]? = some (some (1 - index)) := by
    rw [registers]
    match index, lower with
    | 0, _ | 1, _ => rfl
  have acyclic (index : Nat) (lower : index < 2) (address : Address)
      (here : machine.registers[index]? = some (some address)) : machine.memory.heap.AcyclicAt
        address := by
    obtain rfl : 1 - index = address := by simpa [held index lower] using here
    intro found functor header inner read
    cases (Heap.value_of_free
      (free (1 - index) (Nat.lt_succ_of_le (Nat.sub_le 1 index)))).symm.trans read
  obtain ⟨args, later, choice, calls, pushed, stack, searching, instances, -⟩ :=
    regular.searches_numbered Program.built_symmetric running fetches acyclic
  have carried (cell : Address) (inside : cell < 2) {arg : Term}
      (carries : machine.memory.heap.Carries (some cell) arg) : arg = .var cell := by
    obtain ⟨address, same, -, shown⟩ := carries
    cases same
    rw [Heap.Shown, Heap.trees_of_unbound _ (Heap.value_of_free (free cell inside))] at shown
    exact Term.tree_injective (shown.symm.trans (Term.eval_var _ _).symm)
  obtain rfl : args = [.var 1, .var 0] := by
    rw [Machine.Calls, registers] at calls
    cases calls with
    | cons first rest =>
      cases rest with
      | cons second none_left =>
        cases none_left
        rw [carried 1 (by decide) first, carried 0 (by decide) second]
  simp only [List.map_cons, List.map_nil, Term.numbered_var] at searching
  let σ (v : Var) : Term := if v = 1 then .atom ⟨1⟩ else .atom ⟨2⟩
  refine ⟨machine, origins, compiled, later, choice, regular, running, fetches, pushed,
    stack, searching,
    (instances .pair rfl Fact.canonical_pair).2 ⟨σ, by simp [Term.apply, Fact.pair, σ]⟩,
      fun τ same ↦ ?_⟩
  simp only [Term.subst_struct, List.map_cons, List.map_nil, Term.subst_var, Fact.pair,
    Term.struct.injEq, List.cons.injEq, and_true, true_and] at same
  cases same.1.symm.trans same.2

end Moment
end HornMachine
