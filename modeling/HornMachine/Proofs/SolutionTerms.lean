import HornMachine.Proofs.Consequences
import HornMachine.Proofs.Heap.Shown

/-!
# The terms of a solution

The head of a solution is read at the arguments of the attempt, and then its bindings are read at
the cells that the slots of the rule's frame hold for its variables; what is cyclic is left out of
the bindings. The names of unbound cells are common to all of these terms. Main statement: whatever
was called on the way and however often the search went back, the bindings make the rule's head the
head of the solution, a goal has that head as an instance, a variable is left out just where a cycle
is reached from its cell, which is not so for the variables of the head, and the variables of the
terms are none of the rule's but stand for one unbound cell each.
-/

namespace HornMachine

/-! ### Reading -/

namespace Exec

section Reading

variable {admits : Functor → Prop} {heap : Heap} (formed : heap.Formed admits 0)
  (kinds : ∀ functor, admits functor → 0 < functor.arity)

include formed kinds

/-- An address is read as the term that stands there, or as a cyclic one. -/
theorem readsAs_extractNamed {address : Nat} (inside : address < heap.size) {names : VarNames}
    (proper : names.Proper heap) {result : Except Fault Term} {later : VarNames}
    (ended : heap.extractNamed address names = (result, later)) :
    later.Proper heap ∧ names.Keeps later ∧ ∃ raw : Option Term,
      result = raw.elim (.error .cyclicTerm) .ok ∧ heap.ReadsAs admits later address raw := by
  obtain ⟨still, keeps, raw, read, reads⟩ := Heap.readsAs_extractNamed formed inside proper
  rw [ended] at still keeps read reads
  exact ⟨still, keeps, raw, read.trans (Heap.readOf_of_readsAs kinds reads), reads⟩

private theorem readsAs_readTerms {addresses : List Address}
    (inside : ∀ address ∈ addresses, address < heap.size)
    {terms : List Term} {names later : VarNames} (proper : names.Proper heap)
    (ended : readTerms heap addresses names = .ok (terms, later)) :
    later.Proper heap ∧ names.Keeps later ∧
      List.Forall₂ (fun address term ↦ heap.ReadsAs admits later address (some term))
        addresses terms := by
  induction addresses generalizing names terms with
  | nil =>
    cases ended
    exact ⟨proper, .refl _, .nil⟩
  | cons address addresses ih =>
    obtain ⟨here, rest⟩ := List.forall_mem_cons.1 inside
    simp only [readTerms] at ended
    cases read : heap.extractNamed address names with
    | mk result middle =>
      rw [read] at ended
      obtain ⟨term, rfl, others⟩ := Except.bind_eq_ok.1 ended
      obtain ⟨⟨terms, last⟩, more, final⟩ := Except.bind_eq_ok.1 others
      cases final
      obtain ⟨still, keeps, raw, same, reads⟩ := readsAs_extractNamed formed kinds here proper read
      obtain ⟨last_proper, last_keeps, each⟩ := ih rest still more
      cases raw with
      | none => cases same
      | some raw =>
        cases same
        exact ⟨last_proper, keeps.trans last_keeps, .cons (reads.mono last_keeps) each⟩

/-- The bindings read have the terms at the cells of the variables; where there is none, the
variable is not bound. -/
theorem readsAs_readBindings {answer : Bank} {slots : List (Var × Nat)}
    (nodup : (slots.map Prod.fst).Nodup)
    (held : ∀ slot ∈ slots, ∃ address : Nat, answer[slot.2]? = some (some address) ∧
      address < heap.size)
    {names : VarNames} (proper : names.Proper heap) {bindings result : Bindings}
    (unbound : ∀ slot ∈ slots, bindings.lookup? slot.1 = none)
    (ended : readBindings heap answer slots names bindings = .ok result) :
    ∃ later : VarNames, later.Proper heap ∧ names.Keeps later ∧
      (∀ slot ∈ slots, ∃ address : Nat, answer[slot.2]? = some (some address) ∧
        address < heap.size ∧
        heap.ReadsAs admits later address (result.lookup? slot.1)) ∧
      ∀ v ∉ slots.map Prod.fst, result.lookup? v = bindings.lookup? v := by
  induction slots generalizing names bindings with
  | nil =>
    cases ended
    exact ⟨names, proper, .refl _, by simp, fun _ _ ↦ rfl⟩
  | cons slot slots ih =>
    obtain ⟨v, index⟩ := slot
    obtain ⟨⟨address, here, inside⟩, others⟩ := List.forall_mem_cons.1 held
    obtain ⟨own, rest⟩ := List.forall_mem_cons.1 unbound
    obtain ⟨new, distinct⟩ := List.nodup_cons.1 nodup
    cases read : heap.extractNamed address names with
    | mk result middle =>
      simp only [readBindings, here, read] at ended
      obtain ⟨still, keeps, raw, rfl, reads⟩ := readsAs_extractNamed formed kinds inside proper read
      -- what the slot's variable is bound to before the others are read
      obtain ⟨next, at_v, elsewhere, ended⟩ : ∃ next : Bindings, next.lookup? v = raw ∧
          (∀ w, w ≠ v → next.lookup? w = bindings.lookup? w) ∧
          readBindings heap answer slots middle next = .ok result := by
        cases raw with
        | none => exact ⟨bindings, own, fun _ _ ↦ rfl, ended⟩
        | some raw =>
          refine ⟨bindings.bind v raw, ?_, fun w other ↦ ?_, ended⟩
          · rw [Bindings.lookup?_bind, if_pos rfl]
          · rw [Bindings.lookup?_bind, if_neg (Ne.symm other)]
      have fresh (slot) (member : slot ∈ slots) : slot.1 ≠ v := fun same ↦
        new (List.mem_map.2 ⟨slot, member, same⟩)
      obtain ⟨later, later_proper, later_keeps, each, left⟩ := ih distinct others still
        (fun slot member ↦ (elsewhere slot.1 (fresh slot member)).trans (rest slot member)) ended
      refine ⟨later, later_proper, keeps.trans later_keeps, List.forall_mem_cons.2 ⟨?_, each⟩,
        fun w other ↦ ?_⟩
      · refine ⟨address, here, inside, ?_⟩
        rw [left v new, at_v]
        exact reads.mono later_keeps
      · obtain ⟨different, outside⟩ := not_or.1 (List.mem_cons.not.1 other)
        rw [left w outside, elsewhere w different]

end Reading

end Exec

/-! ### What a solution has -/

/-- The trees of a heap whose unbound cells are shown by the names given to them. -/
noncomputable def VarNames.trees (names : VarNames) (heap : Heap) : Valuation Tree :=
  heap.trees fun address ↦ (names.names[address]?).getD 0

/-- What was read at an address is shown there. -/
theorem Heap.ReadsAs.trees_eq {admits : Functor → Prop} {heap : Heap} {names : VarNames}
    {address : Address} {term : Term} (reads : heap.ReadsAs admits names address (some term))
    (proper : names.Proper heap)
    (formed : heap.Formed admits 0) : names.trees heap address = term.tree := by
  refine reads.2 _ (formed.solution_trees _) Tree.leaf fun cell v named ↦ ?_
  rw [trees_of_unbound _ (value_of_free (proper.free cell v named)), named, Option.getD_some]

/-- The slot of a variable is its place among the variables. -/
theorem lookup_zipIdx {vars : List Var} {v : Var} (member : v ∈ vars) (start : Nat) :
    (vars.zipIdx start).lookup v = some (start + vars.idxOf v) := by
  induction vars generalizing start with
  | nil => cases member
  | cons w vars ih =>
    rw [List.zipIdx_cons, List.lookup_cons]
    by_cases here : v = w
    · subst here
      simp
    · rw [beq_false_of_ne here, List.idxOf_cons_ne _ (Ne.symm here)]
      refine (ih ((List.mem_cons.1 member).resolve_left here) (start + 1)).trans (congrArg some ?_)
      omega

/-- A variable of the head or of a binding. -/
def Solution.Mentions (solution : Solution) (v : Var) : Prop :=
  v ∈ solution.head.occurrences ∨
    ∃ w term, solution.bindings.lookup? w = some term ∧ v ∈ term.occurrences

/-- The cell of a variable of the attempted rule: the one that its slot in the first frame holds. -/
def Machine.cellOf (machine : Machine) (compiled : CompiledRule) (v : Var) : Option Address := do
  let frame ← machine.frames[0]?
  let slot ← compiled.slots.lookup v
  (frame.slots[slot]?).join

/-- The terms of a solution stand on the heap of the machine, where each of their variables is one
unbound cell. -/
structure Solution.Stands (solution : Solution) (machine : Machine) (compiled : CompiledRule)
    (cell : Var → Address) : Prop where
  head : ∃ entry, machine.entry = some entry ∧ List.Forall₂ (fun address arg ↦
    machine.memory.heap.Shown address (arg.subst fun v ↦ .var (cell v))) entry.arguments
      solution.head.args
  bindings : ∀ v term, solution.bindings.lookup? v = some term → ∃ address,
    machine.cellOf compiled v = some address ∧
    machine.memory.heap.Shown address (term.subst fun v ↦ .var (cell v))
  unbound : ∀ v, solution.Mentions v → machine.memory.heap.cells[cell v]? = some (.ref (cell v))
  injective : Set.InjOn cell {v | solution.Mentions v}

/-- With names for the unbound cells, the terms of a solution are what stands at the arguments of
the attempt and at the cells that the slots hold. -/
structure Trial.Reports (trial : Trial) (heap : Heap) (slots : Bank) (solution : Solution)
    (names : VarNames) : Prop where
  proper : names.Proper heap
  reserved : ∀ v ∈ trial.compiled.rule.vars, v ∈ names.reserved
  head : ∃ args, solution.head = Term.apply trial.entry.head.symbol args ∧ List.Forall₂
    (fun address arg ↦ heap.ReadsAs trial.admits names address (some arg))
      trial.entry.arguments args
  own : ∀ v ∈ trial.compiled.rule.vars, ∃ address : Nat,
    slots[trial.compiled.rule.vars.idxOf v]? = some (some address) ∧ address < heap.size ∧
    heap.ReadsAs trial.admits names address (solution.bindings.lookup? v)
  others : ∀ v ∉ trial.compiled.rule.vars, solution.bindings.lookup? v = none

/-- What the slot of a variable holds in the first frame is its cell. -/
theorem Machine.cellOf_eq {machine : Machine} {compiled : CompiledRule} {slots : Bank} {v : Var}
    {address : Address} (first : machine.frames[0]?.map Frame.slots = some slots)
    (numbered : compiled.slots = compiled.rule.vars.zipIdx) (member : v ∈ compiled.rule.vars)
    (here : slots[compiled.rule.vars.idxOf v]? = some (some address)) :
    machine.cellOf compiled v = some address := by
  obtain ⟨frame, found, rfl⟩ := Option.map_eq_some_iff.1 first
  have slot := lookup_zipIdx member 0
  rw [Nat.zero_add] at slot
  simp [cellOf, found, numbered, slot, here]

section Reports

variable {trial : Trial} {heap : Heap} {slots : Bank} {solution : Solution}
    {names : VarNames} {v : Var}

/-- What is captured is what stands on the heap. -/
theorem Trial.Captures.exists_reports (captures : trial.Captures heap slots solution)
    (numbered : trial.compiled.slots = trial.compiled.rule.vars.zipIdx)
    (formed : heap.Formed trial.admits 0)
    (kinds : ∀ functor, trial.admits functor → 0 < functor.arity) :
    ∃ names, trial.Reports heap slots solution names := by
  obtain ⟨args, first, read, head, bound⟩ := captures.read
  obtain ⟨proper, keeps, arguments⟩ :=
    Exec.readsAs_readTerms formed kinds captures.inside (VarNames.proper_reserving _ _) read
  have vars : trial.compiled.slots.map Prod.fst = trial.compiled.rule.vars := by
    rw [numbered, List.zipIdx_map_fst]
  obtain ⟨names, last_proper, last_keeps, own, others⟩ := Exec.readsAs_readBindings formed kinds
    (vars ▸ Term.nodup_distinct _) (fun _ ↦ captures.held numbered) proper
    (fun _ _ ↦ Bindings.lookup?_empty _) bound
  refine ⟨names, last_proper, fun v member ↦ ?_, ⟨args, head, ?_⟩, fun v member ↦ ?_,
    fun v other ↦ ?_⟩
  · rw [last_keeps.reserved, keeps.reserved, VarNames.reserving, vars]
    exact Std.TreeSet.mem_ofList.2 (by simpa using member)
  · exact arguments.imp fun _ _ reads ↦ reads.mono last_keeps
  · refine own (v, trial.compiled.rule.vars.idxOf v) ?_
    rw [numbered, List.mk_mem_zipIdx_iff_getElem?]
    exact List.getElem?_idxOf member
  · rw [others v (vars ▸ other), Bindings.lookup?_empty]

namespace Trial.Reports

variable (reports : trial.Reports heap slots solution names) (formed : heap.Formed trial.admits 0)

include reports

/-- What a variable is bound to stands at its cell. -/
theorem exists_readsAs {term : Term} (bound : solution.bindings.lookup? v = some term) :
    ∃ address : Nat, v ∈ trial.compiled.rule.vars ∧
      slots[trial.compiled.rule.vars.idxOf v]? = some (some address) ∧
      heap.ReadsAs trial.admits names address (some term) := by
  have member : v ∈ trial.compiled.rule.vars := by
    by_contra other
    cases bound.symm.trans (reports.others v other)
  obtain ⟨address, here, -, reads⟩ := reports.own v member
  exact ⟨address, member, here, bound ▸ reads⟩

include formed

/-- The variables of the terms are names of cells. -/
theorem exists_named (mentions : solution.Mentions v) :
    ∃ address : Nat, names.names[address]? = some v := by
  obtain ⟨address, term, reads, occurs⟩ : ∃ address term,
      heap.ReadsAs trial.admits names address (some term) ∧ v ∈ term.occurrences := by
    obtain in_head | ⟨w, term, bound, occurs⟩ := mentions
    · obtain ⟨args, head, each⟩ := reports.head
      rw [head] at in_head
      obtain ⟨arg, member, occurs⟩ := Term.mem_occurrences_apply.1 in_head
      obtain ⟨index, lower, rfl⟩ := List.getElem_of_mem member
      exact ⟨_, _, (List.forall₂_iff_get.1 each).2 index (each.length_eq ▸ lower) lower, occurs⟩
    · obtain ⟨address, -, -, reads⟩ := reports.exists_readsAs bound
      exact ⟨address, term, reads, occurs⟩
  have solution := formed.solution_trees fun cell ↦ cell
  exact reports.proper.exists_named
    (fun β γ stands also ↦ (reads.2 _ solution β stands).symm.trans (reads.2 _ solution γ also))
      occurs

/-- They are none of the rule's. -/
theorem not_mem_vars (mentions : solution.Mentions v) : v ∉ trial.compiled.rule.vars := by
  obtain ⟨address, named⟩ := reports.exists_named formed mentions
  exact fun member ↦ reports.proper.fresh address v named (reports.reserved v member)

/-- A variable is left out where a cycle is reached. -/
theorem lookup?_eq_none_iff {address : Nat} (inside : address < heap.size)
    (reads : heap.ReadsAs trial.admits names address (solution.bindings.lookup? v)) :
    solution.bindings.lookup? v = none ↔ ¬heap.AcyclicAt address := by
  cases found : solution.bindings.lookup? v with
  | none =>
    rw [found] at reads
    refine iff_of_true rfl fun acyclic ↦ ?_
    obtain ⟨term, shown⟩ := formed.exists_shown inside acyclic
    exact reads _ (formed.solution_trees fun cell ↦ cell) term shown
  | some term =>
    rw [found] at reads
    exact iff_of_false nofun
      (not_not.2 ((formed.solution_trees _).acyclicAt (reads.trees_eq reports.proper formed)))

/-- The terms stand on the heap, where each variable is the cell that it names. -/
theorem exists_stands {machine : Machine} (same : machine.memory.heap = heap)
    (entry : machine.entry = some trial.entry)
    (first : machine.frames[0]?.map Frame.slots = some slots)
    (numbered : trial.compiled.slots = trial.compiled.rule.vars.zipIdx) :
    ∃ cell, solution.Stands machine trial.compiled cell := by
  subst same
  have each (v : Var) : ∃ cell : Address, solution.Mentions v → names.names[cell]? = some v := by
    by_cases mentions : solution.Mentions v
    · exact (reports.exists_named formed mentions).imp fun _ named _ ↦ named
    · exact ⟨0, fun other ↦ absurd other mentions⟩
  choose cell known using each
  obtain ⟨args, head, arguments⟩ := reports.head
  refine ⟨cell, ⟨trial.entry, entry, ?_⟩, fun v term bound ↦ ?_, fun v mentions ↦ ?_, ?_⟩
  · rw [head, Term.args_apply]
    refine List.forall₂_iff_get.2 ⟨arguments.length_eq, fun index lower lower' ↦ ?_⟩
    refine ((List.forall₂_iff_get.1 arguments).2 index lower lower').shown reports.proper formed
      fun v occurs ↦ ?_
    refine known v (.inl ?_)
    rw [head]
    exact Term.mem_occurrences_apply.2 ⟨_, List.get_mem args ⟨index, lower'⟩, occurs⟩
  · obtain ⟨address, member, here, reads⟩ := reports.exists_readsAs bound
    exact ⟨address, Machine.cellOf_eq first numbered member here,
      reads.shown reports.proper formed fun w occurs ↦ known w (.inr ⟨v, term, bound, occurs⟩)⟩
  · exact reports.proper.free (cell v) v (known v mentions)
  · intro v v_mentions w w_mentions same
    have at_v := known v v_mentions
    rw [same, known w w_mentions] at at_v
    exact (Option.some.inj at_v).symm

/-- The trees at the arguments are those of the head's arguments. -/
theorem exists_args : ∃ args, solution.head = Term.apply trial.entry.head.symbol args ∧
    trial.entry.arguments.map (names.trees heap) = args.map Term.tree := by
  obtain ⟨args, head, arguments⟩ := reports.head
  refine ⟨args, head, List.forall₂_eq_eq_eq ▸ ?_⟩
  rw [List.forall₂_map_left_iff, List.forall₂_map_right_iff]
  exact arguments.imp fun _ _ reads ↦ reads.trees_eq reports.proper formed

/-- A term that has the arguments for an instance has the head for one. -/
theorem exists_instance {term : Term} (headed : Term.apply trial.entry.head.symbol term.args = term)
    {β : Var → Tree} (arguments : trial.entry.arguments.map (names.trees heap) =
      term.args.map (Term.eval β)) :
    ∃ σ, solution.head = term.subst σ := by
  obtain ⟨args, head, trees⟩ := reports.exists_args formed
  refine ⟨finiteTerms β, ?_⟩
  have instances := Term.forall₂_of_map_eq (trees.symm.trans arguments) fun arg _ given _ same ↦
    (Term.eq_subst_of_tree_eq same : arg = given.subst (finiteTerms β))
  have args_eq : args = term.args.map (Term.subst (finiteTerms β)) := by
    rw [← List.forall₂_eq_eq_eq, List.forall₂_map_right_iff]
    exact instances
  rw [head, args_eq, ← Term.subst_apply, headed]

section Head

variable {η : Nat → Tree}
  (assigned : ∀ v ∈ trial.compiled.rule.vars, ∀ address : Nat,
    slots[trial.compiled.rule.vars.idxOf v]? = some (some address) →
      trial.compiled.assignment η v = names.trees heap address)
  (arguments : trial.entry.arguments.map (names.trees heap) =
    trial.compiled.rule.head.args.map (Term.eval (trial.compiled.assignment η)))

include assigned arguments

/-- Where the arguments are those of the rule's head, the variables of the head are bound to their
values. -/
theorem exists_bound {arg : Term} (member : arg ∈ trial.compiled.rule.head.args)
    (occurs : v ∈ arg.occurrences) :
    ∃ term, solution.bindings.lookup? v = some term ∧
    trial.compiled.assignment η v = term.tree := by
  obtain ⟨args, -, trees⟩ := reports.exists_args formed
  obtain ⟨whole, -, same⟩ : ∃ whole ∈ args, whole.tree = arg.eval (trial.compiled.assignment η) :=
    List.mem_map.1 (trees ▸ arguments ▸ List.mem_map_of_mem member)
  -- a value inside something finite is finite
  obtain ⟨inner, finite⟩ := (Term.size_of_mem_occurrences Tree.sizes occurs ⟨whole, same⟩).1
  have known : v ∈ trial.compiled.rule.vars :=
    Rule.mem_vars.2 (.inl (Term.mem_occurrences_of_mem_args member occurs))
  obtain ⟨address, here, -, reads⟩ := reports.own v known
  have value := assigned v known address here
  cases found : solution.bindings.lookup? v with
  | none =>
    rw [found] at reads
    exact absurd (value.symm.trans finite.symm) (reads _ (formed.solution_trees _) inner)
  | some term =>
    rw [found] at reads
    exact ⟨term, rfl, value.trans (reads.trees_eq reports.proper formed)⟩

/-- The bindings make the rule's head the head of the solution. -/
theorem apply_head (headed : Term.apply trial.entry.head.symbol trial.compiled.rule.head.args =
    trial.compiled.rule.head) :
    solution.bindings.apply trial.compiled.rule.head = .ok solution.head := by
  obtain ⟨args, head, trees⟩ := reports.exists_args formed
  let τ : Var → Term := fun v ↦ (solution.bindings.lookup? v).getD (.var v)
  have args_eq : args = trial.compiled.rule.head.args.map (Term.subst τ) := by
    refine List.map_injective_iff.2 (fun _ _ ↦ Term.tree_injective)
      ((trees.symm.trans arguments).trans ?_)
    rw [List.map_map]
    refine List.map_congr_left fun arg member ↦ ?_
    rw [Function.comp_apply, Term.tree, Term.eval_subst]
    refine Term.eval_congr fun v occurs ↦ ?_
    obtain ⟨term, bound, value⟩ := reports.exists_bound formed assigned arguments member occurs
    rw [value, show τ v = term by simp [τ, bound], Term.tree]
  refine (Bindings.apply_of_flat (fun v term bound w occurs ↦ ?_) _).trans (congrArg Except.ok ?_)
  · exact reports.others w (reports.not_mem_vars formed (.inr ⟨v, term, bound, occurs⟩))
  · rw [head, args_eq, ← Term.subst_apply, headed]

end Head

end Trial.Reports

end Reports

/-! ### Solutions of attempts -/

namespace Machine

variable {program : Program} {rule : RuleId} {compiled : CompiledRule} {goal : Option Term}
  {context other : Context} {machine last : Machine} {solution : Solution}

/-- An attempt at a goal that does not fit the head of its rule has failed. -/
theorem Attempting.failed (attempting : Attempting program rule goal context machine)
    (found : program.rule? rule = some compiled)
    (misfit : goal.all (fitsHead compiled.head) = false) :
    machine.status = .failed := by
  induction attempting with
  | start canonical ended =>
    obtain ⟨-, rfl⟩ | ⟨fits, -⟩ := start_eq_ok (canonical.program ▸ found) ended
    · rfl
    · cases misfit.symm.trans fits
  | @search _ other _ _ _ _ _ _ ended ih =>
    rw [nextSolution_of_still other (.inr ih)] at ended
    cases ended
    exact ih

/-- An attempt with a solution is at a goal that fits the head of its rule. -/
theorem Attempting.fitsHead (attempting : Attempting program rule goal context machine)
    (found : program.rule? rule = some compiled)
    (ended : machine.nextSolution other = .ok (some solution) last) :
    goal.all (Machine.fitsHead compiled.head) = true := by
  by_contra misfit
  rw [nextSolution_of_still other (.inr (attempting.failed found (by simpa using misfit)))] at ended
  cases ended

end Machine

section Solutions

variable {program : Program} {rule : RuleId} {goal : Option Term} {context other : Context}
  {machine last : Machine} {solution : Solution}

/-- Every solution is consistent in itself, also where the heap is cyclic. -/
theorem solutions_self_consistent
    (built : program.Built (Rule.AllFunctors fun functor ↦ 0 < functor.arity))
    (named : program.registers ≤ 65535) (goal_canonical : ∀ term ∈ goal, term.Canonical)
    (attempting : Machine.Attempting program rule goal context machine)
    (canonical : other.Canonical program)
    (more : ∀ fact, context.store.contains fact → other.store.contains fact)
    (ended : machine.nextSolution other = .ok (some solution) last) :
    ∃ compiled, program.rule? rule = some compiled ∧ solution.rule = rule ∧
      solution.bindings.apply compiled.rule.head = .ok solution.head ∧
      (∀ term ∈ goal, ∃ σ, solution.head = term.subst σ) ∧
      (∀ v ∈ compiled.rule.vars, ∃ address, last.cellOf compiled v = some address ∧
        address < last.memory.heap.size ∧
        (solution.bindings.lookup? v = none ↔ ¬last.memory.heap.AcyclicAt address) ∧
        (¬last.memory.heap.AcyclicAt address → v ∉ compiled.rule.head.occurrences)) ∧
      (∀ v, solution.Mentions v → v ∉ compiled.rule.vars) ∧
      ∃ cell, solution.Stands last compiled cell := by
  obtain ⟨compiled, found⟩ := attempting.exists_rule
  have attempted : Machine.Attempted (fun functor ↦ 0 < functor.arity) program rule compiled goal :=
    ⟨built, named, found, fun _ positive ↦ positive, goal_canonical⟩
  obtain ⟨arguments, set, emission, justified⟩ :=
    attempting.exists_justified (D := Tree) attempted canonical more ended
  have formed := emission.formed
  have faithful := built.faithful named found
  obtain ⟨head_canonical, -⟩ := built.canonical found
  have headed := head_canonical.apply_args faithful.functor
  obtain ⟨slots, first, captures, branch⟩ := emission.captured
  obtain ⟨names, reports⟩ := captures.exists_reports faithful.slots formed fun _ positive ↦ positive
  -- with names for the unbound cells, the branch is an instance of the rule and of the goal
  have anything : other.Model fun _ : Task Tree ↦ True := ⟨by simp, by simp, by simp⟩
  obtain ⟨η, at_head, values, -, at_goal⟩ := faithful.exists_slots (justified _ anything)
    (branch (names.trees last.memory.heap) (formed.solution_trees _)) rfl
  have assigned (v) (member : v ∈ compiled.rule.vars) (address : Nat)
      (here : slots[compiled.rule.vars.idxOf v]? = some (some address)) :
      compiled.assignment η v = names.trees last.memory.heap address := by
    have lower : compiled.rule.vars.idxOf v < compiled.frameSize := by
      rw [CompiledRule.frameSize, faithful.slots, List.length_zipIdx]
      exact List.idxOf_lt_length_of_mem member
    have same := List.map_inj_left.1 values _ (List.mem_range.2 lower)
    rw [CompiledRule.assignment, ← same, Bank.values_of_getElem? here]
  refine ⟨compiled, found, emission.rule, reports.apply_head formed assigned at_head headed,
    fun term given ↦ ?_, fun v member ↦ ?_, fun v ↦ reports.not_mem_vars formed,
    reports.exists_stands formed rfl emission.entry first faithful.slots⟩
  · have fits := attempting.fitsHead found ended
    rw [Option.mem_def.1 given, Option.all_some, Machine.fitsHead] at fits
    simp only [Bool.and_eq_true, decide_eq_true_eq] at fits
    obtain ⟨β, instances⟩ := at_goal term given
    exact reports.exists_instance formed ((goal_canonical term given).apply_args fits.1.2) instances
  · obtain ⟨address, here, inside, reads⟩ := reports.own v member
    have left_out := reports.lookup?_eq_none_iff formed inside reads
    refine ⟨address, Machine.cellOf_eq first faithful.slots member here, inside, left_out,
      fun cyclic occurs ↦ ?_⟩
    rw [← headed] at occurs
    obtain ⟨arg, among, inner⟩ := Term.mem_occurrences_apply.1 occurs
    obtain ⟨term, bound, -⟩ := reports.exists_bound formed assigned at_head among inner
    cases (left_out.2 cyclic).symm.trans bound

end Solutions

/-! ### A rule with a variable left unbound and a cyclic one -/

/-- A table with the name of a builtin. -/
def SymbolTable.equality : SymbolTable where
  names := #["eq"]
  positions := (∅ : Std.HashMap String Nat).insert "eq" 0
  positions_iff name i := by
    rw [Std.HashMap.getElem?_insert]
    by_cases same : "eq" = name
    · cases i <;> simp [same]
    · cases i <;> simp [same]

/-- The rule `p(a) :- eq(X, f(X)), eq(Y, Y).` -/
def Rule.looped : Rule where
  head := .struct ⟨1⟩ [.atom ⟨2⟩]
  body := [.struct ⟨0⟩ [.var 7, .struct ⟨3⟩ [.var 7]], .struct ⟨0⟩ [.var 0, .var 0]]

/-- The rule with its code. -/
def CompiledRule.looped : CompiledRule where
  rule := .looped
  head := ⟨⟨1⟩, 1⟩
  code := #[
    .allocate 2, .getConstant (.atom ⟨2⟩) 0, .putVariable (.slot 0) 0, .putStructure ⟨⟨3⟩, 1⟩ 1,
    .setValue (.slot 0), .call (.builtin .eq 2), .putVariable (.slot 1) 0, .putValue (.slot 1) 1,
    .call (.builtin .eq 2), .deallocate, .proceed]
  slots := [(7, 0), (0, 1)]
  registers := 2

/-- The program of that rule. -/
def Program.looped : Program := (Program.new 3).append .looped

/-- The program without facts, and without the occurs check. -/
def Context.looped : Context where
  program := .looped
  store := .empty
  occursCheck := .off
  stepLimit := 100

private theorem Rule.vars_looped : Rule.looped.vars = [7, 0] := rfl

private theorem Program.built_looped :
    Program.looped.Built (Rule.AllFunctors fun functor ↦ 0 < functor.arity) := by
  have added : (Program.new 3).addRule .equality .looped = .ok (⟨0⟩, .looped) := rfl
  refine .addRule (.new 3) ?_ added
  simp [Rule.AllFunctors, Rule.looped, Term.AllFunctors, Term.AllFunctorsList]

private theorem Context.canonical_looped : Context.looped.Canonical .looped where
  program := rfl
  built := .empty
  facts := by simp [looped, FactStore.contains, FactStore.empty]

/-- Whether one of the rule's variables is bound to a variable and the other one is not bound. -/
def Solution.looped (solution : Solution) : Bool :=
  match solution.bindings.lookup? 0, solution.bindings.lookup? 7 with
  | some (.var _), none => true
  | _, _ => false

/-- With the goal `p(a)` the rule is left with `Y` bound to a variable that is not the rule's, and
without `X`, from whose cell a cycle is reached. -/
theorem solutions_self_consistent_looped :
    (Program.looped.Built (Rule.AllFunctors fun functor ↦ 0 < functor.arity) ∧
      Program.looped.registers ≤ 65535 ∧ Context.looped.Canonical .looped) ∧
    ∃ machine solution last v address,
      Machine.Attempting .looped ⟨0⟩ (some (.struct ⟨1⟩ [.atom ⟨2⟩])) .looped machine ∧
      machine.nextSolution .looped = .ok (some solution) last ∧
      solution.head = .struct ⟨1⟩ [.atom ⟨2⟩] ∧
      solution.bindings.lookup? 0 = some (.var v) ∧ v ∉ [7, 0] ∧
      solution.bindings.lookup? 7 = none ∧ last.cellOf .looped 7 = some address ∧
      ¬last.memory.heap.AcyclicAt address := by
  have named : Program.looped.registers ≤ 65535 := by decide +kernel
  have made : (Context.looped.firstSolution ⟨0⟩ (some (.struct ⟨1⟩ [.atom ⟨2⟩])) 3).any
      (fun found ↦ found.2.1.looped) = true := by decide +kernel
  obtain ⟨⟨machine, solution, last⟩, first, bound⟩ := (Option.any_eq_true _ _).1 made
  obtain ⟨started, searched⟩ := Context.firstSolution_eq_some first
  have attempting : Machine.Attempting .looped ⟨0⟩ (some (.struct ⟨1⟩ [.atom ⟨2⟩]))
    .looped machine :=
    .start Context.canonical_looped started
  obtain ⟨v, at_zero, at_seven⟩ : ∃ v, solution.bindings.lookup? 0 = some (.var v) ∧
      solution.bindings.lookup? 7 = none := by
    simp only [Solution.looped] at bound
    split at bound
    · next v at_zero at_seven => exact ⟨v, at_zero, at_seven⟩
    · cases bound
  obtain ⟨compiled, found, -, -, instances, cells, fresh, -⟩ := solutions_self_consistent
    Program.built_looped named (by simp [Term.Canonical, Term.AllFunctors, Term.AllFunctorsList])
      attempting
    Context.canonical_looped (fun _ ↦ id) searched
  obtain rfl : compiled = .looped := (Option.some.inj found).symm
  obtain ⟨σ, head⟩ := instances _ rfl
  have vars : CompiledRule.looped.rule.vars = [7, 0] := Rule.vars_looped
  obtain ⟨address, cell, -, left_out, -⟩ := cells 7 (vars ▸ List.mem_cons_self)
  refine ⟨⟨Program.built_looped, named, Context.canonical_looped⟩, machine, solution,
    last, v, address,
    attempting, searched, by simpa using head, at_zero, ?_, at_seven, cell, left_out.1 at_seven⟩
  rw [← vars]
  exact fresh v (.inr ⟨0, _, at_zero, by simp⟩)

end HornMachine
