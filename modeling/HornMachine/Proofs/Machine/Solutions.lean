import HornMachine.Proofs.Machine.Answers

/-!
# Solutions

When the attempted rule is left, its head and its variables are read from the heap, with common
names for unbound cells. Main statement: on an acyclic heap the instances of the solution are
exactly those of the branch, and in any case its head has the values that the branch gives the
attempt's arguments.
-/

namespace HornMachine

open Code (Meaning Disciplined Shape Total)

variable {D : Type} [Domain D] {trial : Trial} {context : Context}

namespace Exec

section Reading

variable {admits : Functor → Prop} {heap : Heap} (formed : heap.Formed admits 0)

include formed

private theorem readsRaw_readTerms {addresses : List Address} {terms : List Term}
    {names later : VarNames}
    (proper : names.Proper heap) (ended : readTerms heap addresses names = .ok (terms, later)) :
    heap.ReadsRaw admits addresses terms names later := by
  induction addresses generalizing names terms with
  | nil =>
    cases ended
    exact .nil proper
  | cons address addresses ih =>
    simp only [readTerms] at ended
    cases read : heap.extractNamed address names with
    | mk result middle =>
      rw [read] at ended
      obtain ⟨term, rfl, rest⟩ := Except.bind_eq_ok.1 ended
      obtain ⟨⟨others, last⟩, others_read, rest⟩ := Except.bind_eq_ok.1 rest
      cases rest
      have first := Heap.readsRaw_extractNamed formed proper read
      exact first.cons (ih first.proper others_read)

/-- On an acyclic heap the bindings of all variables are read. -/
theorem readsRaw_readBindings (acyclic : heap.Acyclic) {answer : Bank} {slots : List (Var × Nat)}
    (held : ∀ slot ∈ slots, ∃ address : Nat, answer[slot.2]? = some (some address) ∧
      address < heap.size)
    {names : VarNames} (proper : names.Proper heap) {bindings result : Bindings}
    (ended : readBindings heap answer slots names bindings = .ok result) :
    ∃ addresses terms later, heap.ReadsRaw admits addresses terms names later ∧
      terms.length = slots.length ∧
      result.entries = ((slots.map Prod.fst).zip terms).reverse ++ bindings.entries ∧
      addresses.map some = slots.map fun slot ↦ (answer[slot.2]?).getD none := by
  induction slots generalizing names bindings with
  | nil =>
    cases ended
    exact ⟨[], [], names, .nil proper, rfl, rfl, rfl⟩
  | cons slot slots ih =>
    obtain ⟨v, index⟩ := slot
    obtain ⟨⟨address, here, inside⟩, others⟩ := List.forall_mem_cons.1 held
    obtain ⟨θ, solution⟩ := (formed.acyclic_iff Term).1 acyclic
    obtain ⟨term, middle, read⟩ := formed.exists_extractNamed solution inside names
    simp only [readBindings, here, read] at ended
    have first := Heap.readsRaw_extractNamed formed proper read
    obtain ⟨addresses, terms, later, reads, length, entries, same⟩ := ih others first.proper ended
    refine ⟨address :: addresses, term :: terms, later, first.cons reads, by simp [length], ?_, ?_⟩
    · rw [entries]
      simp [Bindings.bind]
    · rw [List.map_cons, List.map_cons, same, here]
      rfl

end Reading

end Exec

/-- How a solution was read: its head at the arguments of the attempt, and its bindings in slots
that hold a cell for each variable. -/
structure Trial.Captures (trial : Trial) (heap : Heap) (slots : Bank) (solution : Solution) :
    Prop where
  inside : ∀ address ∈ trial.entry.arguments, address < heap.size
  full : ∀ index < trial.compiled.frameSize, index ∈ slots.filled
  bounded : slots.Bounded heap.size
  read : ∃ args names, Exec.readTerms heap trial.entry.arguments
      (VarNames.reserving (trial.compiled.slots.map Prod.fst)) = .ok (args, names) ∧
    solution.head = Term.apply trial.entry.head.symbol args ∧
    Exec.readBindings heap slots trial.compiled.slots names .empty = .ok solution.bindings

/-- Every variable has a cell. -/
theorem Trial.Captures.held {heap : Heap} {slots : Bank} {solution : Solution}
    (captures : trial.Captures heap slots solution)
    (numbered : trial.compiled.slots = trial.compiled.rule.vars.zipIdx) {slot : Var × Nat}
    (member : slot ∈ trial.compiled.slots) :
    ∃ address : Nat, slots[slot.2]? = some (some address) ∧ address < heap.size := by
  rw [numbered] at member
  have lower : slot.2 < trial.compiled.frameSize := by
    rw [CompiledRule.frameSize, numbered, List.length_zipIdx]
    simpa using List.snd_lt_of_mem_zipIdx member
  obtain ⟨address, here⟩ := captures.full slot.2 lower
  exact ⟨address, here, captures.bounded slot.2 address here⟩

/-- The values of full slots are those of what they hold. -/
theorem map_range_of_agrees {slots : Bank} {count : Nat} {addresses : List Address}
    (held : addresses.map some = (List.range count).map fun index ↦ (slots[index]?).getD none)
    {θ : Valuation D} {η : Nat → D} (agrees : slots.Agrees θ η) :
    (List.range count).map η = addresses.map θ := by
  rw [Bank.map_values held θ]
  refine List.map_congr_left fun index member ↦ ?_
  obtain ⟨address, -, same⟩ := List.mem_map.1 (held ▸ List.mem_map.2 ⟨index, member, rfl⟩)
  have here : slots[index]? = some (some address) := by
    cases found : slots[index]? with
    | none => simp [found] at same
    | some entry => simpa [found] using same.symm
  rw [agrees index address here, Bank.values_of_getElem? here]

/-- On an acyclic heap the solution has the same instances as the heap. -/
theorem Trial.Captures.exists_emits {heap : Heap} {slots : Bank} {solution : Solution}
    (captures : trial.Captures heap slots solution)
    (numbered : trial.compiled.slots = trial.compiled.rule.vars.zipIdx)
    (formed : heap.Formed trial.admits 0)
    (acyclic : heap.Acyclic) (rule : solution.rule = trial.entry.rule) :
    ∃ args values : List Term,
      trial.Emits solution (args.map Term.collapse) (values.map Term.collapse) ∧
      (∀ raw ∈ args ++ values, raw.AllFunctors trial.admits) ∧
      {an : Instance D | ∃ θ η, heap.Solution θ ∧ slots.Agrees θ η ∧ an =
        ⟨[], trial.entry.arguments.map θ, (List.range trial.compiled.frameSize).map η⟩} =
        Instance.solved D args values := by
  obtain ⟨args, names, read, head, bound⟩ := captures.read
  obtain ⟨raws, rfl, raw_kinds, reads⟩ :=
    Exec.readsRaw_readTerms formed (VarNames.proper_reserving _ _) read
  obtain ⟨addresses, terms, last, ⟨others, rfl, other_kinds, more⟩, length, entries, same⟩ :=
    Exec.readsRaw_readBindings formed acyclic (fun _ ↦ captures.held numbered) reads.proper bound
  have at_slots : addresses.map some = (List.range trial.compiled.frameSize).map
      fun index ↦ (slots[index]?).getD none := by
    have indices : trial.compiled.slots.map Prod.snd = List.range trial.compiled.frameSize := by
      rw [CompiledRule.frameSize, numbered, List.zipIdx_map_snd, List.length_zipIdx,
        List.range_eq_range']
    rw [same, ← indices, List.map_map]
    rfl
  refine ⟨raws, others, ⟨rule, head, ?_, ?_, ?_⟩, List.forall_mem_append.2 ⟨raw_kinds, other_kinds⟩,
    ?_⟩
  · rw [entries, numbered, List.zipIdx_map_fst]
    exact List.append_nil _
  · rw [length, numbered, List.length_zipIdx]
  · obtain ⟨θ, solution, -⟩ := more.proper.exists_solution formed acyclic Term.var
    have reserved : last.reserved = Std.TreeSet.ofList trial.compiled.rule.vars := by
      rw [more.keeps.reserved, reads.keeps.reserved, numbered, List.zipIdx_map_fst]
      rfl
    rw [← List.map_append]
    intro term member v occurs known
    obtain ⟨raw, among, rfl⟩ := List.mem_map.1 member
    rw [Term.mem_occurrences_collapse] at occurs
    obtain ⟨address, named⟩ : ∃ address : Nat, last.names[address]? = some v := by
      rcases List.mem_append.1 among with first | later
      · obtain ⟨address, named⟩ := reads.exists_named solution first occurs
        exact ⟨address, more.keeps.kept address v named⟩
      · exact more.exists_named solution later occurs
    refine more.proper.fresh address v named ?_
    rw [reserved, Std.TreeSet.mem_ofList]
    simpa using known
  · ext an
    constructor
    · rintro ⟨θ, η, solution, agrees, rfl⟩
      obtain ⟨β, stands⟩ := more.proper.exists_stands θ
      refine ⟨β, ?_⟩
      rw [map_range_of_agrees at_slots agrees, more.eq θ solution β stands,
        reads.eq θ solution β (more.keeps.stands stands)]
    · rintro ⟨β, rfl⟩
      obtain ⟨θ, solution, stands⟩ := more.proper.exists_solution formed acyclic β
      obtain ⟨η, agrees⟩ := slots.exists_agrees θ
      refine ⟨θ, η, solution, agrees, ?_⟩
      rw [map_range_of_agrees at_slots agrees, more.eq θ solution β stands,
        reads.eq θ solution β (more.keeps.stands stands)]

/-- What a solution says of the branch it was found in, and of the machine that found it. Terms are
read with an atom for each structure without arguments. -/
structure Trial.Emission (D : Type) [Domain D] (trial : Trial) (machine : Machine)
    (solution : Solution) (set : Set (Instance D)) : Prop where
  entry : machine.entry = some trial.entry
  rule : solution.rule = trial.entry.rule
  read : ∃ raws : List Term, solution.head =
      Term.apply trial.entry.head.symbol (raws.map Term.collapse) ∧
    (∀ raw ∈ raws, raw.AllFunctors trial.admits) ∧
    ∀ an ∈ set, an.goals = [] ∧ ∃ β, an.head = raws.map (Term.eval β)
  captured : ∃ slots : Bank, machine.frames[0]?.map Frame.slots = some slots ∧
    trial.Captures machine.memory.heap slots solution ∧
    ∀ θ : Valuation D, machine.memory.heap.Solution θ →
      ⟨[], trial.entry.arguments.map θ,
        (List.range trial.compiled.frameSize).map (slots.values θ)⟩ ∈ set
  formed : machine.memory.heap.Formed trial.admits 0
  acyclic : Nonempty (Sized D) → set.Nonempty → machine.memory.heap.Acyclic
  full : machine.memory.heap.Acyclic → ∃ args values : List Term,
    trial.Emits solution (args.map Term.collapse) (values.map Term.collapse) ∧
    (∀ raw ∈ args ++ values, raw.AllFunctors trial.admits) ∧ set = Instance.solved D args values

/-- Only the attempt, the frames and the memory matter. -/
theorem Trial.Emission.congr {machine later : Machine} {solution : Solution}
    {set : Set (Instance D)}
    (emission : trial.Emission D machine solution set) (entry : later.entry = machine.entry)
    (frames : later.frames = machine.frames) (memory : later.memory = machine.memory) :
    trial.Emission D later solution set where
  entry := entry.trans emission.entry
  rule := emission.rule
  read := emission.read
  captured := by
    rw [frames, memory]
    exact emission.captured
  formed := memory ▸ emission.formed
  acyclic := memory ▸ emission.acyclic
  full := memory ▸ emission.full

/-- If the heap has a solution, the branch has an instance. -/
theorem Trial.Emission.nonempty {machine : Machine} {solution : Solution} {set : Set (Instance D)}
    (emission : trial.Emission D machine solution set) {θ : Valuation D}
    (solved : machine.memory.heap.Solution θ) : set.Nonempty := by
  obtain ⟨slots, -, -, branch⟩ := emission.captured
  exact ⟨_, branch θ solved⟩

namespace Exec

variable {machine later : Machine}

theorem capture_eq_ok {compiled : CompiledRule} {solution : Solution} {entry : Entry}
    (at_entry : machine.entry = some entry)
    (ended : capture compiled machine = .ok solution later) :
    ∃ args names, readTerms machine.memory.heap entry.arguments
        (VarNames.reserving (compiled.slots.map Prod.fst)) = .ok (args, names) ∧
      readBindings machine.memory.heap (machine.answer.getD #[]) compiled.slots names .empty =
        .ok solution.bindings ∧
      solution.rule = entry.rule ∧ solution.head = Term.apply entry.head.symbol args ∧
      later = { machine with answer := none } := by
  simp only [capture, bind_apply, get_apply, set_apply, at_entry] at ended
  obtain ⟨⟨args, names⟩, middle, reading, rest⟩ := bind_eq_ok.1 ended
  obtain ⟨read, rfl⟩ := lift_eq_ok.1 reading
  obtain ⟨bindings, last, reading, rest⟩ := bind_eq_ok.1 rest
  obtain ⟨bound, rfl⟩ := lift_eq_ok.1 reading
  cases rest
  exact ⟨args, names, read, bound, rfl, rfl, by rw [← at_entry]⟩

end Exec

namespace Machine

variable {machine later : Machine} {view : View}

/-- The instances of a branch in which the attempted rule was left. -/
theorem mem_instances_left {memory : Memory} {registers slots : Bank} {mode : Mode}
    {an : Instance D} :
    an ∈ Situation.instances trial ⟨⟨memory, [.deallocate, .proceed], registers, slots, mode, 0⟩,
      []⟩ ↔
      ∃ θ η, memory.heap.Solution θ ∧ slots.Agrees θ η ∧
        an = ⟨[], trial.entry.arguments.map θ, (List.range trial.compiled.frameSize).map η⟩ := by
  constructor
  · rintro ⟨θ, η, first, others, values, said, ⟨rfl, rfl⟩, rfl⟩
    obtain ⟨solution, agrees, meaning⟩ := (Point.says_between rfl).1 said
    exact ⟨θ, values, solution, agrees, by rw [show first = [] from meaning]; rfl⟩
  · rintro ⟨θ, η, solution, agrees, rfl⟩
    exact ⟨θ, η, [], [], η, (Point.says_between rfl).2 ⟨solution, agrees, rfl⟩, ⟨rfl, rfl⟩, rfl⟩

/-- A frame whose slots are full holds just what counts. -/
theorem slots_of_grown {frames smaller : Array Frame} (grown : Frame.Grown frames smaller)
    {number : Nat} {slots : Bank} (here : smaller[number]?.map Frame.slots = some slots)
    (full : ∀ index < slots.size, index ∈ slots.filled) :
    frames[number]?.map Frame.slots = some slots := by
  obtain ⟨frame, found, rfl⟩ := Option.map_eq_some_iff.1 here
  obtain ⟨larger, wider, there⟩ := grown.kept number frame found
  rw [there, Option.map_some, eq_of_extends_full wider full]

/-- The attempted rule is left, and its solution is read. -/
theorem emission_capture (runs : trial.Runs context) (at_entry : machine.entry = some trial.entry)
    {slots : Bank} (inside : ∀ address ∈ trial.entry.arguments, address < machine.memory.heap.size)
    (first : machine.frames[0]?.map Frame.slots = some slots)
    (formed : machine.memory.heap.Formed trial.admits 0)
    (sized : slots.size = trial.compiled.frameSize)
    (bounded : slots.Bounded machine.memory.heap.size)
    (full : ∀ index < slots.size, index ∈ slots.filled) (answer : machine.answer = some slots)
    {solution : Solution} (ended : Exec.capture trial.compiled machine = .ok solution later)
    (registers : Bank) (mode : Mode) :
    trial.Emission D machine solution (Situation.instances trial
      ⟨⟨machine.memory, [.deallocate, .proceed], registers, slots, mode, 0⟩, []⟩) := by
  obtain ⟨args, names, read, bound, rule, head, -⟩ := Exec.capture_eq_ok at_entry ended
  rw [answer, Option.getD_some] at bound
  have captures : trial.Captures machine.memory.heap slots solution :=
    ⟨inside, fun index lower ↦ full index (sized ▸ lower), bounded, args, names, read, head, bound⟩
  obtain ⟨raws, rfl, raw_kinds, reads⟩ :=
    Exec.readsRaw_readTerms formed (VarNames.proper_reserving _ _) read
  refine ⟨at_entry, rule, ⟨raws, head, raw_kinds, fun an member ↦ ?_⟩,
    ⟨slots, first, captures, fun θ solution ↦ ?_⟩, formed, ?_, fun acyclic ↦ ?_⟩
  · obtain ⟨θ, η, solution, -, rfl⟩ := mem_instances_left.1 member
    obtain ⟨β, stands⟩ := reads.proper.exists_stands θ
    exact ⟨rfl, β, reads.eq θ solution β stands⟩
  · exact mem_instances_left.2 ⟨θ, _, solution, fun _ _ ↦ Bank.values_of_getElem?, rfl⟩
  · rintro ⟨sized⟩ ⟨an, member⟩
    obtain ⟨θ, η, solution, -, rfl⟩ := mem_instances_left.1 member
    exact solution.acyclic
  · obtain ⟨args, values, emits, kinds, same⟩ :=
      captures.exists_emits (D := D) (runs.lawful.slots runs.found) formed acyclic rule
    exact ⟨args, values, emits, kinds, (Set.ext fun _ ↦ mem_instances_left).trans same⟩

/-- The attempted rule is left with a solution. -/
theorem emits_proceed (fits : machine.Fits trial view) (runs : trial.Runs context) {rule : RuleId}
    {compiled other : CompiledRule} {slots : Bank} {layers : List Layer} {bound : Nat}
    {success : Bool} (found : trial.program.rule? rule = some compiled)
    (formed : machine.memory.heap.Formed trial.admits 0) (sized : slots.size = compiled.frameSize)
    (bounded : slots.Bounded machine.memory.heap.size)
    (full : ∀ index < slots.size, index ∈ slots.filled) (halts : machine.continuation = .halt)
    (stack : trial.Stack view.frames machine.memory.heap.size bound rule
      machine.continuation machine.environment layers)
    (answer : machine.continuation = .halt →
      machine.answer = some slots ∧ view.frames[0]?.map Frame.slots = some slots)
    (same : other = compiled)
    (ended : Exec.execute context other .proceed machine.begun = .ok success later) :
    success = true ∧ later.status = .succeeded ∧ later.choices = machine.choices ∧
      later.Fits trial { view with current := none } ∧
      ∃ solution, later.pending = some solution ∧
        trial.Emission D later solution (Situation.instances trial
          ⟨⟨machine.memory, [.deallocate, .proceed], machine.registers, slots, machine.mode, 0⟩,
            layers⟩) := by
  subst same
  rw [halts] at stack
  cases stack
  cases runs.found.symm.trans found
  simp only [Exec.execute, Exec.proceed, bind_apply, get_apply] at ended
  rw [show machine.begun.continuation = .halt from halts] at ended
  simp only [bind_apply] at ended
  cases captured : Exec.capture trial.compiled machine.begun with
  | error fault last => simp [captured] at ended
  | ok solution last =>
    have entry : machine.begun.entry = some trial.entry := fits.entry
    obtain ⟨-, -, -, -, -, -, rfl⟩ := Exec.capture_eq_ok entry captured
    simp only [captured, modify_apply, pure_apply, EStateM.Result.ok.injEq] at ended
    obtain ⟨rfl, rfl⟩ := ended
    refine ⟨rfl, rfl, rfl, fits.goOn rfl rfl (.refl _) fits.sizes fits.frames (.refl _) (by simp),
      solution, rfl, ?_⟩
    obtain ⟨answered, first⟩ := answer halts
    have emission :=
      emission_capture (D := D) runs entry fits.inside (slots_of_grown fits.frames first full)
      formed sized bounded full answered captured machine.registers machine.mode
    exact emission.congr rfl rfl rfl

end Machine

end HornMachine
