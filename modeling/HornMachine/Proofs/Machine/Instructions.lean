import HornMachine.Proofs.Machine.Operations

/-!
# Instructions lead from point to point

Main statement: an instruction other than those that open or leave a frame, call, or go on elsewhere
leads from a point of the machine to a point that says the same, or it fails at a point that says
nothing. There is one lemma for each instruction, first about points and then about the machine.
-/

namespace HornMachine

namespace Point

open Code (Meaning Disciplined Shape Alike)
open Heap (extend extend_of_lt extend_add)

section

variable {D : Type} [Domain D] {exact : Prop} {shape : Shape} {point : Point} {registers : Set Nat}
  {building : Bool} {code : Code}

theorem Valid.formed_zero (valid : point.Valid shape registers building)
    (between : point.missing = 0) : point.memory.heap.Formed shape.admits 0 := by
  have formed := valid.formed
  rw [between] at formed
  cases mode : point.mode with
  | read next => rwa [mode] at formed
  | write => rwa [mode] at formed

/-- The mode does not matter between structures. -/
theorem formed_between (shape : Shape) {heap : Heap} (formed : heap.Formed shape.admits 0)
    (mode : Mode) :
    heap.Formed shape.admits (match mode with | .read _ => 0 | .write => 0) := by
  cases mode <;> exact formed

/-- The slot that the first instruction of a point fills, if any, is filled at the next point. -/
def Fills (point next : Point) : Prop :=
  ∀ instruction ∈ point.code.head?, ∀ slot ∈ instruction.slot?, slot ∈ next.slots.filled

private theorem fills_of_plain {instruction : Instruction}
    (front : point.code = instruction :: code)
    (plain : instruction.slot? = none) (next : Point) : point.Fills next := by
  intro first member slot filled
  rw [front] at member
  cases member
  rw [plain] at filled
  cases filled

private theorem fills_of_place {instruction : Instruction} {place : Place} {address : Address}
    {next : Point}
    (front : point.code = instruction :: code) (fills : instruction.slot? = place.slot?)
    (room : point.Room place) (slots : next.slots = (point.put address place).slots) :
    point.Fills next := by
  intro first member slot filled
  rw [front] at member
  cases member
  rw [fills] at filled
  rw [slots, filled_put room]
  cases place with
  | register index => cases filled
  | slot index =>
    cases filled
    exact Set.mem_insert _ _

/-- What an instruction that succeeds, or fails, does to a point. -/
def Outcome (D : Type) [Domain D] (exact : Prop) (shape : Shape) (point next : Point) : Bool → Prop
  | true => point.Leads D shape next ∧ next.code = point.code.tail ∧ point.Fills next
  | false => next.memory.Rewinds point.memory ∧ next.slots.Extends point.slots ∧
      (exact → ∀ (θ : Valuation D) η goals, ¬point.Says θ η goals)

/-- What is said between structures. -/
theorem says_between (between : point.missing = 0) {θ : Valuation D} {η : Nat → D}
    {goals : List (Task D)} :
    point.Says θ η goals ↔ point.memory.heap.Solution θ ∧ point.slots.Agrees θ η ∧
      Meaning η point.code (point.registers.values θ) [] goals := by
  have none_pending : point.pending.map θ = [] := by
    rw [pending, between, addresses_zero, List.map_nil]
  constructor
  · rintro ⟨solution, agrees, meaning⟩
    rw [none_pending] at meaning
    exact ⟨solution, agrees, meaning⟩
  · rintro ⟨solution, agrees, meaning⟩
    exact ⟨solution, agrees, by rwa [none_pending]⟩

/-- A point from which nothing has to be found for new cells. -/
theorem Same.of_iff {later : Point}
    (said_both : ∀ (θ : Valuation D) η goals, later.Says θ η goals ↔ point.Says θ η goals) :
    point.Same D later :=
  ⟨fun θ η goals ↦ (said_both θ η goals).1,
    fun θ η goals said ↦ ⟨θ, fun _ _ ↦ rfl, (said_both θ η goals).2 said⟩⟩

/-! ### Tests -/

/-- An instruction that tests the heap and changes no place. Arguments that are still to be matched
are in the heap already. -/
theorem outcome_test (valid : point.Valid shape registers building) {memory : Memory} {mode : Mode}
    {missing : Nat} {condition : Valuation D → Prop} {success : Bool}
    (tested : Memory.Tested exact shape.admits point.memory memory condition success)
    (rest : point.code.tail = code) (plain : ∀ next, point.Fills next)
    (later : Disciplined shape point.slots.size code registers point.slots.filled false missing)
    (in_heap : ∀ address : Nat, address ∈ pending { point with memory, code, mode, missing } →
      address < point.memory.heap.size)
    (matching : missing ≠ 0 → ∃ next : Nat, mode = .read next ∧
      next + missing ≤ point.memory.heap.size)
    (front : ∀ (θ : Valuation D) η goals, point.slots.Agrees θ η →
      (Meaning η point.code (point.registers.values θ) (point.pending.map θ) goals ↔
        condition θ ∧ Meaning η code (point.registers.values θ)
          ((pending { point with memory, code, mode, missing }).map θ) goals)) :
    point.Outcome D exact shape { point with memory, code, mode, missing } success := by
  cases success with
  | false =>
    obtain ⟨rfl, never⟩ := tested
    exact ⟨.refl _, .refl _, fun exact θ η goals said ↦
      never exact θ said.solution ((front θ η goals said.agrees).1 said.meaning).1⟩
  | true =>
    have kept := tested.rewinds.heap
    refine ⟨⟨⟨registers, false, ⟨later, ?_, valid.registers.mono kept, valid.slots.mono kept, ?_,
      by simp⟩⟩, ⟨fun θ η goals said ↦ ?_, fun θ η goals said ↦ ?_⟩, tested.rewinds,
        .refl _⟩, rest.symm,
      plain _⟩
    · have formed := tested.formed
      cases mode with
      | read next => exact formed
      | write =>
        by_cases none_missing : missing = 0
        · subst none_missing
          exact formed
        · obtain ⟨next, reading, -⟩ := matching none_missing
          cases reading
    · intro next reading some_missing
      obtain ⟨other, mode_is, inside⟩ := matching some_missing
      cases mode_is.symm.trans reading
      exact Nat.le_trans inside kept
    · obtain ⟨solution, holds⟩ := tested.back θ said.solution
      exact ⟨solution, said.agrees, (front θ η goals said.agrees).2 ⟨holds, said.meaning⟩⟩
    · obtain ⟨holds, meaning⟩ := (front θ η goals said.agrees).1 said.meaning
      obtain ⟨θ', same, solution⟩ := tested.forth θ said.solution holds
      refine ⟨θ', same, solution, said.agrees.congr valid.slots same, ?_⟩
      have pendings : (pending { point with memory, code, mode, missing }).map θ =
          (pending { point with memory, code, mode, missing }).map θ' :=
        List.map_congr_left fun address member ↦ (same address (in_heap address member)).symm
      rw [← pendings]
      exact meaning.congr later (valid.alike same)

/-! ### Between structures -/

private theorem leads_getVariable (valid : point.Valid shape registers building) {place : Place}
    {arg : Nat} (front : point.code = .getVariable place arg :: code) {address : Nat}
    (held : point.registers[arg]? = some (some address)) (room : point.Room place) :
    point.Leads D shape { point.put address place with code } := by
  obtain ⟨between, read, fillable, later⟩ := valid.disciplined_of_front front
  obtain ⟨found, here, inside⟩ := valid.registers arg read
  cases here.symm.trans held
  refine ⟨⟨place.registersWith registers, false, ⟨?_, ?_, ?_, ?_, ?_, ?_⟩⟩,
    .of_iff fun θ η goals ↦ ?_, .refl _, extends_put fillable⟩
  · rw [size_put, filled_put room]
    exact between ▸ later
  · exact valid.formed
  · exact holds_put valid.registers room inside
  · exact bounded_put valid.slots inside
  · exact fun next mode missing ↦ absurd between missing
  · simp
  · refine (says_between (by exact between)).trans (Iff.trans ?_ (says_between between).symm)
    rw [front, Meaning, Bank.values_of_getElem? held]
    exact and_congr_right fun _ ↦
      agrees_put room fillable fun ρ ↦ Meaning η code ρ [] goals

private theorem leads_putValue (valid : point.Valid shape registers building)
    {place : Place} {arg : Nat} (front : point.code = .putValue place arg :: code) {address : Nat}
    (has : point.Has address place) (room : arg < point.registers.size) :
    point.Leads D shape { point with registers := point.registers.fill arg address, code } := by
  obtain ⟨between, filled, later⟩ := valid.disciplined_of_front front
  have inside := has.lt valid filled
  refine ⟨⟨insert arg registers, false,
    ⟨between ▸ later, valid.formed, ?_, valid.slots, ?_, by simp⟩⟩,
    .of_iff fun θ η goals ↦ ?_, .refl _, .refl _⟩
  · exact valid.registers.fill room inside
  · exact fun next mode missing ↦ absurd between missing
  · refine (says_between (by exact between)).trans (Iff.trans ?_ (says_between between).symm)
    rw [front]
    refine and_congr_right fun _ ↦ and_congr_right fun agrees ↦ ?_
    rw [Meaning, has.value agrees, Bank.values_fill room]

/-! ### New cells between structures -/

/-- New cells between structures: what the code says is said with terms for them, and no other
term changes. -/
theorem Same.of_extend {later : Point} (valid : point.Valid shape registers building)
    (between : point.missing = 0)
    (back : ∀ (θ : Valuation D) η goals, later.Says θ η goals → point.Says θ η goals)
    (forth : ∀ (θ : Valuation D) η goals, Meaning η point.code (point.registers.values θ) [] goals →
      ∃ terms, ∀ θ', θ' = extend θ point.memory.heap.size terms → point.memory.heap.Solution θ' →
      point.slots.Agrees θ' η →
        Alike registers (point.registers.values θ) (point.registers.values θ') →
        later.Says θ' η goals) : point.Same D later := by
  refine ⟨back, fun θ η goals said ↦ ?_⟩
  obtain ⟨solution, agrees, meaning⟩ := (says_between between).1 said
  obtain ⟨terms, found⟩ := forth θ η goals meaning
  have same (address : Nat) (inside : address < point.memory.heap.size) :
      extend θ point.memory.heap.size terms address = θ address := extend_of_lt inside
  exact ⟨_, same, found _ rfl (solution_congr (valid.formed_zero between) same solution)
    (agrees.congr valid.slots same) (valid.alike same)⟩

private theorem leads_putVariable (valid : point.Valid shape registers building)
    {place : Place} {arg : Nat}
    (front : point.code = .putVariable place arg :: code) (room : point.Room place)
    (room_arg : arg < (point.put point.memory.heap.size place).registers.size) :
    point.Leads D shape
      { point.put point.memory.heap.size place with
        memory := { point.memory with heap := point.memory.heap.pushVar }
        registers := (point.put point.memory.heap.size place).registers.fill arg
          point.memory.heap.size
        code } := by
  obtain ⟨between, fillable, later⟩ := valid.disciplined_of_front front
  have formed := valid.formed_zero between
  have grown : point.memory.heap.size < point.memory.heap.pushVar.size := by simp
  refine ⟨⟨insert arg (place.registersWith registers), false, ⟨?_, ?_, ?_, ?_, ?_, by simp⟩⟩,
    .of_extend valid between ?_ ?_, (Memory.Rewinds.refl _).push _, extends_put fillable⟩
  · rw [size_put, filled_put room]
    exact between ▸ later
  · rw [show (point.put point.memory.heap.size place).missing = 0 from between]
    exact formed_between shape formed.pushVar _
  · exact (holds_put (valid.registers.mono (Nat.le_of_lt grown)) room grown).fill room_arg grown
  · exact bounded_put (valid.slots.mono (Nat.le_of_lt grown)) grown
  · exact fun next mode missing ↦ absurd between missing
  · intro θ η goals said
    obtain ⟨solution, agrees, meaning⟩ := (says_between (by exact between)).1 said
    refine (says_between between).2 ⟨Heap.solution_pushVar.1 solution, ?_⟩
    rw [front, Meaning]
    rw [Bank.values_fill room_arg] at meaning
    obtain ⟨agrees, received⟩ := (agrees_put room fillable
      fun ρ ↦ Meaning η code (Function.update ρ arg (θ point.memory.heap.size)) [] goals).1
        ⟨agrees, meaning⟩
    exact ⟨agrees, _, received⟩
  · intro θ η goals meaning
    rw [front] at meaning
    obtain ⟨value, received⟩ := meaning
    refine ⟨[value], fun θ' extended solution agrees alike ↦ ?_⟩
    have own : θ' point.memory.heap.size = value := by
      rw [extended]
      exact extend_add 0
    have received : place.Receives (point.registers.values θ') η value fun ρ ↦
        Meaning η code (Function.update ρ arg value) [] goals := alike.receives
      (fun _ _ alike meaning ↦ meaning.congr later (alike.update arg value)) received
    rw [← own] at received
    obtain ⟨agrees, meaning⟩ := (agrees_put room fillable _).2 ⟨agrees, received⟩
    refine (says_between (by exact between)).2 ⟨Heap.solution_pushVar.2 solution, agrees, ?_⟩
    rw [Bank.values_fill room_arg]
    exact meaning

private theorem leads_putConstant (valid : point.Valid shape registers building)
    {constant : Constant} {arg : Nat} (front : point.code = .putConstant constant arg :: code)
    (room : arg < point.registers.size) :
    point.Leads D shape
      { point with
        memory := { point.memory with heap := point.memory.heap.push constant.cell }
        registers := point.registers.fill arg point.memory.heap.size
        code } := by
  obtain ⟨between, later⟩ := valid.disciplined_of_front front
  have formed := valid.formed_zero between
  have grown : point.memory.heap.size < (point.memory.heap.push constant.cell).size := by simp
  refine ⟨⟨insert arg registers, false, ⟨between ▸ later, ?_, ?_, ?_, ?_, by simp⟩⟩,
    .of_extend valid between ?_ ?_, (Memory.Rewinds.refl _).push _, .refl _⟩
  · rw [between]
    exact formed_between shape (formed.push (simple_constant _ constant)) _
  · exact (valid.registers.mono (Nat.le_of_lt grown)).fill room grown
  · exact valid.slots.mono (Nat.le_of_lt grown)
  · exact fun next mode missing ↦ absurd between missing
  · intro θ η goals said
    obtain ⟨solution, agrees, meaning⟩ := (says_between (by exact between)).1 said
    obtain ⟨solution, own⟩ := Heap.solution_push.1 solution
    rw [Bank.values_fill room, (holds_constant constant θ _).1 own] at meaning
    exact (says_between between).2 ⟨solution, agrees, front ▸ meaning⟩
  · intro θ η goals meaning
    rw [front, Meaning] at meaning
    refine ⟨[constant.value], fun θ' extended solution agrees alike ↦ ?_⟩
    have own : θ' point.memory.heap.size = constant.value := by
      rw [extended]
      exact extend_add 0
    refine (says_between (by exact between)).2
      ⟨Heap.solution_push.2 ⟨solution, (holds_constant constant θ' _).2 own⟩, agrees, ?_⟩
    rw [Bank.values_fill room, own]
    exact meaning.congr later (alike.update arg _)

/-- The terms of a structure begun at the end of the heap, with its arguments. -/
theorem solution_structure {heap : Heap} {functor : Functor} {θ θ' : Valuation D} {args : List D}
    (count : args.length = functor.arity) (solution : heap.Solution θ')
    (extended : θ' = extend θ heap.size
      (Domain.struct functor.symbol args :: Domain.struct functor.symbol args :: args)) :
    (heap.pushStructure functor).Solution θ' ∧
      (addresses (heap.size + 2) functor.arity).map θ' = args ∧
      θ' heap.size = Domain.struct functor.symbol args := by
  have arguments : (addresses (heap.size + 2) functor.arity).map θ' = args := by
    refine List.ext_getElem (by simp [addresses, count]) fun index lower upper ↦ ?_
    have place : heap.size + 2 + index = heap.size + (index + 2) := by omega
    simp only [addresses, List.getElem_map, List.getElem_range]
    rw [place, extended, extend_add]
    simp [upper]
  have own : θ' heap.size = Domain.struct functor.symbol args := by
    rw [extended]
    exact extend_add 0
  have header : θ' (heap.size + 1) = Domain.struct functor.symbol args := by
    rw [extended]
    exact extend_add 1
  refine ⟨Heap.solution_pushStructure.2 ⟨solution, own.trans header.symm, ?_⟩, arguments, own⟩
  rw [header, Heap.arguments_eq_addresses, arguments]

/-- The arguments of a structure just begun are to come at the end of the heap. -/
theorem pending_structure {later : Point} {functor : Functor} (header : Nat)
    (mode : later.mode = .write) (size : later.memory.heap.size = header + 1)
    (missing : later.missing = functor.arity) :
    later.pending = Heap.arguments functor header := by
  rw [pending, start, mode, missing, Heap.arguments_eq_addresses, ← size]

private theorem leads_putStructure (valid : point.Valid shape registers building)
    {functor : Functor}
    {register : Nat} (front : point.code = .putStructure functor register :: code)
    (room : register < point.registers.size) :
    point.Leads D shape
      { point with
        memory := { point.memory with heap := point.memory.heap.pushStructure functor }
        registers := point.registers.fill register point.memory.heap.size
        mode := .write
        missing := functor.arity
        code } := by
  obtain ⟨between, kind, later⟩ := valid.disciplined_of_front front
  have formed := valid.formed_zero between
  have grown : point.memory.heap.size < (point.memory.heap.pushStructure functor).size := by simp
  refine ⟨⟨insert register registers, true, ⟨later, formed.pushStructure kind, ?_, ?_, by simp,
      by simp⟩⟩, .of_extend valid between ?_ ?_, ((Memory.Rewinds.refl _).push _).push _, .refl _⟩
  · exact (valid.registers.mono (Nat.le_of_lt grown)).fill room grown
  · exact valid.slots.mono (Nat.le_of_lt grown)
  · rintro θ η goals ⟨solution, agrees, meaning⟩
    obtain ⟨solution, own, header⟩ := Heap.solution_pushStructure.1 solution
    refine (says_between between).2 ⟨solution, agrees, ?_⟩
    rw [Bank.values_fill room, own, header,
      pending_structure (point.memory.heap.size + 1) (by rfl) (by simp) (by rfl)] at meaning
    rw [front]
    exact ⟨_, by simp [Heap.arguments], meaning⟩
  · intro θ η goals meaning
    rw [front] at meaning
    obtain ⟨args, count, meaning⟩ := meaning
    refine ⟨Domain.struct functor.symbol args :: Domain.struct functor.symbol args :: args,
      fun θ' extended solution agrees alike ↦ ?_⟩
    obtain ⟨solution, arguments, own⟩ := solution_structure count solution extended
    refine ⟨solution, agrees, ?_⟩
    rw [Bank.values_fill room, own]
    rw [pending_structure (point.memory.heap.size + 1) (by rfl) (by simp) (by rfl),
      Heap.arguments_eq_addresses, arguments]
    exact meaning.congr later (alike.update register _)

/-! ### Beginning to match a structure -/

/-- A free variable is bound to a structure begun at the end of the heap. -/
theorem leads_getStructure_unbound (valid : point.Valid shape registers building)
    {functor : Functor} {arg : Nat} (front : point.code = .getStructure functor arg :: code)
    {address found : Nat} (held : point.registers[arg]? = some (some address))
    (read : point.memory.heap.value address = .ok (found, .unbound)) :
    point.Leads D shape
      { point with
        memory := Memory.assign
          { point.memory with heap := point.memory.heap.pushStructure functor } found
          point.memory.heap.size
        mode := .write
        missing := functor.arity
        code } := by
  obtain ⟨between, readable, kind, later⟩ := valid.disciplined_of_front front
  obtain ⟨_, here, inside⟩ := valid.registers arg readable
  cases here.symm.trans held
  have formed := valid.formed_zero between
  have unbound : point.memory.heap.cells[found]? = some (.ref found) :=
    (Heap.value_eq_ok_iff.1 read).2
  have found_inside := Heap.lt_size_of_getElem? unbound
  have still : (point.memory.heap.pushStructure functor).cells[found]? = some (.ref found) := by
    rw [Heap.getElem?_pushStructure_of_lt functor found_inside, unbound]
  have size : (Memory.assign { point.memory with heap := point.memory.heap.pushStructure functor }
      found point.memory.heap.size).heap.size = point.memory.heap.size + 1 + 1 := by
    simp [Memory.assign]
  have grown : point.memory.heap.size ≤ (Memory.assign
      { point.memory with heap := point.memory.heap.pushStructure functor } found
        point.memory.heap.size).heap.size := by omega
  refine
    ⟨⟨registers, false, ⟨later, ?_, valid.registers.mono grown, valid.slots.mono grown, by simp,
    by simp⟩⟩, .of_extend valid between ?_ ?_,
    (((Memory.Rewinds.refl _).push _).push _).assign _ still, .refl _⟩
  · have target : Memory.Target .off (point.memory.heap.pushStructure functor) found
        point.memory.heap.size := by
      exact ⟨still, .inr ⟨.str (point.memory.heap.size + 1),
        Heap.getElem?_pushStructure_size _ functor, by simp, by simp⟩⟩
    exact (formed.pushStructure kind).assign target
  · rintro θ η goals ⟨solution, agrees, meaning⟩
    obtain ⟨solution, bound⟩ := (Heap.solution_set_ref still).1 solution
    obtain ⟨solution, own, header⟩ := Heap.solution_pushStructure.1 solution
    refine (says_between between).2 ⟨solution, agrees, ?_⟩
    rw [pending_structure (point.memory.heap.size + 1) (by rfl) size (by rfl)] at meaning
    rw [front]
    refine ⟨_, by simp [Heap.arguments], ?_, meaning⟩
    rw [Bank.values_of_getElem? held, (solution.value read).1, bound, own, header]
  · intro θ η goals meaning
    rw [front] at meaning
    obtain ⟨args, count, same, meaning⟩ := meaning
    refine ⟨Domain.struct functor.symbol args :: Domain.struct functor.symbol args :: args,
      fun θ' extended solution agrees alike ↦ ?_⟩
    obtain ⟨later_solution, arguments, own⟩ := solution_structure count solution extended
    refine ⟨(Heap.solution_set_ref still).2 ⟨later_solution, ?_⟩, agrees, ?_⟩
    · have kept : θ' address = θ address := by
        rw [extended]
        exact extend_of_lt inside
      rw [own, ← (solution.value read).1, kept, ← same, Bank.values_of_getElem? held]
    · rw [pending_structure (point.memory.heap.size + 1) (by rfl) size (by rfl),
        Heap.arguments_eq_addresses, arguments]
      exact meaning.congr later alike

/-- A structure that is there is matched from its first argument on. -/
theorem outcome_getStructure_bound (exact : Prop) (valid : point.Valid shape registers building)
    {functor : Functor} {arg : Nat} (front : point.code = .getStructure functor arg :: code)
    {address found header : Nat} {other : Functor}
    (held : point.registers[arg]? = some (some address))
    (read : point.memory.heap.value address = .ok (found, .compound other header)) :
    if other = functor then
      point.Outcome D exact shape
        { point with mode := .read (Heap.argument header 0), missing := functor.arity, code } true
    else point.Outcome D exact shape point false := by
  obtain ⟨between, -, -, later⟩ := valid.disciplined_of_front front
  have formed := valid.formed_zero between
  have at_header := (Heap.value_eq_ok_iff.1 read).2.1
  obtain ⟨-, bound⟩ := formed.functor header other at_header
  have term (θ : Valuation D) (solution : point.memory.heap.Solution θ) : θ address =
      Domain.struct other.symbol ((Heap.arguments other header).map θ) := by
    obtain ⟨same, shown⟩ := solution.value read
    exact same.trans shown
  split
  · next same =>
    subst same
    refine ⟨⟨⟨registers, false, ⟨later, formed, valid.registers, valid.slots, ?_, by simp⟩⟩,
      .of_iff fun θ η goals ↦ ?_, .refl _, .refl _⟩, by rw [front]; rfl, fills_of_plain front rfl _⟩
    · intro next reading _
      cases reading
      simp only [Heap.argument]
      omega
    · refine Iff.trans ⟨fun said ↦ ?_, fun said ↦ ?_⟩ (says_between between).symm
      · refine ⟨said.solution, said.agrees, ?_⟩
        rw [front]
        refine ⟨(Heap.arguments other header).map θ, by simp [Heap.arguments], ?_, said.meaning⟩
        rw [Bank.values_of_getElem? held, term θ said.solution]
      · obtain ⟨solution, agrees, meaning⟩ := said
        rw [front] at meaning
        obtain ⟨args, count, same, meaning⟩ := meaning
        rw [Bank.values_of_getElem? held, term θ solution, Domain.struct_inj] at same
        obtain ⟨-, rfl⟩ := same
        exact ⟨solution, agrees, meaning⟩
  · next different =>
    refine ⟨.refl _, .refl _, fun _ θ η goals said ↦ different ?_⟩
    obtain ⟨solution, agrees, meaning⟩ := (says_between between).1 said
    rw [front] at meaning
    obtain ⟨args, count, same, -⟩ := meaning
    rw [Bank.values_of_getElem? held, term θ solution, Domain.struct_inj] at same
    obtain ⟨symbol, rfl⟩ := same
    rw [List.length_map, Heap.arguments, List.length_map, List.length_range] at count
    cases functor
    cases other
    cases symbol
    cases count
    rfl

/-- A constant is no structure. -/
theorem outcome_getStructure_constant (valid : point.Valid shape registers building)
    {functor : Functor} {arg : Nat} (front : point.code = .getStructure functor arg :: code)
    {address found : Nat} {value : Value} (held : point.registers[arg]? = some (some address))
    (read : point.memory.heap.value address = .ok (found, value))
    (constant : ∀ (θ : Valuation D) args,
      value.stands θ found ≠ Domain.struct functor.symbol args) :
    point.Outcome D exact shape point false := by
  obtain ⟨between, -⟩ := valid.disciplined_of_front front
  refine ⟨.refl _, .refl _, fun _ θ η goals said ↦ ?_⟩
  obtain ⟨solution, agrees, meaning⟩ := (says_between between).1 said
  rw [front] at meaning
  obtain ⟨args, -, same, -⟩ := meaning
  obtain ⟨reached, shown⟩ := solution.value read
  rw [Bank.values_of_getElem? held, reached, shown] at same
  exact constant θ args same

/-! ### Structure arguments -/

private theorem pending_write_succ {missing : Nat} (mode : point.mode = .write)
    (some_missing : point.missing = missing + 1) :
    point.pending = point.memory.heap.size ::
      addresses (point.memory.heap.size + 1) missing := by
  rw [pending, start, mode, some_missing, addresses_succ]

private theorem pending_read_succ {missing next : Nat} (mode : point.mode = .read next)
    (some_missing : point.missing = missing + 1) :
    point.pending = next :: addresses (next + 1) missing := by
  rw [pending, start, mode, some_missing, addresses_succ]

/-- A new variable is the next argument of a structure that is added. -/
theorem leads_variable_write (valid : point.Valid shape registers building)
    (mode : point.mode = .write) {missing : Nat} (some_missing : point.missing = missing + 1)
    {place : Place} (fillable : place.Fillable point.slots.filled) (room : point.Room place)
    (later : Disciplined shape point.slots.size code (place.registersWith registers)
      (place.slotsWith point.slots.filled) building missing)
    (front : ∀ (η : Nat → D) ρ args goals, Meaning η point.code ρ args goals ↔ ∃ value rest,
      args = value :: rest ∧ place.Receives ρ η value fun ρ ↦ Meaning η code ρ rest goals) :
    point.Leads D shape
      { point.put point.memory.heap.size place with
        memory := { point.memory with heap := point.memory.heap.pushVar }
        missing
        code } := by
  have formed := valid.formed
  rw [mode, some_missing] at formed
  have grown : point.memory.heap.size < point.memory.heap.pushVar.size := by simp
  refine ⟨⟨place.registersWith registers, building, ⟨?_, ?_, ?_, ?_, ?_, fun _ _ ↦ mode⟩⟩,
    .of_iff fun θ η goals ↦ ?_, (Memory.Rewinds.refl _).push _, extends_put fillable⟩
  · rw [size_put, filled_put room]
    exact later
  · rw [show (point.put point.memory.heap.size place).mode = .write from mode]
    exact formed.pushVar
  · exact holds_put (valid.registers.mono (Nat.le_of_lt grown)) room grown
  · exact bounded_put (valid.slots.mono (Nat.le_of_lt grown)) grown
  · intro next reading
    cases mode.symm.trans reading
  · have pendings := pending_write_succ mode some_missing
    have later_pendings : pending
        { point.put point.memory.heap.size place with
          memory := { point.memory with heap := point.memory.heap.pushVar }
          missing
          code } = addresses (point.memory.heap.size + 1) missing := by
      simp [pending, start, put, mode]
    constructor
    · rintro ⟨solution, agrees, meaning⟩
      rw [later_pendings] at meaning
      obtain ⟨agrees, received⟩ := (agrees_put room fillable
        fun ρ ↦ Meaning η code ρ _ goals).1 ⟨agrees, meaning⟩
      refine ⟨Heap.solution_pushVar.1 solution, agrees, ?_⟩
      rw [pendings, front]
      exact ⟨_, _, rfl, received⟩
    · rintro ⟨solution, agrees, meaning⟩
      rw [pendings, front] at meaning
      obtain ⟨value, rest, split, received⟩ := meaning
      cases split
      obtain ⟨agrees, meaning⟩ := (agrees_put room fillable _).2 ⟨agrees, received⟩
      refine ⟨Heap.solution_pushVar.2 solution, agrees, ?_⟩
      rw [later_pendings]
      exact meaning

/-- A cell is added as the next argument of a structure. -/
theorem leads_push_write (valid : point.Valid shape registers building)
    (mode : point.mode = .write) {missing : Nat} (some_missing : point.missing = missing + 1)
    {cell : Cell} (simple : Heap.Formed.Simple point.memory.heap cell)
    (later : Disciplined shape point.slots.size code registers point.slots.filled building missing)
    (front : ∀ (θ : Valuation D) η goals, point.slots.Agrees θ η → ∀ args,
      Meaning η point.code (point.registers.values θ) (θ point.memory.heap.size :: args) goals ↔
        cell.Holds θ point.memory.heap.size ∧
        Meaning η code (point.registers.values θ) args goals) :
    point.Leads D shape
      { point with
        memory := { point.memory with heap := point.memory.heap.push cell }
        missing
        code } := by
  have formed := valid.formed
  rw [mode, some_missing] at formed
  have grown : point.memory.heap.size ≤ (point.memory.heap.push cell).size := by simp
  refine ⟨⟨registers, building, ⟨later, ?_, valid.registers.mono grown, valid.slots.mono grown, ?_,
    fun _ _ ↦ mode⟩⟩, .of_iff fun θ η goals ↦ ?_, (Memory.Rewinds.refl _).push _, .refl _⟩
  · rw [mode]
    exact formed.push simple
  · intro next reading
    cases mode.symm.trans reading
  · have pendings := pending_write_succ mode some_missing
    have later_pendings : pending
        { point with
          memory := { point.memory with heap := point.memory.heap.push cell }
          missing
          code } = addresses (point.memory.heap.size + 1) missing := by
      simp [pending, start, mode]
    constructor
    · rintro ⟨solution, agrees, meaning⟩
      obtain ⟨solution, own⟩ := Heap.solution_push.1 solution
      refine ⟨solution, agrees, ?_⟩
      rw [later_pendings] at meaning
      rw [pendings, List.map_cons, front θ η goals agrees]
      exact ⟨own, meaning⟩
    · rintro ⟨solution, agrees, meaning⟩
      rw [pendings, List.map_cons, front θ η goals agrees] at meaning
      refine ⟨Heap.solution_push.2 ⟨solution, meaning.1⟩, agrees, ?_⟩
      rw [later_pendings]
      exact meaning.2

/-- The next argument of a structure that is there is put in a place. -/
theorem leads_variable_read (valid : point.Valid shape registers building) {next : Nat}
    (mode : point.mode = .read next) {missing : Nat} (some_missing : point.missing = missing + 1)
    {place : Place} (front : point.code = .unifyVariable place :: code) (room : point.Room place) :
    point.Leads D shape { point.put next place with mode := .read (next + 1), missing, code } := by
  have disciplined := valid.disciplined
  rw [front, some_missing] at disciplined
  obtain ⟨matching, rest, same_rest, fillable, later⟩ := disciplined
  cases same_rest
  have formed := valid.formed
  rw [mode] at formed
  have inside := valid.matching next mode (by omega)
  have next_inside : next < point.memory.heap.size := by omega
  refine ⟨⟨place.registersWith registers, building, ⟨?_, formed, ?_, ?_, ?_, by simp [matching]⟩⟩,
    .of_iff fun θ η goals ↦ ?_, .refl _, extends_put fillable⟩
  · rw [size_put, filled_put room]
    exact later
  · exact holds_put valid.registers room next_inside
  · exact bounded_put valid.slots next_inside
  · intro other reading _
    cases reading
    simp only [put]
    omega
  · have pendings := pending_read_succ mode some_missing
    constructor
    · rintro ⟨solution, agrees, meaning⟩
      obtain ⟨agrees, received⟩ := (agrees_put room fillable
        fun ρ ↦ Meaning η code ρ _ goals).1 ⟨agrees, meaning⟩
      refine ⟨solution, agrees, ?_⟩
      rw [pendings, front]
      exact ⟨_, _, rfl, received⟩
    · rintro ⟨solution, agrees, meaning⟩
      rw [pendings, front] at meaning
      obtain ⟨value, rest, split, received⟩ := meaning
      cases split
      obtain ⟨agrees, meaning⟩ := (agrees_put room fillable _).2 ⟨agrees, received⟩
      exact ⟨solution, agrees, meaning⟩

/-- The next argument of a structure that is there is tested. -/
theorem outcome_test_read (valid : point.Valid shape registers building) {instruction : Instruction}
    {next : Nat} {memory : Memory} {condition : Valuation D → Prop} {success : Bool}
    (front : point.code = instruction :: code)
    (plain : instruction.slot? = none)
    (mode : point.mode = .read next) {missing : Nat} (some_missing : point.missing = missing + 1)
    (rest : Disciplined shape point.slots.size code registers point.slots.filled false missing)
    (tested : Memory.Tested exact shape.admits point.memory memory condition success)
    (same_meaning : ∀ (θ : Valuation D) η goals, point.slots.Agrees θ η → ∀ args,
      Meaning η (instruction :: code) (point.registers.values θ) (θ next :: args) goals ↔
        condition θ ∧ Meaning η code (point.registers.values θ) args goals) :
    point.Outcome D exact shape { point with memory, code, mode := .read (next + 1), missing }
      success := by
  have inside := valid.matching next mode (by omega)
  have pendings : pending { point with memory, code, mode := .read (next + 1), missing } =
      addresses (next + 1) missing := rfl
  refine outcome_test valid tested (by rw [front]; rfl) (fills_of_plain front plain) rest ?_ ?_ ?_
  · intro address member
    rw [pendings] at member
    obtain ⟨-, below⟩ := mem_addresses.1 member
    omega
  · exact fun _ ↦ ⟨next + 1, rfl, by omega⟩
  · intro θ η goals agrees
    rw [pending_read_succ mode some_missing, pendings, List.map_cons, front]
    exact same_meaning θ η goals agrees _

end
end Point

/-! ### The machine -/

namespace Exec

open Code (Meaning Disciplined Shape)
open Point (Outcome)

variable {D : Type} [Domain D] {exact : Prop} {shape : Shape} {point : Point} {registers : Set Nat}
  {building : Bool} {code : Code}
  {machine later : Machine} {number : Nat} {current : Frame} {success : Bool} {context : Context}
  {compiled : CompiledRule}

section

variable (valid : point.Valid shape registers building)
  (standing : machine.Shows number current machine point)

include valid standing

private theorem outcome_getVariable {place : Place} {arg : Nat}
    (front : point.code = .getVariable place arg :: code)
    (ended : execute context compiled (.getVariable place arg) machine = .ok success later) :
    ∃ next, machine.Shows number current later next ∧
      point.Outcome D (context.occursCheck.Decides D) shape next success := by
  obtain ⟨address, middle, first, second⟩ := bind_eq_ok.1 ended
  obtain ⟨rfl, held⟩ := shows_register standing first
  obtain ⟨_, middle, first, second⟩ := bind_eq_ok.1 second
  obtain ⟨room, standing⟩ := shows_store standing first
  cases second
  exact ⟨_, standing.facing code point.missing, Point.leads_getVariable valid front held room,
    by rw [front]; rfl, Point.fills_of_place front rfl room rfl⟩

private theorem outcome_getValue {place : Place} {arg : Nat}
    (front : point.code = .getValue place arg :: code)
    (ended : execute context compiled (.getValue place arg) machine = .ok success later) :
    ∃ next, machine.Shows number current later next ∧
      point.Outcome D (context.occursCheck.Decides D) shape next success := by
  obtain ⟨between, -, filled, rest⟩ := valid.disciplined_of_front front
  obtain ⟨left, middle, first, second⟩ := bind_eq_ok.1 ended
  obtain ⟨rfl, has⟩ := shows_load standing filled first
  obtain ⟨right, middle, third, last⟩ := bind_eq_ok.1 second
  obtain ⟨rfl, held⟩ := shows_register standing third
  obtain ⟨memory, unified, standing⟩ := shows_unify standing last
  refine ⟨_, standing.facing code 0, Point.outcome_test valid
    (Memory.tested_unify (valid.formed_zero between) unified) (by rw [front]; rfl)
    (Point.fills_of_plain front rfl) rest (by simp [Point.pending]) (by simp)
      fun θ η goals agrees ↦ ?_⟩
  rw [front, Meaning, has.value agrees, Bank.values_of_getElem? held]
  exact Iff.rfl

private theorem outcome_getConstant {constant : Constant} {arg : Nat}
    (front : point.code = .getConstant constant arg :: code)
    (ended : execute context compiled (.getConstant constant arg) machine = .ok success later) :
    ∃ next, machine.Shows number current later next ∧
      point.Outcome D (context.occursCheck.Decides D) shape next success := by
  obtain ⟨between, -, rest⟩ := valid.disciplined_of_front front
  obtain ⟨address, middle, first, second⟩ := bind_eq_ok.1 ended
  obtain ⟨rfl, held⟩ := shows_register standing first
  obtain ⟨memory, tested, standing⟩ :=
    shows_matchConstant (D := D) standing (valid.formed_zero between) second
  refine ⟨_, standing.facing code 0, Point.outcome_test valid tested (by rw [front]; rfl)
    (Point.fills_of_plain front rfl) rest (by simp [Point.pending]) (by simp)
      fun θ η goals agrees ↦ ?_⟩
  rw [front, Meaning, Bank.values_of_getElem? held]
  exact Iff.rfl

private theorem outcome_getStructure {functor : Functor} {arg : Nat}
    (front : point.code = .getStructure functor arg :: code)
    (ended : execute context compiled (.getStructure functor arg) machine = .ok success later) :
    ∃ next, machine.Shows number current later next ∧
      point.Outcome D (context.occursCheck.Decides D) shape next success := by
  obtain ⟨address, middle, first, second⟩ := bind_eq_ok.1 ended
  obtain ⟨rfl, held⟩ := shows_register standing first
  obtain ⟨⟨found, value⟩, middle, first, second⟩ := bind_eq_ok.1 second
  obtain ⟨rfl, read⟩ := shows_value standing first
  cases value with
  | unbound =>
    obtain ⟨target, middle, first, second⟩ := bind_eq_ok.1 second
    obtain ⟨rfl, standing⟩ := shows_extend standing first
    obtain ⟨_, middle, first, second⟩ := bind_eq_ok.1 second
    have standing := shows_bind standing first
    cases second
    exact ⟨_, (shows_mode standing .write).facing code functor.arity,
      Point.leads_getStructure_unbound valid front held read, by rw [front]; rfl,
      Point.fills_of_plain front rfl _⟩
  | compound other header =>
    have outcome := Point.outcome_getStructure_bound (D := D)
      (context.occursCheck.Decides D) valid front held read
    simp only at second
    split at second
    · next same =>
      cases second
      rw [if_pos same] at outcome
      exact ⟨_, (shows_mode standing _).facing code functor.arity, outcome⟩
    · next different =>
      cases second
      rw [if_neg different] at outcome
      exact ⟨_, standing, outcome⟩
  | atom symbol | num number =>
    cases second
    exact ⟨_, standing, Point.outcome_getStructure_constant valid front held read
      (by simp [Value.stands])⟩

/-- The next structure argument is a new variable. -/
theorem outcome_variable_write {instruction : Instruction} {place : Place}
    (front : point.code = instruction :: code) (fills : instruction.slot? = place.slot?)
    (same_meaning : ∀ (η : Nat → D) ρ args goals, Meaning η (instruction :: code) ρ args goals ↔
      ∃ value rest, args = value :: rest ∧
        place.Receives ρ η value fun ρ ↦ Meaning η code ρ rest goals)
    (mode : point.mode = .write) {missing : Nat} (some_missing : point.missing = missing + 1)
    (fillable : place.Fillable point.slots.filled)
    (rest : Disciplined shape point.slots.size code (place.registersWith registers)
      (place.slotsWith point.slots.filled) building missing)
    (ended : (do
      let address ← pushVar
      store place address
      pure true) machine = .ok success later) :
    ∃ next, machine.Shows number current later next ∧
      point.Outcome D (context.occursCheck.Decides D) shape next success := by
  obtain ⟨address, middle, first, second⟩ := bind_eq_ok.1 ended
  obtain ⟨rfl, standing⟩ := shows_extend standing first
  obtain ⟨_, middle, first, second⟩ := bind_eq_ok.1 second
  obtain ⟨room, standing⟩ := shows_store standing first
  cases second
  exact ⟨_, standing.facing code missing,
    Point.leads_variable_write valid mode some_missing fillable
    room rest (fun η ρ args goals ↦ front ▸ same_meaning η ρ args goals), by rw [front]; rfl,
    Point.fills_of_place front fills room rfl⟩

private theorem outcome_unifyVariable {place : Place}
    (front : point.code = .unifyVariable place :: code)
    (ended : execute context compiled (.unifyVariable place) machine = .ok success later) :
    ∃ next, machine.Shows number current later next ∧
      point.Outcome D (context.occursCheck.Decides D) shape next success := by
  obtain ⟨-, missing, some_missing, fillable, rest⟩ := valid.disciplined_of_front front
  obtain ⟨_, _, first, second⟩ := bind_eq_ok.1 ended
  cases first
  have mode_eq := shows_get standing
  cases mode : machine.mode with
  | read next =>
    rw [mode] at second mode_eq
    obtain ⟨_, stored, first, second⟩ := bind_eq_ok.1 second
    obtain ⟨room, standing⟩ := shows_store standing first
    cases second
    exact ⟨_, (shows_mode standing _).facing code missing,
      Point.leads_variable_read valid mode_eq.symm some_missing front room, by rw [front]; rfl,
      Point.fills_of_place front rfl room rfl⟩
  | write =>
    rw [mode] at second mode_eq
    exact outcome_variable_write valid standing front rfl (fun _ _ _ _ ↦ Iff.rfl) mode_eq.symm
      some_missing fillable rest second

private theorem outcome_setVariable {place : Place}
    (front : point.code = .setVariable place :: code)
    (ended : execute context compiled (.setVariable place) machine = .ok success later) :
    ∃ next, machine.Shows number current later next ∧
      point.Outcome D (context.occursCheck.Decides D) shape next success := by
  obtain ⟨building, missing, some_missing, fillable, rest⟩ := valid.disciplined_of_front front
  exact outcome_variable_write valid standing front rfl (fun _ _ _ _ ↦ Iff.rfl)
    (valid.building building (by omega)) some_missing fillable rest ended

/-- The next structure argument is a given cell. -/
theorem outcome_push_write {instruction : Instruction} {cell : Cell}
    (front : point.code = instruction :: code) (plain : instruction.slot? = none)
    (mode : point.mode = .write) {missing : Nat}
    (some_missing : point.missing = missing + 1)
    (simple : Heap.Formed.Simple point.memory.heap cell)
    (rest : Disciplined shape point.slots.size code registers point.slots.filled building missing)
    (same_meaning : ∀ (θ : Valuation D) η goals, point.slots.Agrees θ η → ∀ args,
      Meaning η (instruction :: code) (point.registers.values θ) (θ point.memory.heap.size :: args)
          goals ↔
        cell.Holds θ point.memory.heap.size ∧ Meaning η code (point.registers.values θ) args goals)
    (ended : (do
      let _ ← push cell
      pure true) machine = .ok success later) :
    ∃ next, machine.Shows number current later next ∧
      point.Outcome D (context.occursCheck.Decides D) shape next success := by
  obtain ⟨address, middle, first, second⟩ := bind_eq_ok.1 ended
  obtain ⟨rfl, standing⟩ := shows_extend standing first
  cases second
  exact ⟨_, standing.facing code missing, Point.leads_push_write valid mode some_missing simple rest
    (by rwa [front]), by rw [front]; rfl, Point.fills_of_plain front plain _⟩

/-- The next structure argument is a value already met. -/
theorem outcome_value_write {instruction : Instruction} {place : Place} {address : Nat}
    (front : point.code = instruction :: code) (plain : instruction.slot? = none)
    (mode : point.mode = .write) {missing : Nat}
    (some_missing : point.missing = missing + 1)
    (filled : place.Filled registers point.slots.filled) (has : point.Has address place)
    (rest : Disciplined shape point.slots.size code registers point.slots.filled building missing)
    (same_meaning : ∀ (η : Nat → D) ρ args goals, Meaning η (instruction :: code) ρ args goals ↔
      ∃ value rest, args = value :: rest ∧ place.value ρ η = value ∧ Meaning η code ρ rest goals)
    (ended : (do
      let _ ← push (.ref address)
      pure true) machine = .ok success later) :
    ∃ next, machine.Shows number current later next ∧
      point.Outcome D (context.occursCheck.Decides D) shape next success := by
  have simple : Heap.Formed.Simple point.memory.heap (.ref address) :=
    Nat.le_of_lt (has.lt valid filled)
  refine outcome_push_write valid standing front plain mode some_missing simple rest
    (fun θ η goals agrees args ↦ ?_) ended
  rw [same_meaning, has.value agrees, Cell.Holds]
  exact Code.exists_cons_eq_iff.trans (and_congr_left fun _ ↦ eq_comm)

/-- The next structure argument is a constant. -/
theorem outcome_constant_write {instruction : Instruction} {constant : Constant}
    (front : point.code = instruction :: code) (plain : instruction.slot? = none)
    (mode : point.mode = .write) {missing : Nat}
    (some_missing : point.missing = missing + 1)
    (rest : Disciplined shape point.slots.size code registers point.slots.filled building missing)
    (same_meaning : ∀ (η : Nat → D) ρ args goals, Meaning η (instruction :: code) ρ args goals ↔
      ∃ value rest, args = value :: rest ∧ value = constant.value ∧ Meaning η code ρ rest goals)
    (ended : (do
      let _ ← push constant.cell
      pure true) machine = .ok success later) :
    ∃ next, machine.Shows number current later next ∧
      point.Outcome D (context.occursCheck.Decides D) shape next success := by
  refine outcome_push_write valid standing front plain mode some_missing
    (Point.simple_constant _ constant) rest (fun θ η goals agrees args ↦ ?_) ended
  rw [same_meaning, Point.holds_constant]
  exact Code.exists_cons_eq_iff

private theorem outcome_unifyValue {place : Place} (front : point.code = .unifyValue place :: code)
    (ended : execute context compiled (.unifyValue place) machine = .ok success later) :
    ∃ next, machine.Shows number current later next ∧
      point.Outcome D (context.occursCheck.Decides D) shape next success := by
  obtain ⟨matching, missing, some_missing, filled, rest⟩ := valid.disciplined_of_front front
  obtain ⟨address, middle, first, second⟩ := bind_eq_ok.1 ended
  obtain ⟨rfl, has⟩ := shows_load standing filled first
  obtain ⟨_, _, got, third⟩ := bind_eq_ok.1 second
  cases got
  have mode_eq := shows_get standing
  cases mode : middle.mode with
  | read next =>
    rw [mode] at third mode_eq
    obtain ⟨_, moved, set, last⟩ := bind_eq_ok.1 third
    cases set
    obtain ⟨memory, unified, standing⟩ := shows_unify (shows_mode standing _) last
    have formed : point.memory.heap.Formed shape.admits 0 := by
      have formed := valid.formed
      rwa [← mode_eq] at formed
    subst matching
    refine ⟨_, standing.facing code missing, Point.outcome_test_read valid front rfl mode_eq.symm
      some_missing rest (Memory.tested_unify formed unified) fun θ η goals agrees args ↦ ?_⟩
    rw [Meaning, has.value agrees]
    exact Code.exists_cons_eq_iff
  | write =>
    rw [mode] at third mode_eq
    exact outcome_value_write valid standing front rfl mode_eq.symm some_missing filled has rest
      (fun _ _ _ _ ↦ Iff.rfl) third

private theorem outcome_unifyConstant {constant : Constant}
    (front : point.code = .unifyConstant constant :: code)
    (ended : execute context compiled (.unifyConstant constant) machine = .ok success later) :
    ∃ next, machine.Shows number current later next ∧
      point.Outcome D (context.occursCheck.Decides D) shape next success := by
  obtain ⟨matching, missing, some_missing, rest⟩ := valid.disciplined_of_front front
  obtain ⟨_, _, got, second⟩ := bind_eq_ok.1 ended
  cases got
  have mode_eq := shows_get standing
  cases mode : machine.mode with
  | read next =>
    rw [mode] at second mode_eq
    obtain ⟨_, moved, set, last⟩ := bind_eq_ok.1 second
    cases set
    have formed : point.memory.heap.Formed shape.admits 0 := by
      have formed := valid.formed
      rwa [← mode_eq] at formed
    have standing := shows_mode standing (.read (next + 1))
    obtain ⟨memory, tested, standing⟩ := shows_matchConstant (D := D) standing formed last
    subst matching
    refine ⟨_, standing.facing code missing, Point.outcome_test_read valid front rfl mode_eq.symm
      some_missing rest tested fun θ η goals agrees args ↦ ?_⟩
    rw [Meaning]
    exact Code.exists_cons_eq_iff
  | write =>
    rw [mode] at second mode_eq
    exact outcome_constant_write valid standing front rfl mode_eq.symm some_missing rest
      (fun _ _ _ _ ↦ Iff.rfl) second

private theorem outcome_setValue {place : Place} (front : point.code = .setValue place :: code)
    (ended : execute context compiled (.setValue place) machine = .ok success later) :
    ∃ next, machine.Shows number current later next ∧
      point.Outcome D (context.occursCheck.Decides D) shape next success := by
  obtain ⟨building, missing, some_missing, filled, rest⟩ := valid.disciplined_of_front front
  obtain ⟨address, middle, first, second⟩ := bind_eq_ok.1 ended
  obtain ⟨rfl, has⟩ := shows_load standing filled first
  exact outcome_value_write valid standing front rfl (valid.building building (by omega))
    some_missing
    filled has rest (fun _ _ _ _ ↦ Iff.rfl) second

private theorem outcome_setConstant {constant : Constant}
    (front : point.code = .setConstant constant :: code)
    (ended : execute context compiled (.setConstant constant) machine = .ok success later) :
    ∃ next, machine.Shows number current later next ∧
      point.Outcome D (context.occursCheck.Decides D) shape next success := by
  obtain ⟨building, missing, some_missing, rest⟩ := valid.disciplined_of_front front
  exact outcome_constant_write valid standing front rfl (valid.building building (by omega))
    some_missing rest (fun _ _ _ _ ↦ Iff.rfl) ended

private theorem outcome_putVariable {place : Place} {arg : Nat}
    (front : point.code = .putVariable place arg :: code)
    (ended : execute context compiled (.putVariable place arg) machine = .ok success later) :
    ∃ next, machine.Shows number current later next ∧
      point.Outcome D (context.occursCheck.Decides D) shape next success := by
  obtain ⟨address, pushed, first, second⟩ := bind_eq_ok.1 ended
  obtain ⟨rfl, standing⟩ := shows_extend standing first
  obtain ⟨_, stored, third, fourth⟩ := bind_eq_ok.1 second
  obtain ⟨room, standing⟩ := shows_store standing third
  obtain ⟨_, filled, fifth, last⟩ := bind_eq_ok.1 fourth
  obtain ⟨room_arg, standing⟩ := shows_setRegister standing fifth
  cases last
  exact ⟨_, standing.facing code point.missing,
    Point.leads_putVariable valid front room room_arg, by rw [front]; rfl,
    Point.fills_of_place front rfl room rfl⟩

private theorem outcome_putValue {place : Place} {arg : Nat}
    (front : point.code = .putValue place arg :: code)
    (ended : execute context compiled (.putValue place arg) machine = .ok success later) :
    ∃ next, machine.Shows number current later next ∧
      point.Outcome D (context.occursCheck.Decides D) shape next success := by
  obtain ⟨-, filled, -⟩ := valid.disciplined_of_front front
  obtain ⟨address, middle, first, second⟩ := bind_eq_ok.1 ended
  obtain ⟨rfl, has⟩ := shows_load standing filled first
  obtain ⟨_, written, third, last⟩ := bind_eq_ok.1 second
  obtain ⟨room, standing⟩ := shows_setRegister standing third
  cases last
  exact ⟨_, standing.facing code point.missing, Point.leads_putValue valid front has room,
    by rw [front]; rfl, Point.fills_of_plain front rfl _⟩

private theorem outcome_putConstant {constant : Constant} {arg : Nat}
    (front : point.code = .putConstant constant arg :: code)
    (ended : execute context compiled (.putConstant constant arg) machine = .ok success later) :
    ∃ next, machine.Shows number current later next ∧
      point.Outcome D (context.occursCheck.Decides D) shape next success := by
  obtain ⟨address, pushed, first, second⟩ := bind_eq_ok.1 ended
  obtain ⟨rfl, standing⟩ := shows_extend standing first
  obtain ⟨_, written, third, last⟩ := bind_eq_ok.1 second
  obtain ⟨room, standing⟩ := shows_setRegister standing third
  cases last
  exact ⟨_, standing.facing code point.missing, Point.leads_putConstant valid front room,
    by rw [front]; rfl, Point.fills_of_plain front rfl _⟩

private theorem outcome_putStructure {functor : Functor} {arg : Nat}
    (front : point.code = .putStructure functor arg :: code)
    (ended : execute context compiled (.putStructure functor arg) machine = .ok success later) :
    ∃ next, machine.Shows number current later next ∧
      point.Outcome D (context.occursCheck.Decides D) shape next success := by
  obtain ⟨address, pushed, first, second⟩ := bind_eq_ok.1 ended
  obtain ⟨rfl, standing⟩ := shows_extend standing first
  obtain ⟨_, written, third, last⟩ := bind_eq_ok.1 second
  obtain ⟨room, standing⟩ := shows_setRegister standing third
  cases last
  exact ⟨_, (shows_mode standing .write).facing code functor.arity,
    Point.leads_putStructure valid front room, by rw [front]; rfl,
    Point.fills_of_plain front rfl _⟩

end

/-- An instruction that stays in its rule, calls nothing and does not always fail. -/
def Straight : Instruction → Prop
  | .allocate _ | .deallocate | .call _ | .proceed | .fail => False
  | _ => True

/-- Such an instruction leads on, or fails where nothing is said. -/
theorem outcome_execute {instruction : Instruction} (straight : Straight instruction)
    (valid : point.Valid shape registers building)
    (standing : machine.Shows number current machine point)
    (front : point.code = instruction :: code)
    (ended : execute context compiled instruction machine = .ok success later) :
    ∃ next, machine.Shows number current later next ∧
      point.Outcome D (context.occursCheck.Decides D) shape next success := by
  cases instruction with
  | getVariable => exact outcome_getVariable valid standing front ended
  | getValue => exact outcome_getValue valid standing front ended
  | getConstant => exact outcome_getConstant valid standing front ended
  | getStructure => exact outcome_getStructure valid standing front ended
  | unifyVariable => exact outcome_unifyVariable valid standing front ended
  | unifyValue => exact outcome_unifyValue valid standing front ended
  | unifyConstant => exact outcome_unifyConstant valid standing front ended
  | putVariable => exact outcome_putVariable valid standing front ended
  | putValue => exact outcome_putValue valid standing front ended
  | putConstant => exact outcome_putConstant valid standing front ended
  | putStructure => exact outcome_putStructure valid standing front ended
  | setVariable => exact outcome_setVariable valid standing front ended
  | setValue => exact outcome_setValue valid standing front ended
  | setConstant => exact outcome_setConstant valid standing front ended
  | allocate | deallocate | call | proceed | fail => exact straight.elim

end Exec
end HornMachine
