import HornMachine.Proofs.Heap.Matching
import HornMachine.Proofs.Machine.Faults

/-!
# The code of a head matches like unification

The code of a head takes the structures in its arguments apart level by level, fills the slot of a
variable where it is first met and checks it where it is met again, and adds to the heap what is not
there yet. Unification puts the whole head on the heap and goes through it depth first. Both leave
the solutions in which the argument registers stand for instances of the head. Main statement:
`head_code_matches_like_unification`.
-/

namespace HornMachine

open Code (Disciplined Meaning Shape)
open Heap (Matched Matches)

theorem Instruction.Matching.straight {instruction : Instruction}
    (matching : instruction.Matching) :
    Exec.Straight instruction := by
  cases instruction <;> trivial

/-! ### Running code -/

namespace Point

variable {D : Type} [Domain D] {shape : Shape} {point middle later : Point}

theorem Same.trans (one : point.Same D middle) (two : middle.Same D later)
    (grown : point.memory.heap.size ≤ middle.memory.heap.size) : point.Same D later := by
  refine ⟨fun θ η goals said ↦ one.back θ η goals (two.back θ η goals said),
    fun θ η goals said ↦ ?_⟩
  obtain ⟨θ', kept, next⟩ := one.forth θ η goals said
  obtain ⟨last, kept', said'⟩ := two.forth θ' η goals next
  exact ⟨last, fun address old ↦
    (kept' address (Nat.lt_of_lt_of_le old grown)).trans (kept address old), said'⟩

theorem Leads.refl {registers : Set Nat} {building : Bool}
    (valid : point.Valid shape registers building) :
    point.Leads D shape point :=
  ⟨⟨registers, building, valid⟩, .of_iff fun _ _ _ ↦ Iff.rfl, .refl _, .refl _⟩

theorem Leads.trans (one : point.Leads D shape middle) (two : middle.Leads D shape later) :
    point.Leads D shape later :=
  ⟨two.valid, one.same.trans two.same one.rewinds.heap, two.rewinds.trans one.rewinds,
    two.slots.trans one.slots⟩

end Point

namespace Exec

/-- Run instructions one after another until one of them fails. -/
def runAll (context : Context) (compiled : CompiledRule) : Code → Exec Bool
  | [] => pure true
  | instruction :: code => do
    if ← execute context compiled instruction then runAll context compiled code else pure false

variable {D : Type} [Domain D] {context : Context} {compiled : CompiledRule}

/-- Without the occurs check code that stays in its rule comes to an answer: it leads on to what
follows, or it fails where nothing is said. -/
theorem exists_runAll (off : context.occursCheck = .off) {shape : Shape} {code rest : Code}
    (straight : ∀ instruction ∈ code, Straight instruction) {machine : Machine} {number : Nat}
    {current : Frame} {point : Point} {registers : Set Nat} {building : Bool}
    (within : Code.Within point.registers.size point.slots.size code)
    (valid : point.Valid shape registers building)
    (standing : machine.Shows number current machine point) (front : point.code = code ++ rest) :
    ∃ success later next slots, runAll context compiled code machine = .ok success later ∧
      later.Shows number { current with slots } later next ∧
      (success = true → point.Leads D shape next ∧ next.code = rest) ∧
      (success = false → ∀ (θ : Valuation D) η goals, ¬point.Says θ η goals) := by
  induction code generalizing machine current point registers building with
  | nil =>
    exact ⟨true, machine, point, current.slots, rfl, standing, fun _ ↦ ⟨.refl valid, front⟩, nofun⟩
  | cons instruction code ih =>
    obtain ⟨first, others⟩ := List.forall_mem_cons.1 straight
    obtain ⟨here, later_within⟩ := Code.within_cons.1 within
    obtain ⟨success, middle, ended⟩ : ∃ success middle,
        execute context compiled instruction machine = .ok success middle :=
      exists_execute first valid standing front here off
    obtain ⟨next, shows, outcome⟩ := outcome_execute (D := D) first valid standing front ended
    obtain ⟨slots, -, -, own⟩ := shows.self
    have decides : context.occursCheck.Decides D := by
      intro on
      rw [off] at on
      cases on
    cases success with
    | false =>
      refine ⟨false, middle, next, slots, ?_, own, nofun, fun _ ↦ outcome.2.2 decides⟩
      rw [runAll, bind_apply, ended]
      rfl
    | true =>
      obtain ⟨leads, tail, -⟩ := outcome
      obtain ⟨registers', building', next_valid⟩ := leads.valid
      have bank : next.registers.size = point.registers.size := by
        have kept :=
          @preserves_execute machine.registers.size machine.stats.factsAsserted machine.steps
          machine.stats.instructions context compiled instruction machine ⟨rfl, rfl, rfl, rfl⟩
        rw [ended] at kept
        rw [← shows.registers, ← standing.registers]
        exact kept.1
      have next_within : Code.Within next.registers.size next.slots.size code := by
        rw [bank, leads.slots.size]
        exact later_within
      have next_front : next.code = code ++ rest := by
        rw [tail, front]
        rfl
      obtain ⟨success, later, last, slots', run, last_shows, won, lost⟩ :=
        ih others next_within next_valid own next_front
      refine ⟨success, later, last, slots', ?_, last_shows, fun succeeds ↦ ?_,
        fun fails θ η goals said ↦ ?_⟩
      · rw [runAll, bind_apply, ended]
        exact run
      · obtain ⟨further, at_rest⟩ := won succeeds
        exact ⟨leads.trans further, at_rest⟩
      · obtain ⟨θ', -, next_said⟩ := leads.same.forth θ η goals said
        exact lost fails θ' η goals next_said

end Exec

/-! ### Heads -/

namespace Code

/-- Code that looks at slots and gives up. -/
def looking (slots : List Nat) : Code := slots.map (fun slot ↦ .putValue (.slot slot) 0) ++ [.fail]

theorem meaning_looking {D : Type} [Domain D] {η ρ : Nat → D} {args : List D}
    {goals : List (Task D)}
    (slots : List Nat) : Meaning η (looking slots) ρ args goals ↔ goals = [.fail] := by
  induction slots generalizing ρ args with
  | nil => exact Iff.rfl
  | cons slot slots ih => exact ih

theorem disciplined_looking {shape : Shape} {size : Nat} {registers filled : Set Nat}
    {building : Bool} {missing : Nat} {slots : List Nat} :
    Disciplined shape size (looking slots) registers filled building missing ↔
      missing = 0 ∧ ∀ slot ∈ slots, slot ∈ filled := by
  induction slots generalizing registers building missing with
  | nil => simp [looking, Disciplined]
  | cons slot slots ih =>
    have rest : Disciplined shape size (looking slots) (insert 0 registers) filled false 0 ↔
        ∀ slot ∈ slots, slot ∈ filled := by
      rw [ih]
      exact and_iff_right rfl
    rw [List.forall_mem_cons, ← rest]
    exact Iff.rfl

end Code

namespace Rule

/-- The code of a rule's head, with the state of emitting code that it leads to. -/
def headEmission (rule : Rule) : Code × Emit.State :=
  Emit.headArgs (.ofList rule.vars.zipIdx) rule.argumentCount 0 rule.head.args
    { nextTemp := rule.argumentCount, used := rule.argumentCount }

/-- The code of a rule begins with a frame for its variables and the code of its head. -/
theorem emit_headEmission (rule : Rule) (goals : List Goal) :
    (rule.emit rule.vars.zipIdx goals).1 = .allocate rule.vars.length :: (rule.headEmission.1 ++
      (bodyCode (.ofList rule.vars.zipIdx) rule.argumentCount goals rule.headEmission.2).1) := by
  rw [emit_eq, List.length_zipIdx]
  rfl

variable {rule : Rule}

/-- The variables of head arguments are variables of the rule. -/
theorem varsOf_args_subset : Emit.varsOf rule.head.args ⊆ {v | v ∈ rule.vars} := by
  rintro v ⟨arg, member, occurs⟩
  refine mem_vars.2 (.inl ?_)
  cases head : rule.head with
  | struct symbol args =>
    rw [head] at member
    exact Term.mem_occurrences_struct.2 ⟨arg, member, occurs⟩
  | atom | var | num =>
    rw [head] at member
    cases member

end Rule

/-- The address in the slot of a variable that occurs in the head. -/
def Rule.headPlace (rule : Rule) (frame : Frame) (v : Var) : Option Address :=
  if v ∈ rule.head.args.flatMap Term.occurrences then (frame.slots[rule.vars.idxOf v]?).join
    else none

private theorem Rule.headPlace_eq_some {rule : Rule} {frame : Frame} {v : Var} {place : Address} :
    rule.headPlace frame v = some place ↔ v ∈ rule.head.args.flatMap Term.occurrences ∧
      frame.slots[rule.vars.idxOf v]? = some (some place) := by
  unfold headPlace
  split
  · next occurs => simp [occurs, Option.join_eq_some_iff]
  · next absent => simp [absent]

section Head

open Emit (slotNumber slotsOf valueOf varsOf)
open Rule (varsOf_args_subset)

variable {rule : Rule} {context : Context} {compiled : CompiledRule} {machine : Machine}
  {arguments : List Address}

/-- A machine that opened a frame for a rule stands before the code of its head. -/
theorem Exec.shows_allocate (machine : Machine) (size : Nat) (code : Code) :
    let frame : Frame := ⟨Array.replicate size none, machine.continuation, machine.environment⟩
    let opened : Machine := { machine with
      frames := machine.frames.push frame
      environment := some machine.frames.size }
    execute context compiled (.allocate size) machine = .ok true opened ∧
      opened.Shows machine.frames.size frame opened
        ⟨machine.memory, code, machine.registers, frame.slots, machine.mode, 0⟩ := by
  intro frame opened
  refine ⟨rfl, rfl, Array.getElem?_push_size, frame.slots, .refl _, ?_⟩
  simp only [Machine.showing, opened]
  congr 1
  apply Array.ext_getElem?
  intro other
  rw [Array.getElem?_setIfInBounds]
  split
  · next same =>
    rw [← same, if_pos (by simp)]
    exact Array.getElem?_push_size
  · rfl

/-- The point before the code of a rule's head, with code that looks at its variables' slots after
it. -/
def Rule.headPoint (rule : Rule) (machine : Machine) : Point :=
  ⟨machine.memory, rule.headEmission.1 ++
    Code.looking ((rule.head.args.flatMap Term.occurrences).map
    (slotNumber (.ofList rule.vars.zipIdx))), machine.registers,
      Array.replicate rule.vars.length none,
    machine.mode, 0⟩

private theorem Rule.mem_vars_of_mem_args {v : Var}
    (occurs : v ∈ rule.head.args.flatMap Term.occurrences) :
    v ∈ rule.vars :=
  varsOf_args_subset (List.mem_flatMap.1 occurs)

/-- The point is one that the machine can be at. -/
theorem Rule.valid_headPoint (formed : machine.memory.heap.Formed (fun _ ↦ True) 0)
    (count : arguments.length = rule.head.args.length)
    (held : ∀ (index : Nat) (address : Address), arguments[index]? = some address →
      machine.registers[index]? = some (some address))
    (inside : ∀ address ∈ arguments, address < machine.memory.heap.size) :
    (rule.headPoint machine).Valid ⟨fun _ ↦ True, fun _ ↦ True⟩
    {index | index < rule.head.args.length}
      false := by
  have none_filled : Bank.filled (Array.replicate rule.vars.length none) = ∅ := by
    ext index
    simp [Bank.filled, Array.getElem?_replicate]
  have nothing_seen : slotsOf (.ofList rule.vars.zipIdx) ∅ = ∅ := by
    ext index
    simp [slotsOf]
  have covers := Emit.covers_headArgs (.ofList rule.vars.zipIdx) rule.argumentCount 0 rule.head.args
    { nextTemp := rule.argumentCount, used := rule.argumentCount }
  refine ⟨?_, Point.formed_between ⟨fun _ ↦ True, fun _ ↦ True⟩ formed machine.mode, ?_, ?_,
    by simp [headPoint], by simp⟩
  · simp only [headPoint, Array.size_replicate, none_filled]
    rw [← nothing_seen]
    refine Emit.disciplined_headArgs Emit.slotNumber_injOn (by simp) varsOf_args_subset (by simp)
      (fun arg _ ↦ arg.allFunctors_true) (Code.disciplined_looking.2 ⟨rfl, fun slot looked ↦ ?_⟩)
    obtain ⟨v, occurs, rfl⟩ := List.mem_map.1 looked
    exact ⟨v, (covers.seen v).2 (.inr (List.mem_flatMap.1 occurs)), rfl⟩
  · intro index lower
    have here : index < arguments.length := count ▸ lower
    exact ⟨arguments[index], held index _ (List.getElem?_eq_getElem here),
      inside _ (List.getElem_mem here)⟩
  · intro index address there
    simp [headPoint, Array.getElem?_replicate] at there

/-- Before the code of the head it is said that the arguments are instances of those of the head. -/
theorem Rule.says_headPoint {D : Type} [Domain D]
    (named : rule.headEmission.2.used ≤ Emit.maxRegister)
    (count : arguments.length = rule.head.args.length)
    (held : ∀ (index : Nat) (address : Address), arguments[index]? = some address →
      machine.registers[index]? = some (some address)) {θ : Valuation D} {η : Nat → D} :
    (rule.headPoint machine).Says θ η [.fail] ↔ machine.memory.heap.Solution θ ∧
      arguments.map θ = rule.head.args.map (valueOf (.ofList rule.vars.zipIdx) η) := by
  have registers : (List.range' 0 rule.head.args.length).map (Bank.values machine.registers θ) =
      arguments.map θ := by
    refine List.ext_getElem (by simp [count]) fun index lower lower' ↦ ?_
    rw [List.length_map] at lower'
    rw [List.getElem_map, List.getElem_map, List.getElem_range', Nat.zero_add, Nat.one_mul]
    exact Bank.values_of_getElem? (held index _ (List.getElem?_eq_getElem lower'))
  have none_agree : Bank.Agrees (Array.replicate rule.vars.length none) θ η := by
    intro index address here
    simp [Array.getElem?_replicate] at here
  rw [Point.says_between rfl]
  refine and_congr_right fun _ ↦ ?_
  rw [← registers]
  refine (and_iff_right none_agree).trans
    ((Emit.meaning_headArgs named ?_ (fun ρ ρ' _ ↦ ?_) _).trans ?_)
  · rw [Nat.zero_add]
    exact (le_argumentCount rule).1
  · exact (Code.meaning_looking _).trans (Code.meaning_looking _).symm
  · rw [Code.meaning_looking]
    exact and_iff_left rfl

/-- Values for variables are values for their slots. -/
theorem Rule.exists_slotValues {D : Type} [Domain D] (rule : Rule) (β : Var → D) : ∃ η : Nat → D,
    ∀ v ∈ rule.head.args.flatMap Term.occurrences,
      η (slotNumber (.ofList rule.vars.zipIdx) v) = β v := by
  refine ⟨fun index ↦ (rule.vars[index]?.map β).getD default, fun v occurs ↦ ?_⟩
  rw [Emit.slotNumber_vars (mem_vars_of_mem_args occurs)]
  simp [List.getElem?_idxOf (mem_vars_of_mem_args occurs)]

private theorem Rule.map_valueOf_args {D : Type} [Domain D] {η : Nat → D} {β : Var → D}
    (agree : ∀ v ∈ rule.head.args.flatMap Term.occurrences,
      η (slotNumber (.ofList rule.vars.zipIdx) v) = β v) :
    rule.head.args.map (valueOf (.ofList rule.vars.zipIdx) η) = rule.head.args.map (Term.eval β) :=
  List.map_congr_left fun arg member ↦
    Term.eval_congr fun v occurs ↦ agree v (List.mem_flatMap.2 ⟨arg, member, occurs⟩)

section

variable (named : rule.headEmission.2.used ≤ Emit.maxRegister)
    (count : arguments.length = rule.head.args.length)
  (held : ∀ (index : Nat) (address : Address), arguments[index]? = some address →
    machine.registers[index]? = some (some address))

include named count held

/-- Where the code of the head was run to its end, the head's arguments are matched. -/
theorem Rule.matches_of_leads {next : Point}
    (leads : (rule.headPoint machine).Leads Tree ⟨fun _ ↦ True, fun _ ↦ True⟩ next)
    (at_rest : next.code = Code.looking ((rule.head.args.flatMap Term.occurrences).map
      (slotNumber (.ofList rule.vars.zipIdx)))) {frame : Frame} (wider :
      Bank.Extends frame.slots next.slots) :
    machine.memory.heap.Matches arguments rule.head.args
      (rule.headPlace frame) next.memory.heap := by
  obtain ⟨registers, building, valid⟩ := leads.valid
  have disciplined := valid.disciplined
  rw [at_rest] at disciplined
  obtain ⟨between, filled⟩ := Code.disciplined_looking.1 disciplined
  have ends {θ : Valuation Tree} {η : Nat → Tree} : next.Says θ η [.fail] ↔
      next.memory.heap.Solution θ ∧ next.slots.Agrees θ η := by
    rw [Point.says_between between, at_rest, Code.meaning_looking]
    exact and_congr_right fun _ ↦ and_iff_left rfl
  -- the slot of a variable of the head holds the variable's place
  have slot (v : Var) (occurs : v ∈ rule.head.args.flatMap Term.occurrences) : ∃ address,
      next.slots[slotNumber (.ofList rule.vars.zipIdx) v]? = some (some address) ∧
        rule.headPlace frame v = some address := by
    obtain ⟨address, here⟩ := filled _ (List.mem_map_of_mem occurs)
    refine ⟨address, here, headPlace_eq_some.2 ⟨occurs, ?_⟩⟩
    rw [← Emit.slotNumber_vars (mem_vars_of_mem_args occurs)]
    exact wider.kept _ _ here
  have in_slot (v : Var) (place : Address) (placed : rule.headPlace frame v = some place) :
      v ∈ rule.head.args.flatMap Term.occurrences ∧
        next.slots[slotNumber (.ofList rule.vars.zipIdx) v]? = some (some place) := by
    have occurs := (headPlace_eq_some.1 placed).1
    obtain ⟨address, here, again⟩ := slot v occurs
    cases again.symm.trans placed
    exact ⟨occurs, here⟩
  refine ⟨valid.formed_zero between, leads.rewinds.heap, fun v occurs ↦ ?_, fun v place placed ↦ ?_,
    fun θ solution ↦ ?_, fun θ β solution instances ↦ ?_⟩
  · obtain ⟨address, -, placed⟩ := slot v occurs
    exact ⟨address, placed⟩
  · exact valid.slots _ _ (in_slot v place placed).2
  · have agrees : next.slots.Agrees θ (next.slots.values θ) :=
      fun index address here ↦ Bank.values_of_getElem? here
    obtain ⟨before, same⟩ := (says_headPoint named count held).1
      (leads.same.back θ _ _ (ends.2 ⟨solution, agrees⟩))
    refine ⟨before, fun β placed ↦ same.trans (map_valueOf_args fun v occurs ↦ ?_)⟩
    obtain ⟨address, here, there⟩ := slot v occurs
    exact (Bank.values_of_getElem? here).trans (placed v address there)
  · obtain ⟨η, agree⟩ := rule.exists_slotValues β
    have said := (says_headPoint named count held).2
      ⟨solution, instances.trans (map_valueOf_args agree).symm⟩
    obtain ⟨θ', kept, later_said⟩ := leads.same.forth θ η _ said
    obtain ⟨later_solution, agrees⟩ := ends.1 later_said
    refine ⟨θ', kept, later_solution, fun v place placed ↦ ?_⟩
    obtain ⟨occurs, here⟩ := in_slot v place placed
    exact (agrees _ _ here).symm.trans (agree v occurs)

end

/-- The code of a head, run in a new frame without the occurs check, matches the head's arguments
with the addresses in the argument registers. -/
theorem Rule.exists_runAll_head (off : context.occursCheck = .off)
    (formed : machine.memory.heap.Formed (fun _ ↦ True) 0)
    (bank : machine.registers.size ≤ Emit.maxRegister)
    (enough : rule.headEmission.2.used ≤ machine.registers.size)
    (count : arguments.length = rule.head.args.length)
    (held : ∀ (index : Nat) (address : Address), arguments[index]? = some address →
      machine.registers[index]? = some (some address))
    (inside : ∀ address ∈ arguments, address < machine.memory.heap.size) :
    ∃ success later frame,
      Exec.runAll context compiled (.allocate rule.vars.length :: rule.headEmission.1) machine =
        .ok success later ∧
      later.environment = some machine.frames.size ∧
      later.frames[machine.frames.size]? = some frame ∧
      machine.memory.heap.Matched arguments rule.head.args (rule.headPlace frame) later.memory.heap
        success := by
  have named := Nat.le_trans enough bank
  obtain ⟨opens, standing⟩ :=
    @Exec.shows_allocate context compiled machine rule.vars.length (rule.headPoint machine).code
  have slotted : Emit.Slotted (.ofList rule.vars.zipIdx) rule.vars.length
    (varsOf rule.head.args) := by
    intro v occurs
    rw [Emit.slotNumber_vars (varsOf_args_subset occurs)]
    exact List.idxOf_lt_length_of_mem (varsOf_args_subset occurs)
  have within : Code.Within (rule.headPoint machine).registers.size
    (rule.headPoint machine).slots.size
      rule.headEmission.1 := by
    simp only [headPoint, Array.size_replicate]
    exact Emit.within_headArgs enough slotted
  obtain ⟨success, later, next, slots, run, shows, won, lost⟩ :=
    @Exec.exists_runAll Tree _ _ compiled off
    _ _ _ (fun instruction member ↦ (Emit.matching_headArgs _ _ _ _ instruction member).straight)
    _ _ _ _ _ _ within (rule.valid_headPoint formed count held inside) standing rfl
  refine ⟨success, later, _, ?_, shows.environment, shows.here, ?_⟩
  · rw [Exec.runAll, bind_apply, opens]
    exact run
  cases success with
  | false =>
    intro θ β solution same
    obtain ⟨η, agree⟩ := rule.exists_slotValues β
    exact lost rfl θ η [.fail]
      ((says_headPoint named count held).2 ⟨solution, same.trans (map_valueOf_args agree).symm⟩)
  | true =>
    obtain ⟨leads, at_rest⟩ := won rfl
    rw [shows.memory]
    exact matches_of_leads named count held leads at_rest shows.wider

/-- The code of a head whose structures have at most 255 arguments, run in a new frame without the
occurs check on a well-formed heap, succeeds if and only if the head's arguments, put on the heap
with one cell for each variable, unify with the addresses in the argument registers from left to
right. Then every address that was there before and every variable of the head, at its slot and at
its cell, reads as the same term up to one renaming of unbound variables, or is cyclic in both. -/
theorem head_code_matches_like_unification (fits : rule.head.fits = true)
    (off : context.occursCheck = .off) (formed : machine.memory.heap.Formed (fun _ ↦ True) 0)
    (bank : machine.registers.size ≤ Emit.maxRegister)
    (enough : rule.headEmission.2.used ≤ machine.registers.size)
    (count : arguments.length = rule.head.args.length)
    (held : ∀ (index : Nat) (address : Address), arguments[index]? = some address →
      machine.registers[index]? = some (some address))
    (inside : ∀ address ∈ arguments, address < machine.memory.heap.size) :
    ∃ success later frame addresses loaded unified,
      Exec.runAll context compiled (.allocate rule.vars.length :: rule.headEmission.1) machine =
        .ok success later ∧
      later.environment = some machine.frames.size ∧
      later.frames[machine.frames.size]? = some frame ∧
      rule.head.args.mapM Heap.Load.load { heap := machine.memory.heap } = .ok addresses loaded ∧
      Memory.unifyEach .off (arguments.zip addresses) { machine.memory with heap := loaded.heap } =
        (.ok success, unified) ∧
      (success = true →
        (∀ v ∈ rule.head.args.flatMap Term.occurrences, ∃ slot place,
          frame.slots[rule.vars.idxOf v]? = some (some slot) ∧ loaded.vars[v]? = some place) ∧
        ∀ cells : List (Address × Address),
          (∀ cell ∈ cells, (cell.1 = cell.2 ∧ cell.1 < machine.memory.heap.size) ∨
            ∃ v ∈ rule.head.args.flatMap Term.occurrences,
              frame.slots[rule.vars.idxOf v]? = some (some cell.1) ∧
                loaded.vars[v]? = some cell.2) →
          ∀ reserved reserved' : List Var, ∃ ρ : Equiv.Perm Var,
            unified.heap.extractEach (cells.map Prod.snd) (.reserving reserved') =
              (later.memory.heap.extractEach (cells.map Prod.fst) (.reserving reserved)).map
                (Except.map (Term.subst fun v ↦ .var (ρ v))) ∧
            ∀ fault, .error fault ∈
              later.memory.heap.extractEach (cells.map Prod.fst) (.reserving reserved) →
              fault = .cyclicTerm) := by
  have each_fits : ∀ arg ∈ rule.head.args, arg.fits = true := by
    intro arg member
    cases head : rule.head with
    | struct symbol args =>
      rw [head] at fits member
      rw [Term.fits, Term.allFit_eq_all, Bool.and_eq_true, List.all_eq_true] at fits
      exact fits.2 arg member
    | atom | var | num =>
      rw [head] at member
      cases member
  obtain ⟨success, later, frame, run, environment, here, matched⟩ :=
    @Rule.exists_runAll_head rule _ compiled _ _ off formed bank enough count held inside
  obtain ⟨addresses, loaded, success', unified, load, unify, matched'⟩ :=
    Heap.exists_unifyTerms formed inside count each_fits
  obtain rfl := matched.eq matched'
  refine ⟨success, later, frame, addresses, loaded, unified, run, environment, here, load, unify,
    fun succeeds ↦ ?_⟩
  subst succeeds
  have one : machine.memory.heap.Matches arguments rule.head.args
    (rule.headPlace frame) later.memory.heap :=
    matched
  have two : machine.memory.heap.Matches arguments rule.head.args (fun v ↦
    loaded.vars[v]?) unified.heap :=
    matched'
  refine ⟨fun v occurs ↦ ?_, fun cells same reserved reserved' ↦ one.variant two
    (fun cell member ↦ ?_)
    reserved reserved'⟩
  · obtain ⟨slot, in_slot⟩ := one.held v occurs
    obtain ⟨place, at_place⟩ := two.held v occurs
    exact ⟨slot, place, (Rule.headPlace_eq_some.1 in_slot).2, at_place⟩
  · obtain old | ⟨v, occurs, in_slot, at_place⟩ := same cell member
    · exact .inl old
    · exact .inr ⟨v, Rule.headPlace_eq_some.2 ⟨occurs, in_slot⟩, at_place⟩

/-- A heap with `f(U, V)`, a structure that holds itself, and `b`. -/
def Heap.nested : Heap :=
  ⟨#[.str 1, .functor ⟨⟨1⟩, 2⟩, .ref 2, .ref 3, .str 5, .functor ⟨⟨3⟩, 1⟩, .ref 4, .atom ⟨4⟩]⟩

theorem Heap.formed_nested : nested.Formed (fun _ ↦ True) 0 := by
  have first : (({} : Heap).pushStructure ⟨⟨1⟩, 2⟩).Formed (fun _ ↦ True) 2 :=
    Formed.empty.pushStructure trivial
  have second : ((({} : Heap).pushStructure ⟨⟨1⟩, 2⟩).pushVar.pushVar.pushStructure ⟨⟨3⟩, 1⟩).Formed
      (fun _ ↦ True) 1 := first.pushVar.pushVar.pushStructure trivial
  have closed : Formed.Simple
      ((({} : Heap).pushStructure ⟨⟨1⟩, 2⟩).pushVar.pushVar.pushStructure ⟨⟨3⟩, 1⟩) (.ref 4) := by
    simp [Formed.Simple]
  have last : Formed.Simple (((({} : Heap).pushStructure ⟨⟨1⟩, 2⟩).pushVar.pushVar.pushStructure
      ⟨⟨3⟩, 1⟩).push (.ref 4)) (.atom ⟨4⟩) := trivial
  exact (second.push closed).push last

/-- A machine with two of its terms in the argument registers. -/
def Machine.nested : Machine :=
  { registers := #[some 0, some 7, none], memory := { heap := .nested } }

/-- What the machine is run with. -/
def Context.nested : Context :=
  { program := .new 3, store := .empty, occursCheck := .off, stepLimit := 0 }

/-- The rule `p(f(X, g(X)), X)`. -/
def CompiledRule.nested : CompiledRule where
  rule := { head := .struct ⟨0⟩ [.struct ⟨1⟩ [.var 7, .struct ⟨2⟩ [.var 7]], .var 7], body := [] }
  head := ⟨⟨0⟩, 2⟩
  code := #[]
  slots := [(7, 0)]
  registers := 3

/-- The code of the head `p(f(X, g(X)), X)`. -/
theorem Rule.headEmission_nested {rule : Rule} (bodyless : rule.body = [])
    (head : rule.head = .struct ⟨0⟩ [.struct ⟨1⟩ [.var 7, .struct ⟨2⟩ [.var 7]], .var 7]) :
    rule.vars = [7] ∧ rule.headEmission.2.used = 3 ∧ rule.headEmission.1 =
      [.getStructure ⟨⟨1⟩, 2⟩ 0, .unifyVariable (.slot 0), .unifyVariable (.register 2),
        .getStructure ⟨⟨2⟩, 1⟩ 2, .unifyValue (.slot 0), .getValue (.slot 0) 1] := by
  have vars : rule.vars = [7] := by
    simp [Rule.vars, Rule.occurrences, head, bodyless, Term.occurrences, Term.occurrencesList,
      Term.distinct, Term.distinctFrom]
  have slot : Emit.slotOf (.ofList rule.vars.zipIdx) 7 = .slot 0 := by simp [vars, Emit.slotOf]
  have base : rule.argumentCount = 2 := by
    rw [argumentCount, bodyless, head]
    rfl
  rw [headEmission, base, head]
  generalize Std.TreeMap.ofList rule.vars.zipIdx = slots at slot
  have no_args (state : Emit.State) : Emit.matchArgs slots [] state = (([], []), state) := rfl
  have no_level (state : Emit.State) : Emit.matchLevel slots [] state = (([], []), state) := rfl
  have no_levels (limit : Nat) (state : Emit.State) :
      Emit.matchLevels slots limit [] state = ([], state) := by cases limit <;> rfl
  have no_more (register : Nat) (state : Emit.State) :
      Emit.headArgs slots 2 register [] state = ([], state) := rfl
  simp [vars, Term.args, Emit.headArgs_cons, Emit.headArg_struct, Emit.headArg_var, Term.structures,
    Term.structuresList, Emit.matchLevels_cons, Emit.matchLevel_cons, Emit.matchArgs_var,
    Emit.matchArgs_struct, slot, no_args, no_level, no_levels, no_more, Emit.temp, Emit.maxRegister]

/-- Whether the code of its head, run on that machine, binds the variable and what it reads then. -/
def Exec.runsNested : Bool :=
  match runAll .nested .nested [.allocate 1, .getStructure ⟨⟨1⟩, 2⟩ 0, .unifyVariable (.slot 0),
      .unifyVariable (.register 2), .getStructure ⟨⟨2⟩, 1⟩ 2, .unifyValue (.slot 0),
        .getValue (.slot 0) 1]
      .nested with
  | .ok success later => decide (success = true ∧
    later.frames[0]?.map Frame.slots = some #[some 2] ∧
      later.memory.heap.extractEach [0, 4, 2] (.reserving []) =
        [.ok (.struct ⟨1⟩ [.atom ⟨4⟩, .struct ⟨2⟩ [.atom ⟨4⟩]]), .error .cyclicTerm,
          .ok (.atom ⟨4⟩)])
  | .error _ _ => false

/-- The code of its head, run on that machine. -/
theorem Exec.runAll_nested :
    ∃ later, runAll .nested .nested [.allocate 1, .getStructure ⟨⟨1⟩, 2⟩ 0,
        .unifyVariable (.slot 0), .unifyVariable (.register 2), .getStructure ⟨⟨2⟩, 1⟩ 2,
        .unifyValue (.slot 0), .getValue (.slot 0) 1] .nested = .ok true later ∧
      later.frames[0]?.map Frame.slots = some #[some 2] ∧
      later.memory.heap.extractEach [0, 4, 2] (.reserving []) =
        [.ok (.struct ⟨1⟩ [.atom ⟨4⟩, .struct ⟨2⟩ [.atom ⟨4⟩]]), .error .cyclicTerm,
          .ok (.atom ⟨4⟩)] := by
  have made : runsNested = true := by decide +kernel
  unfold runsNested at made
  generalize runAll _ _ _ _ = result at made ⊢
  cases result with
  | error fault later => cases made
  | ok success later =>
    obtain ⟨rfl, slots, read⟩ := of_decide_eq_true made
    exact ⟨later, rfl, slots, read⟩

/-- A structure that is there and one that is not, with a variable in both, beside a cyclic term. -/
theorem head_code_matches_nested :
    let b : Term := .atom ⟨4⟩
    let rule := CompiledRule.nested.rule
    (rule.head.fits = true ∧ Heap.nested.Formed (fun _ ↦ True) 0 ∧ rule.headEmission.2.used ≤ 3 ∧
      ∀ address ∈ [0, 7], address < Heap.nested.size) ∧
      ∃ addresses loaded unified place,
        rule.head.args.mapM Heap.Load.load { heap := Heap.nested } = .ok addresses loaded ∧
        Memory.unifyEach .off ([0, 7].zip addresses) { heap := loaded.heap } = (.ok true, unified) ∧
        loaded.vars[7]? = some place ∧ unified.heap.extractEach [0, 4, place] (.reserving []) =
          [.ok (.struct ⟨1⟩ [b, .struct ⟨2⟩ [b]]), .error .cyclicTerm, .ok b] := by
  intro b rule
  obtain ⟨vars, used, code⟩ := @Rule.headEmission_nested rule rfl rfl
  have inside : ∀ address ∈ [0, 7], address < Heap.nested.size := by decide
  have enough : rule.headEmission.2.used ≤ 3 := Nat.le_of_eq used
  refine ⟨⟨by decide, Heap.formed_nested, enough, inside⟩, ?_⟩
  have held : ∀ (index : Nat) (address : Address), [0, 7][index]? = some address →
      Machine.nested.registers[index]? = some (some address) := by
    intro index address here
    match index with
    | 0 | 1 =>
      cases here
      rfl
    | _ + 2 => cases here
  obtain ⟨success, later, frame, addresses, loaded, unified, run, -, at_frame, load,
    unify, reads⟩ :=
    @head_code_matches_like_unification rule .nested .nested .nested [0,
      7] (by decide) rfl Heap.formed_nested
      (by decide) enough rfl held inside
  obtain ⟨last, made, slots, read⟩ := Exec.runAll_nested
  rw [vars, code, List.length_singleton, made] at run
  cases run
  obtain ⟨held_vars, same⟩ := reads rfl
  have occurs : 7 ∈ rule.head.args.flatMap Term.occurrences := by
    simp [rule, CompiledRule.nested, Term.args]
  obtain ⟨slot, place, in_slot, at_place⟩ := held_vars 7 occurs
  refine ⟨addresses, loaded, unified, place, load, unify, at_place, ?_⟩
  have at_slot : frame.slots = #[some 2] := by
    have here : later.frames[0]? = some frame := at_frame
    rw [here] at slots
    exact Option.some.inj slots
  have corresponding : ∀ cell ∈ [(0, 0), (4, 4), (2, place)],
      (cell.1 = cell.2 ∧ cell.1 < Heap.nested.size) ∨ ∃ v ∈ rule.head.args.flatMap Term.occurrences,
        frame.slots[rule.vars.idxOf v]? = some (some cell.1) ∧ loaded.vars[v]? = some cell.2 := by
    rw [List.forall_mem_cons, List.forall_mem_cons, List.forall_mem_singleton, vars, at_slot]
    exact ⟨.inl ⟨rfl, by decide⟩, .inl ⟨rfl, by decide⟩, .inr ⟨7, occurs, rfl, at_place⟩⟩
  obtain ⟨ρ, renamed, -⟩ := same _ corresponding [] []
  simpa [read, Except.map, b] using renamed

end Head
end HornMachine
