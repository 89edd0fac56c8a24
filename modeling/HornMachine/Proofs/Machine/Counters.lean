import HornMachine.Machine.Run
import HornMachine.Proofs.Computation

/-!
# What a machine leaves alone

A computation preserves a property of states when every state it ends in has it, whether it ends
well or in an error. The property is carried through a computation part by part, so that one line is
needed for each operation of the machine. Main statements: starting an attempt and searching for its
next solution keep the size of the bank, and they never count a fact as asserted; only the caller
that asserts it does. Of the instructions run, each operation leaves the number alone but a step, so
that every solution takes an instruction.
-/

namespace HornMachine

section Preserves

variable {ε σ α β : Type} {property : σ → Prop}

/-- A computation ends in a state with a property if it starts in one. -/
def Preserves (property : σ → Prop) (x : EStateM ε σ α) : Prop :=
  ∀ state, property state →
    match x state with
    | .ok _ next => property next
    | .error _ next => property next

theorem preserves_pure (value : α) : Preserves property (pure value : EStateM ε σ α) :=
  fun _ holds ↦ holds

theorem preserves_throw (error : ε) : Preserves property (throw error : EStateM ε σ α) :=
  fun _ holds ↦ holds

theorem preserves_set {next : σ} (holds : property next) :
    Preserves property (set next : EStateM ε σ PUnit) :=
  fun _ _ ↦ holds

theorem preserves_modify {f : σ → σ} (holds : ∀ state, property state → property (f state)) :
    Preserves property (modify f : EStateM ε σ PUnit) :=
  holds

/-- What comes after reading the state may use that it has the property. -/
theorem preserves_get_bind {f : σ → EStateM ε σ α}
    (later : ∀ state, property state → Preserves property (f state)) :
    Preserves property (get >>= f) :=
  fun state holds ↦ later state holds state holds

theorem preserves_bind {x : EStateM ε σ α} {f : α → EStateM ε σ β}
    (first : Preserves property x) (later : ∀ value, Preserves property (f value)) :
    Preserves property (x >>= f) := by
  intro state holds
  have middle := first state holds
  rw [bind_apply]
  cases ended : x state with
  | ok value next =>
    rw [ended] at middle
    exact later value next middle
  | error error next =>
    rw [ended] at middle
    exact middle

theorem preserves_throw_bind (error : ε) (f : α → EStateM ε σ β) :
    Preserves property (throw error >>= f) :=
  fun _ holds ↦ holds

/-- A computation from a state ends in one with a property. -/
structure Ends (property : σ → Prop) (x : EStateM ε σ α) (state : σ) : Prop where
  ok : ∀ value next, x state = .ok value next → property next
  error : ∀ error next, x state = .error error next → property next

theorem Preserves.ends {x : EStateM ε σ α} (kept : Preserves property x) {state : σ}
    (holds : property state) : Ends property x state := by
  have ended := kept state holds
  constructor
  · intro value next same
    rwa [same] at ended
  · intro error next same
    rwa [same] at ended

theorem preserves_of_ends {x : EStateM ε σ α}
    (ends : ∀ state, property state → Ends property x state) :
    Preserves property x := by
  intro state holds
  cases ended : x state with
  | ok value next => exact (ends state holds).ok value next ended
  | error error next => exact (ends state holds).error error next ended

/-- Once its first part is done, a computation ends with what its second part keeps. -/
theorem ends_bind {x : EStateM ε σ α} {f : α → EStateM ε σ β} {state middle : σ} {value : α}
    (first : x state = .ok value middle) (later : Ends property (f value) middle) :
    Ends property (x >>= f) state := by
  have same : (x >>= f) state = f value middle := by rw [bind_apply, first]
  exact ⟨fun result next ended ↦ later.ok result next (same ▸ ended),
    fun error next ended ↦ later.error error next (same ▸ ended)⟩

theorem Ends.bind {x : EStateM ε σ α} {f : α → EStateM ε σ β} {state : σ}
    (first : Ends property x state)
    (later : ∀ value, Preserves property (f value)) : Ends property (x >>= f) state := by
  cases ended : x state with
  | ok value next => exact ends_bind ended ((later value).ends (first.ok value next ended))
  | error error next =>
    have broken : (x >>= f) state = .error error next := by rw [bind_apply, ended]
    constructor
    · intro value last ended
      cases broken.symm.trans ended
    · intro other last same
      cases broken.symm.trans same
      exact first.error error next ended

/-- What only reads a state may be left out. -/
theorem ends_bind_of_reads {x : EStateM ε σ α} {f : α → EStateM ε σ β} {state : σ}
    (reads : Preserves (· = state) x) (holds : property state)
    (later : ∀ value, x state = .ok value state → Ends property (f value) state) :
    Ends property (x >>= f) state := by
  have same := reads.ends rfl
  cases ended : x state with
  | ok value next =>
    cases same.ok value next ended
    exact ends_bind ended (later value ended)
  | error error next =>
    cases same.error error next ended
    have broken : (x >>= f) state = .error error state := by rw [bind_apply, ended]
    constructor
    · intro value next ended
      cases broken.symm.trans ended
    · intro error next ended
      cases broken.symm.trans ended
      exact holds

theorem preserves_mapM {f : α → EStateM ε σ β} (each : ∀ x, Preserves property (f x))
    (xs : List α) :
    Preserves property (xs.mapM f) := by
  induction xs with
  | nil => exact preserves_pure _
  | cons x xs ih =>
    rw [List.mapM_cons]
    exact preserves_bind (each x) fun _ ↦ preserves_bind ih fun _ ↦ preserves_pure _

end Preserves

namespace Machine

/-- The machine has counted a number of facts as asserted. -/
def Asserted (count : Nat) (machine : Machine) : Prop := machine.stats.factsAsserted = count

/-- The machine has a bank of the given size and has counted a number of facts as asserted. -/
def Fixed (bank count : Nat) (machine : Machine) : Prop :=
  machine.registers.size = bank ∧ machine.Asserted count

/-- The machine has also run a number of instructions in this attempt, and in all. -/
def Kept (bank count steps instructions : Nat) (machine : Machine) : Prop :=
  machine.registers.size = bank ∧ machine.Asserted count ∧ machine.steps = steps ∧
    machine.stats.instructions = instructions

/-- All that `Kept` speaks of is as it was on a machine before, and so are its status and the number
of solutions it has counted. -/
def Quiet (start machine : Machine) : Prop :=
  machine.Kept start.registers.size start.stats.factsAsserted start.steps start.stats.instructions ∧
    machine.stats.solutions = start.stats.solutions ∧ machine.status = start.status

theorem Quiet.refl (machine : Machine) : machine.Quiet machine := ⟨⟨rfl, rfl, rfl, rfl⟩, rfl, rfl⟩

/-- What is quiet from every machine on keeps the bank and the counts. -/
theorem preserves_kept {ε α : Type} {x : EStateM ε Machine α} {bank count steps instructions : Nat}
    (quiet : ∀ start, Preserves (Quiet start) x) :
    Preserves (Kept bank count steps instructions) x := by
  rintro machine ⟨rfl, rfl, rfl, rfl⟩
  have ended := quiet machine machine (.refl machine)
  cases result : x machine with
  | ok value next =>
    rw [result] at ended
    exact ended.1
  | error error next =>
    rw [result] at ended
    exact ended.1

/-- Whether a property holds does not depend on what is in registers and slots. -/
def Refillable (property : Machine → Prop) : Prop :=
  ∀ machine registers frames, registers.size = machine.registers.size → property machine →
    property { machine with registers, frames }

/-- Whether a property holds depends neither on the choice points nor on where the machine goes
on. -/
def Movable (property : Machine → Prop) : Prop :=
  ∀ machine choices rule counter, property machine →
    property { machine with choices, rule, counter }

private theorem refillable_quiet (start : Machine) : Refillable start.Quiet :=
  fun _ _ _ same quiet ↦ ⟨⟨same.trans quiet.1.1, quiet.1.2⟩, quiet.2⟩

theorem movable_quiet (start : Machine) : Movable start.Quiet := fun _ _ _ _ quiet ↦ quiet

end Machine

namespace Exec

open Machine (Kept Quiet Refillable Movable refillable_quiet movable_quiet)

variable {start : Machine} {property : Machine → Prop}

/-! ### What only reads -/

theorem preserves_lift {α : Type} (result : Except Fault α) : Preserves property (lift result) := by
  cases result with
  | ok value => exact preserves_pure value
  | error fault => exact preserves_throw fault

theorem preserves_register (index : Nat) : Preserves property (register index) := by
  refine preserves_get_bind fun machine _ ↦ ?_
  split
  · exact preserves_throw _
  · exact preserves_throw _
  · exact preserves_pure _

theorem preserves_frame : Preserves property frame := by
  refine preserves_get_bind fun machine _ ↦ ?_
  split
  · exact preserves_throw _
  · split
    · exact preserves_throw _
    · exact preserves_pure _

theorem preserves_load (place : Place) : Preserves property (load place) := by
  cases place with
  | register index => exact preserves_register index
  | slot index =>
    refine preserves_bind preserves_frame fun current ↦ ?_
    obtain ⟨number, current⟩ := current
    dsimp only
    split
    · exact preserves_throw _
    · exact preserves_throw _
    · exact preserves_pure _

theorem eq_of_load {machine later : Machine} {place : Place} {address : Address}
    (ended : load place machine = .ok address later) : later = machine := by
  have reads : Preserves (· = machine) (load place) := preserves_load place
  exact (reads.ends rfl).ok address later ended

theorem preserves_value (address : Address) : Preserves property (value address) :=
  preserves_get_bind fun _ _ ↦ preserves_lift _

private theorem preserves_patternArg (index : Nat) (argument : Option Address) :
    Preserves property (patternArg index argument) := by
  unfold patternArg
  split
  · exact preserves_throw _
  · refine preserves_get_bind fun machine _ ↦ ?_
    split
    · exact preserves_pure _
    · exact preserves_pure _
    · exact preserves_throw _

theorem preserves_pattern (goal : Functor) (arguments : Array (Option Address)) :
    Preserves property (pattern goal arguments) :=
  preserves_bind (preserves_mapM (fun _ ↦ preserves_patternArg _ _) _) fun _ ↦ preserves_pure _

/-! ### Places and memory -/

theorem preserves_setRegister (refillable : Refillable property) (index : Nat) (address : Address) :
    Preserves property (setRegister index address) := by
  refine preserves_get_bind fun machine holds ↦ ?_
  split
  · exact preserves_set (refillable machine _ machine.frames Array.size_setIfInBounds holds)
  · exact preserves_throw _

theorem preserves_store (refillable : Refillable property) (place : Place) (address : Address) :
    Preserves property (store place address) := by
  cases place with
  | register index => exact preserves_setRegister refillable index address
  | slot index =>
    refine preserves_bind preserves_frame fun current ↦ ?_
    obtain ⟨number, current⟩ := current
    dsimp only
    split
    · exact preserves_modify fun machine holds ↦ refillable machine machine.registers _ rfl holds
    · exact preserves_throw _

private theorem preserves_onMemory {α : Type} (operation : Memory → Except Fault α × Memory) :
    Preserves (Quiet start) (onMemory operation) :=
  preserves_get_bind fun _ counted ↦
    preserves_bind (preserves_set counted) fun _ ↦ preserves_lift _

private theorem preserves_extend (operation : Heap → Heap) :
    Preserves (Quiet start) (extend operation) :=
  preserves_get_bind fun _ counted ↦
    preserves_bind (preserves_set counted) fun _ ↦ preserves_pure _

private theorem preserves_assign (address target : Address) :
    Preserves (Quiet start) (Exec.bind address target) := by
  refine preserves_get_bind fun machine counted ↦ ?_
  split
  · exact preserves_set counted
  · exact preserves_throw _

private theorem preserves_matchConstant (address : Address) (constant : Constant) :
    Preserves (Quiet start) (matchConstant address constant) := by
  refine preserves_bind (preserves_value address) fun found ↦ ?_
  split
  · exact preserves_bind (preserves_extend _) fun _ ↦
      preserves_bind (preserves_assign _ _) fun _ ↦ preserves_pure _
  · exact preserves_pure _
  · exact preserves_pure _
  · exact preserves_pure _

/-! ### Choice points -/

private theorem size_foldl_setIfInBounds (entries : List (Option Address × Nat))
    (registers : Array (Option Address)) :
    (entries.foldl (fun registers (address, index) ↦ registers.setIfInBounds index address)
      registers).size = registers.size := by
  induction entries generalizing registers with
  | nil => rfl
  | cons entry entries ih => simp [ih]

theorem preserves_restore : Preserves (Quiet start) restore := by
  refine preserves_get_bind fun machine counted ↦ ?_
  split
  · exact preserves_pure _
  · dsimp only
    split
    · exact preserves_throw_bind _ _
    · exact preserves_set ⟨⟨(size_foldl_setIfInBounds _ _).trans counted.1.1, counted.1.2⟩,
        counted.2⟩

section Moving

variable (movable : Movable property)

include movable

theorem preserves_setAlternative (alternative : Alternative) :
    Preserves property (setAlternative alternative) := by
  refine preserves_modify fun machine holds ↦ ?_
  split
  · exact holds
  · exact movable machine _ machine.rule machine.counter holds

private theorem preserves_dropChoice : Preserves property dropChoice :=
  preserves_modify fun machine holds ↦ movable machine _ machine.rule machine.counter holds

theorem preserves_jump (rule : RuleId) (offset : Nat) : Preserves property (jump rule offset) :=
  preserves_modify fun machine holds ↦ movable machine machine.choices _ _ holds

theorem preserves_continueAfter (continuation : Continuation) :
    Preserves property (continueAfter continuation) := by
  cases continuation with
  | halt => exact preserves_pure _
  | goTo rule offset => exact preserves_jump movable rule offset

theorem preserves_takeClause (context : Context) (choice : Choice) (position : Nat) :
    Preserves property (takeClause context choice position) := by
  unfold takeClause
  dsimp only
  split
  · exact preserves_bind (preserves_dropChoice movable) fun _ ↦ preserves_pure _
  · split
    · exact preserves_bind (preserves_dropChoice movable) fun _ ↦
        preserves_bind (preserves_jump movable _ _) fun _ ↦ preserves_pure _
    · exact preserves_bind (preserves_setAlternative movable _) fun _ ↦
        preserves_bind (preserves_jump movable _ _) fun _ ↦ preserves_pure _

end Moving

theorem preserves_unifyArguments {check : OccursCheck}
    (unifies : ∀ left right, Preserves property (unify check left right)) (header : Address)
    (indices : List Nat) : Preserves property (unifyArguments check header indices) := by
  induction indices with
  | nil => exact preserves_pure _
  | cons index indices ih =>
    refine preserves_bind (preserves_register index) fun address ↦
      preserves_bind (unifies _ _) fun unified ↦ ?_
    cases unified with
    | true => exact ih
    | false => exact preserves_pure _

theorem preserves_unifyFact (check : OccursCheck) (goal : Functor) (fact : Fact) :
    Preserves (Quiet start) (unifyFact check goal fact) := by
  unfold unifyFact
  split
  · exact preserves_pure _
  · refine preserves_bind (preserves_onMemory _) fun address ↦
      preserves_bind (preserves_value address) fun found ↦ ?_
    split
    · split
      · exact preserves_unifyArguments (fun _ _ ↦ preserves_onMemory _) _ _
      · exact preserves_pure _
    · exact preserves_pure _

private theorem preserves_takeFact (context : Context) (choice : Choice) (query : Query)
    (number : Nat) :
    Preserves (Quiet start) (takeFact context choice query number) := by
  have noted (alternative : Alternative) : Preserves (Quiet start) (setAlternative alternative) :=
    preserves_setAlternative (movable_quiet start) alternative
  have clauses : Preserves (Quiet start)
      (do setAlternative (.clauses 0); takeClause context choice 0) :=
    preserves_bind (noted _) fun _ ↦ preserves_takeClause (movable_quiet start) _ _ _
  induction number generalizing query with
  | zero => exact clauses
  | succ number ih =>
    unfold takeFact
    split
    · exact clauses
    · refine preserves_bind (noted _) fun _ ↦
        preserves_bind (preserves_unifyFact _ _ _) fun unified ↦ ?_
      cases unified with
      | true => exact preserves_bind (preserves_continueAfter (movable_quiet start) _) fun _ ↦
        preserves_pure _
      | false => exact preserves_bind preserves_restore fun _ ↦ ih _

private theorem preserves_resume (context : Context) :
    Preserves (Quiet start) (resume context) := by
  refine preserves_bind preserves_restore fun _ ↦ preserves_get_bind fun machine _ ↦ ?_
  split
  · exact preserves_pure _
  · split
    · exact preserves_takeFact _ _ _ _
    · exact preserves_takeClause (movable_quiet start) _ _ _

/-! ### Calls and instructions -/

private theorem preserves_callPredicate (context : Context) (goal : Functor) :
    Preserves (Quiet start) (callPredicate context goal) := by
  refine preserves_get_bind fun machine _ ↦ ?_
  split
  · exact preserves_throw _
  · dsimp only
    split
    · exact preserves_throw_bind _ _
    · exact preserves_bind (preserves_pattern _ _) fun _ ↦
        preserves_bind (preserves_modify fun _ counted ↦ counted) fun _ ↦ preserves_resume context

private theorem preserves_call (context : Context) (target : Target) :
    Preserves (Quiet start) (call context target) := by
  refine preserves_bind (preserves_modify fun _ counted ↦ counted) fun _ ↦ ?_
  split
  · exact preserves_bind (preserves_mapM preserves_register _) fun _ ↦ preserves_onMemory _
  · exact preserves_callPredicate context _

theorem preserves_capture (forgets : ∀ machine, property machine →
    property { machine with answer := none })
    (compiled : CompiledRule) : Preserves property (capture compiled) := by
  refine preserves_get_bind fun machine holds ↦
    preserves_bind (preserves_set (forgets machine holds)) fun _ ↦ ?_
  split
  · exact preserves_throw _
  · exact preserves_bind (preserves_lift _) fun _ ↦
      preserves_bind (preserves_lift _) fun _ ↦ preserves_pure _

private theorem preserves_proceed (compiled : CompiledRule) {bank count steps instructions : Nat} :
    Preserves (Kept bank count steps instructions) (proceed compiled) := by
  refine preserves_get_bind fun machine _ ↦ ?_
  split
  · exact Machine.preserves_kept fun _ ↦ preserves_jump (movable_quiet _) _ _
  · have captured : Preserves (Kept bank count steps instructions) (capture compiled) :=
      preserves_capture (fun _ counted ↦ counted) compiled
    exact preserves_bind captured fun _ ↦ preserves_modify fun _ counted ↦ counted

private theorem preserves_getStructure (functor : Functor) (arg : Nat) :
    Preserves (Quiet start) (getStructure functor arg) := by
  refine preserves_bind (preserves_register arg) fun address ↦
    preserves_bind (preserves_value address) fun found ↦ ?_
  split
  · exact preserves_bind (preserves_extend _) fun _ ↦ preserves_bind (preserves_assign _ _) fun _ ↦
      preserves_bind (preserves_modify fun _ counted ↦ counted) fun _ ↦ preserves_pure _
  · split
    · exact preserves_bind (preserves_modify fun _ counted ↦ counted) fun _ ↦ preserves_pure _
    · exact preserves_pure _
  · exact preserves_pure _

/-- Only the instruction that leaves a rule can find a solution. -/
theorem preserves_execute_of_ne (context : Context) (compiled : CompiledRule)
    {instruction : Instruction} (other : instruction ≠ .proceed) :
    Preserves (Quiet start) (execute context compiled instruction) := by
  have quiet (f : Machine → Machine) (same : ∀ machine, (f machine).stats = machine.stats ∧
      (f machine).registers = machine.registers ∧ (f machine).steps = machine.steps ∧
      (f machine).status = machine.status) :
      Preserves (Quiet start) (modify f : Exec PUnit) :=
    preserves_modify fun machine counted ↦ by
      obtain ⟨stats, registers, spent, status⟩ := same machine
      rwa [Quiet, Kept, Machine.Asserted, stats, registers, spent, status]
  have done {x : Exec PUnit} (first : Preserves (Quiet start) x) :
      Preserves (Quiet start) (do x; pure true) :=
    preserves_bind first fun _ ↦ preserves_pure _
  have stored (place : Place) (address : Address) : Preserves (Quiet start) (store place address) :=
    preserves_store (refillable_quiet start) place address
  have put (index : Nat) (address : Address) :
    Preserves (Quiet start) (setRegister index address) :=
    preserves_setRegister (refillable_quiet start) index address
  cases instruction with
  | allocate size => exact done (quiet _ fun _ ↦ ⟨rfl, rfl, rfl, rfl⟩)
  | deallocate =>
    exact preserves_bind preserves_frame fun _ ↦ done (quiet _ fun _ ↦ ⟨rfl, rfl, rfl, rfl⟩)
  | getVariable place arg =>
    exact preserves_bind (preserves_register arg) fun _ ↦ done (stored _ _)
  | getValue place arg =>
    exact preserves_bind (preserves_load place) fun _ ↦
      preserves_bind (preserves_register arg) fun _ ↦ preserves_onMemory _
  | getConstant constant arg =>
    exact preserves_bind (preserves_register arg) fun _ ↦ preserves_matchConstant _ _
  | getStructure functor arg => exact preserves_getStructure functor arg
  | unifyVariable place =>
    refine preserves_get_bind fun machine _ ↦ ?_
    dsimp only
    split
    · exact preserves_bind (stored _ _) fun _ ↦ done (quiet _ fun _ ↦ ⟨rfl, rfl, rfl, rfl⟩)
    · exact preserves_bind (preserves_extend _) fun _ ↦ done (stored _ _)
  | unifyValue place =>
    refine preserves_bind (preserves_load place) fun _ ↦ preserves_get_bind fun machine _ ↦ ?_
    split
    · exact preserves_bind (quiet _ fun _ ↦ ⟨rfl, rfl, rfl, rfl⟩) fun _ ↦ preserves_onMemory _
    · exact preserves_bind (preserves_extend _) fun _ ↦ preserves_pure _
  | unifyConstant constant =>
    refine preserves_get_bind fun machine _ ↦ ?_
    split
    · exact preserves_bind (quiet _ fun _ ↦ ⟨rfl, rfl, rfl, rfl⟩) fun _ ↦
        preserves_matchConstant _ _
    · exact preserves_bind (preserves_extend _) fun _ ↦ preserves_pure _
  | putVariable place arg =>
    exact preserves_bind (preserves_extend _) fun _ ↦ preserves_bind (stored _ _) fun _ ↦
      done (put _ _)
  | putValue place arg =>
    exact preserves_bind (preserves_load place) fun _ ↦ done (put _ _)
  | putConstant constant arg =>
    exact preserves_bind (preserves_extend _) fun _ ↦ done (put _ _)
  | putStructure functor index =>
    exact preserves_bind (preserves_extend _) fun _ ↦
      preserves_bind (put _ _) fun _ ↦ done (quiet _ fun _ ↦ ⟨rfl, rfl, rfl, rfl⟩)
  | setVariable place =>
    exact preserves_bind (preserves_extend _) fun _ ↦ done (stored _ _)
  | setValue place =>
    exact preserves_bind (preserves_load place) fun _ ↦
      preserves_bind (preserves_extend _) fun _ ↦ preserves_pure _
  | setConstant constant =>
    exact preserves_bind (preserves_extend _) fun _ ↦ preserves_pure _
  | call target => exact preserves_call context target
  | proceed => exact absurd rfl other
  | fail => exact preserves_pure _

theorem preserves_execute {bank count steps instructions : Nat} (context : Context)
    (compiled : CompiledRule) (instruction : Instruction) :
    Preserves (Kept bank count steps instructions) (execute context compiled instruction) := by
  by_cases leaves : instruction = .proceed
  · subst leaves
    exact preserves_bind (preserves_proceed compiled) fun _ ↦ preserves_pure _
  · exact Machine.preserves_kept fun _ ↦ preserves_execute_of_ne context compiled leaves

end Exec

namespace Machine

variable {bank count steps instructions : Nat}

/-! ### Attempts -/

/-- A property of the size of the bank and of what is counted, which goes on to hold while
instructions are run as far as the limit allows. -/
structure Accounts (context : Context) (property : Machine → Prop) : Prop where
  kept : ∀ machine later, property machine → later.Kept machine.registers.size
    machine.stats.factsAsserted machine.steps machine.stats.instructions → property later
  counted : ∀ machine, property machine → machine.steps < context.stepLimit → property
    { machine with
      steps := machine.steps + 1
      stats := { machine.stats with instructions := machine.stats.instructions + 1 } }

theorem Accounts.preserves {context : Context} {property : Machine → Prop}
    (accounts : Accounts context property) {ε α : Type} {x : EStateM ε Machine α}
    (quiet : ∀ bank count steps instructions, Preserves (Kept bank count steps instructions) x) :
    Preserves property x := by
  intro machine counted
  have ended := quiet machine.registers.size machine.stats.factsAsserted machine.steps
    machine.stats.instructions machine ⟨rfl, rfl, rfl, rfl⟩
  cases result : x machine with
  | ok value next =>
    rw [result] at ended
    exact accounts.kept machine next counted ended
  | error error next =>
    rw [result] at ended
    exact accounts.kept machine next counted ended

private theorem accounts_fixed (context : Context) : Accounts context (Fixed bank count) where
  kept _ _ counted kept := ⟨kept.1.trans counted.1, kept.2.1.trans counted.2⟩
  counted _ counted _ := counted

theorem preserves_fixed {ε α : Type} {x : EStateM ε Machine α}
    (quiet : ∀ bank count steps instructions, Preserves (Kept bank count steps instructions) x) :
    Preserves (Fixed bank count) x :=
  (accounts_fixed ⟨.new 0, .empty, .off, 0, false⟩).preserves quiet

private theorem preserves_ofExec {α : Type} {exec : Exec α} {property : Machine → Prop}
    (quiet : Preserves property exec) : Preserves property (Run.ofExec exec) := by
  intro machine counted
  have ended := quiet machine counted
  rw [Run.ofExec]
  cases result : exec machine with
  | ok value next => simpa [result] using ended
  | error fault next => simpa [result] using ended

private theorem preserves_setArguments {start : Machine} (index : Nat) (addresses : List Address) :
    Preserves (Quiet start) (setArguments index addresses) := by
  induction addresses generalizing index with
  | nil => exact preserves_pure _
  | cons address addresses ih =>
    exact preserves_bind (Exec.preserves_setRegister (refillable_quiet start) _ _) fun _ ↦ ih _

private theorem preserves_enter (rule : RuleId) (head : Functor) (goal : Option Term) :
    Preserves (Kept bank count steps instructions) (enter rule head goal) := by
  have entered {start : Machine} : Preserves (Quiet start) (enterArguments head.arity goal) := by
    cases goal with
    | none => exact preserves_mapM (fun _ ↦ Exec.preserves_extend _) _
    | some term => exact Exec.preserves_onMemory fun memory ↦ loadAll memory term.args ∅
  refine preserves_bind (preserves_modify fun _ counted ↦ counted) fun _ ↦
    preserves_get_bind fun machine _ ↦ ?_
  dsimp only
  split
  · exact preserves_throw_bind _ _
  · split
    · exact preserves_bind (preserves_ofExec (preserves_kept fun _ ↦ entered)) fun _ ↦
        preserves_bind (preserves_ofExec (preserves_kept fun _ ↦ preserves_setArguments _ _))
          fun _ ↦
          preserves_modify fun _ counted ↦ counted
    · exact preserves_modify fun _ counted ↦ counted

theorem preserves_start (context : Context) (rule : RuleId) (goal : Option Term) :
    Preserves (Fixed bank count) (start context rule goal) := by
  unfold start
  split
  · exact preserves_throw _
  · exact preserves_bind (preserves_modify fun _ counted ↦ ⟨by simpa [reset] using counted.1,
      counted.2⟩) fun _ ↦ preserves_fixed fun _ _ _ _ ↦ preserves_enter _ _ _

theorem preserves_backtrackOver (context : Context) (choices : List Choice) :
    Preserves (Kept bank count steps instructions) (backtrackOver context choices) := by
  induction choices with
  | nil => exact preserves_modify fun _ counted ↦ counted
  | cons choice older ih =>
    refine preserves_bind (preserves_modify fun _ counted ↦ counted) fun _ ↦
      preserves_bind (preserves_ofExec (preserves_kept fun _ ↦ Exec.preserves_resume context))
        fun resumed ↦ ?_
    cases resumed with
    | true => exact preserves_modify fun _ counted ↦ counted
    | false => exact ih

section Running

variable {context : Context} {property : Machine → Prop} (accounts : Accounts context property)

include accounts

theorem Accounts.step : Preserves property (step context) := by
  unfold Machine.step
  dsimp only
  split
  · exact preserves_throw_bind _ _
  intro machine holds
  rw [bind_apply, get_apply]
  dsimp only
  by_cases spent : machine.steps ≥ context.stepLimit
  · rw [if_pos spent]
    exact holds
  rw [if_neg spent, bind_apply, modify_apply]
  refine (?_ : Preserves property _) _ (accounts.counted machine holds (Nat.lt_of_not_le spent))
  refine preserves_get_bind fun machine _ ↦ ?_
  split
  · exact preserves_throw _
  split
  · exact preserves_throw _
  split
  · exact preserves_throw _
  refine preserves_bind (preserves_modify fun machine counted ↦ accounts.kept machine _ counted
    ⟨rfl, rfl, rfl, rfl⟩) fun _ ↦ preserves_bind (preserves_ofExec (accounts.preserves
      fun _ _ _ _ ↦ Exec.preserves_execute _ _ _)) fun going ↦ ?_
  cases going with
  | true => exact preserves_pure _
  | false => exact preserves_modify fun machine counted ↦
    accounts.kept machine _ counted ⟨rfl, rfl, rfl, rfl⟩

theorem Accounts.runWithin (turns : Nat) : Preserves property (runWithin context turns) := by
  induction turns with
  | zero => exact preserves_throw _
  | succ turns ih =>
    refine preserves_get_bind fun machine _ ↦ ?_
    split
    · exact preserves_bind accounts.step fun _ ↦ ih
    · refine preserves_bind ?_ fun _ ↦ ih
      exact preserves_get_bind fun machine _ ↦
        accounts.preserves fun _ _ _ _ ↦ preserves_backtrackOver context machine.choices
    · exact preserves_get_bind fun machine counted ↦ preserves_bind
        (preserves_set (accounts.kept machine _ counted ⟨rfl, rfl, rfl, rfl⟩)) fun _ ↦
          preserves_pure _
    · exact preserves_pure _
    · exact preserves_pure _

theorem Accounts.nextSolution : Preserves property (nextSolution context) := by
  intro machine counted
  unfold Machine.nextSolution
  dsimp only
  generalize begun : (if machine.status = .succeeded then
    { machine with status := .backtracking } else machine) = first
  have still : property first := by
    rw [← begun]
    split
    · exact accounts.kept machine _ counted ⟨rfl, rfl, rfl, rfl⟩
    · exact counted
  have ended := accounts.runWithin (first.turnBound context) first still
  cases result : Machine.runWithin context (first.turnBound context) first with
  | ok solution next => simpa [result] using ended
  | error error next =>
    rw [result] at ended
    exact accounts.kept next _ ended ⟨rfl, rfl, rfl, rfl⟩

end Running

theorem preserves_step (context : Context) : Preserves (Fixed bank count) (step context) :=
  (accounts_fixed context).step

theorem preserves_nextSolution (context : Context) :
    Preserves (Fixed bank count) (nextSolution context) :=
  (accounts_fixed context).nextSolution

/-- What keeps banks of every size counts no fact as asserted. -/
theorem preserves_asserted {ε α : Type} {x : EStateM ε Machine α}
    (quiet : ∀ bank, Preserves (Fixed bank count) x) : Preserves (Asserted count) x := by
  intro machine counted
  have ended := quiet machine.registers.size machine ⟨rfl, counted⟩
  cases result : x machine with
  | ok value next =>
    rw [result] at ended
    exact ended.2
  | error error next =>
    rw [result] at ended
    exact ended.2

/-! ### Instructions run -/

/-- No more instructions were run in the attempt than a limit allows, and all of them are
counted. -/
def Tallied (limit : Nat) (machine : Machine) : Prop :=
  machine.steps ≤ limit ∧ machine.stats.instructions = machine.steps

theorem accounts_tallied (context : Context) : Accounts context (Tallied context.stepLimit) where
  kept machine later counted kept := by
    rw [Tallied, kept.2.2.1, kept.2.2.2]
    exact counted
  counted machine counted few := ⟨few, congrArg (· + 1) counted.2⟩

/-- A machine that has run no instruction has run none when an attempt is started. -/
theorem preserves_start_untouched (context : Context) (rule : RuleId) (goal : Option Term) :
    Preserves (fun machine ↦ machine.steps = 0 ∧ machine.stats.instructions = 0)
      (start context rule goal) := by
  unfold start
  split
  · exact preserves_throw _
  · next compiled _ =>
    refine preserves_bind (preserves_modify fun _ untouched ↦ ⟨rfl, untouched.2⟩)
      fun _ machine untouched ↦ ?_
    have kept := preserves_enter rule compiled.head goal machine ⟨rfl, rfl, untouched⟩
    cases ended : enter rule compiled.head goal machine with
    | ok done later =>
      rw [ended] at kept
      exact kept.2.2
    | error error later =>
      rw [ended] at kept
      exact kept.2.2

section Steps

variable {context : Context} {machine later : Machine}

/-- An attempt that starts is one of a rule of the program. -/
theorem exists_rule_of_start {rule : RuleId} {goal : Option Term} {done : Unit}
    (ended : start context rule goal machine = .ok done later) :
    ∃ compiled, context.program.rule? rule = some compiled := by
  cases found : context.program.rule? rule with
  | none => simp [start, found, throw_apply] at ended
  | some compiled => exact ⟨compiled, rfl⟩

/-- No instruction has been run when an attempt has started. -/
theorem steps_start {rule : RuleId} {goal : Option Term}
    (ended : start context rule goal machine = .ok ⟨⟩ later) : later.steps = 0 := by
  obtain ⟨compiled, found⟩ := exists_rule_of_start ended
  simp only [start, found] at ended
  obtain ⟨_, fresh, cleared, entered⟩ := bind_eq_ok.1 ended
  have kept := @preserves_enter fresh.registers.size fresh.stats.factsAsserted fresh.steps
    fresh.stats.instructions rule compiled.head goal fresh ⟨rfl, rfl, rfl, rfl⟩
  rw [entered] at kept
  cases cleared
  exact kept.2.2.1

/-- A step runs one instruction, if the limit allows it. -/
theorem steps_step (ended : step context machine = .ok ⟨⟩ later) :
    later.steps = machine.steps + 1 ∧ later.steps ≤ context.stepLimit := by
  unfold step at ended
  dsimp only at ended
  split at ended
  · cases ended
  obtain ⟨_, _, read, ended⟩ := bind_eq_ok.1 ended
  cases read
  split at ended
  · cases ended
  next few =>
  obtain ⟨_, _, counted, ended⟩ := bind_eq_ok.1 ended
  cases counted
  obtain ⟨_, _, read, ended⟩ := bind_eq_ok.1 ended
  cases read
  cases at_rule : machine.rule with
  | none => simp [at_rule, throw_apply] at ended
  | some rule =>
    cases listed : context.program.rule? rule with
    | none => simp [at_rule, listed, throw_apply] at ended
    | some compiled =>
      cases code : compiled.code[machine.counter]? with
      | none => simp [at_rule, listed, code, throw_apply] at ended
      | some instruction =>
        simp only [at_rule, listed, code] at ended
        obtain ⟨_, begun, fetched, ended⟩ := bind_eq_ok.1 ended
        obtain ⟨going, next, executed, ended⟩ := bind_eq_ok.1 ended
        have kept := preserves_ofExec (@Exec.preserves_execute begun.registers.size
          begun.stats.factsAsserted begun.steps begun.stats.instructions context compiled
            instruction)
          begun ⟨rfl, rfl, rfl, rfl⟩
        rw [executed] at kept
        have spent : later.steps = begun.steps := by
          cases going with
          | true =>
            cases ended
            exact kept.2.2.1
          | false =>
            cases ended
            exact kept.2.2.1
        cases fetched
        rw [spent]
        exact ⟨rfl, Nat.lt_of_not_le few⟩

theorem steps_backtrackOver {choices : List Choice}
    (ended : backtrackOver context choices machine = .ok ⟨⟩ later) :
    later.steps = machine.steps ∧ (later.status = .running ∨ later.status = .failed) := by
  refine ⟨?_, ?_⟩
  · have kept :=
      @preserves_backtrackOver machine.registers.size machine.stats.factsAsserted machine.steps
      machine.stats.instructions context choices machine ⟨rfl, rfl, rfl, rfl⟩
    rw [ended] at kept
    exact kept.2.2.1
  · induction choices generalizing machine with
    | nil =>
      cases ended
      exact .inr rfl
    | cons choice older ih =>
      obtain ⟨-, middle, -, rest⟩ := bind_eq_ok.1 ended
      obtain ⟨resumed, next, -, rest⟩ := bind_eq_ok.1 rest
      cases resumed with
      | true =>
        cases rest
        exact .inl rfl
      | false => exact ih rest

private theorem steps_runWithin {turns : Nat} {result : Option Solution}
    (ended : runWithin context turns machine = .ok result later) :
    machine.steps ≤ later.steps ∧
      (machine.steps ≤ context.stepLimit → later.steps ≤ context.stepLimit) ∧
      (machine.status ≠ .succeeded → ∀ solution ∈ result,
        machine.steps < later.steps ∧ later.steps ≤ context.stepLimit) := by
  induction turns generalizing machine with
  | zero => cases ended
  | succ turns ih =>
    obtain ⟨_, _, read, ended⟩ := bind_eq_ok.1 ended
    cases read
    cases status : machine.status with
    | running =>
      simp only [status] at ended
      obtain ⟨_, middle, stepped, ended⟩ := bind_eq_ok.1 ended
      obtain ⟨one, few⟩ := steps_step stepped
      obtain ⟨more, enough, -⟩ := ih ended
      exact ⟨by omega, fun _ ↦ enough few, fun _ _ _ ↦ ⟨by omega, enough few⟩⟩
    | backtracking =>
      simp only [status] at ended
      obtain ⟨_, middle, returned, ended⟩ := bind_eq_ok.1 ended
      obtain ⟨same, turned⟩ := steps_backtrackOver returned
      have unsolved : middle.status ≠ .succeeded := by
        rcases turned with going | failed <;> simp [*]
      rw [← same]
      exact ⟨(ih ended).1, (ih ended).2.1, fun _ ↦ (ih ended).2.2 unsolved⟩
    | succeeded =>
      simp only [status] at ended
      cases ended
      exact ⟨Nat.le_refl _, id, fun other ↦ absurd rfl other⟩
    | failed | idle =>
      simp only [status] at ended
      cases ended
      exact ⟨Nat.le_refl _, id, fun _ ↦ nofun⟩

/-- Finding a solution takes an instruction, and no more are run than the limit allows. -/
theorem steps_nextSolution {solution : Solution}
    (ended : machine.nextSolution context = .ok (some solution) later) :
    machine.steps < later.steps ∧ later.steps ≤ context.stepLimit := by
  unfold nextSolution at ended
  dsimp only at ended
  generalize begun : (if machine.status = .succeeded then
    { machine with status := .backtracking } else machine) = first at ended
  have same : first.steps = machine.steps ∧ first.status ≠ .succeeded := by
    rw [← begun]
    split
    · exact ⟨rfl, nofun⟩
    · next unsolved => exact ⟨rfl, unsolved⟩
  cases ran : runWithin context (first.turnBound context) first with
  | error error next => simp [ran] at ended
  | ok found next =>
    simp only [ran] at ended
    cases ended
    exact same.1 ▸ (steps_runWithin ran).2.2 same.2 solution rfl

end Steps

end Machine
end HornMachine
