import HornMachine.Proofs.Program

/-!
# Code stays within its bank and its frame

The places that the code of a rule fills are registers of the bank that the rule was compiled for
and slots of its frame. Main statement: this holds of the code of every rule of a program.
-/

namespace HornMachine

/-- A place in a bank of `registers` registers and a frame of `size` slots. -/
def Place.Within (registers size : Nat) : Place → Prop
  | .register index => index < registers
  | .slot index => index < size

/-- An instruction that fills only registers of the bank and slots of the frame. -/
def Instruction.Within (registers size : Nat) : Instruction → Prop
  | .getVariable place _ | .unifyVariable place | .setVariable place => place.Within registers size
  | .putVariable place arg => place.Within registers size ∧ arg < registers
  | .putValue _ arg | .putConstant _ arg | .putStructure _ arg => arg < registers
  | _ => True

/-- Code of such instructions. -/
def Code.Within (registers size : Nat) (code : Code) : Prop :=
  ∀ instruction ∈ code, instruction.Within registers size

namespace Code

variable {registers size : Nat} {instruction : Instruction} {code more : Code}

@[simp]
theorem within_nil : Within registers size [] := by
  simp [Within]

@[simp]
theorem within_cons : Within registers size (instruction :: code) ↔
    instruction.Within registers size ∧ Within registers size code := by
  simp [Within]

@[simp]
theorem within_append : Within registers size (code ++ more) ↔
    Within registers size code ∧ Within registers size more := by
  simp [Within, or_imp, forall_and]

end Code

namespace Emit

open Code (Within)
open Rule (Goal bodyCode goalVars)

variable {registers size base : Nat} {slots : Slots}

/-- The variables have slots of the frame. -/
def Slotted (slots : Slots) (size : Nat) (vars : Set Var) : Prop :=
  ∀ v ∈ vars, slotNumber slots v < size

theorem Slotted.mono {vars more : Set Var} (slotted : Slotted slots size more)
    (fewer : vars ⊆ more) :
    Slotted slots size vars :=
  fun v member ↦ slotted v (fewer member)

private theorem temp_lt (state : State) : (temp state).1 < (temp state).2.used :=
  Nat.lt_of_lt_of_le (Nat.lt_succ_of_le (Nat.min_le_left _ _)) (Nat.le_max_right _ _)

/-! ### Heads -/

private theorem within_matchArgs {args : List Term} {state : State}
    (enough : (matchArgs slots args state).2.used ≤ registers)
    (slotted : Slotted slots size (directVars args)) :
    Within registers size (matchArgs slots args state).1.1 := by
  induction args generalizing state with
  | nil => exact Code.within_nil
  | cons arg args ih =>
    cases arg with
    | var v =>
      rw [directVars_var] at slotted
      rw [matchArgs_var] at enough ⊢
      refine Code.within_cons.2 ⟨?_, ih enough (slotted.mono Set.subset_union_right)⟩
      have inside : slotNumber slots v < size := slotted v (.inl rfl)
      split
      · exact inside
      · trivial
    | struct symbol inner =>
      rw [directVars_of_ne (by simp)] at slotted
      rw [matchArgs_struct] at enough ⊢
      refine Code.within_cons.2 ⟨?_, ih enough slotted⟩
      exact Nat.lt_of_lt_of_le (temp_lt state)
        (Nat.le_trans (advances_matchArgs slots args _).used enough)
    | atom symbol | num value =>
      rw [directVars_of_ne (by simp)] at slotted
      rw [matchArgs_constant slots rfl] at enough ⊢
      exact Code.within_cons.2 ⟨trivial, ih enough slotted⟩

private theorem within_matchLevel {level : List Pending} {state : State}
    (enough : (matchLevel slots level state).2.used ≤ registers)
    (slotted : Slotted slots size (levelVars level)) :
    Within registers size (matchLevel slots level state).1.1 := by
  induction level generalizing state with
  | nil => exact Code.within_nil
  | cons pending rest ih =>
    rw [levelVars_cons] at slotted
    rw [matchLevel_cons] at enough ⊢
    have fewer := (advances_matchLevel slots rest (matchArgs slots pending.args state).2).used
    exact Code.within_cons.2 ⟨trivial, Code.within_append.2
      ⟨within_matchArgs (Nat.le_trans fewer enough) (slotted.mono Set.subset_union_left),
        ih enough (slotted.mono Set.subset_union_right)⟩⟩

private theorem within_matchLevels {limit : Nat} {level : List Pending}
    (deep : weight level ≤ limit)
    {state : State} (enough : (matchLevels slots limit level state).2.used ≤ registers)
    (slotted : Slotted slots size (varsOf (level.map Pending.term))) :
    Within registers size (matchLevels slots limit level state).1 := by
  induction limit generalizing level state with
  | zero => exact Code.within_nil
  | succ limit ih =>
    cases level with
    | nil => exact Code.within_nil
    | cons first rest =>
      have next_deep : weight (matchLevel slots (first :: rest) state).1.2 ≤ limit :=
        weight_matchLevel_le deep state
      rw [varsOf_level slots (first :: rest) state] at slotted
      rw [matchLevels_cons] at enough ⊢
      have less :=
        (advances_matchLevels slots next_deep (matchLevel slots (first :: rest) state).2).used
      exact Code.within_append.2
        ⟨within_matchLevel (Nat.le_trans less enough) (slotted.mono Set.subset_union_left),
          ih next_deep enough (slotted.mono Set.subset_union_right)⟩

private theorem within_headArg {register : Nat} {arg : Term} {state : State}
    (enough : (headArg slots base register arg state).2.used ≤ registers)
    (slotted : Slotted slots size {v | v ∈ arg.occurrences}) :
    Within registers size (headArg slots base register arg state).1 := by
  cases arg with
  | var v =>
    have inside : slotNumber slots v < size := slotted v (by simp)
    rw [headArg_var]
    refine Code.within_cons.2 ⟨?_, Code.within_nil⟩
    split
    · exact inside
    · trivial
  | struct symbol args =>
    rw [headArg_struct] at enough ⊢
    refine within_matchLevels (weight_single symbol args register) enough ?_
    simpa [Pending.term] using slotted
  | atom symbol | num value =>
    rw [headArg_constant slots base register rfl]
    exact Code.within_cons.2 ⟨trivial, Code.within_nil⟩

theorem within_headArgs {register : Nat} {args : List Term} {state : State}
    (enough : (headArgs slots base register args state).2.used ≤ registers)
    (slotted : Slotted slots size (varsOf args)) :
    Within registers size (headArgs slots base register args state).1 := by
  induction args generalizing register state with
  | nil => exact Code.within_nil
  | cons arg args ih =>
    rw [varsOf_cons] at slotted
    rw [headArgs_cons] at enough ⊢
    have less := (covers_headArgs slots base (register + 1) args
      (headArg slots base register arg state).2).used
    exact Code.within_append.2
      ⟨within_headArg (Nat.le_trans less enough) (slotted.mono Set.subset_union_left),
        ih enough (slotted.mono Set.subset_union_right)⟩

/-! ### Goals -/

private theorem within_setArgs {args : List Term} {nested : List Nat}
    (aligned : nested.length = (args.filter isStructure).length) {state : State}
    (slotted : Slotted slots size (directVars args)) :
    Within registers size (setArgs slots args nested state).1 := by
  induction args generalizing nested state with
  | nil => cases nested <;> exact Code.within_nil
  | cons arg args ih =>
    cases arg with
    | var v =>
      rw [directVars_var] at slotted
      rw [setArgs_var]
      refine Code.within_cons.2 ⟨?_, ih aligned (slotted.mono Set.subset_union_right)⟩
      have inside : slotNumber slots v < size := slotted v (.inl rfl)
      split
      · exact inside
      · trivial
    | struct symbol inner =>
      obtain ⟨register, nested, rfl, others⟩ := exists_cons_of_aligned aligned
      rw [directVars_of_ne (by simp)] at slotted
      rw [setArgs_struct]
      exact Code.within_cons.2 ⟨trivial, ih others slotted⟩
    | atom symbol | num value =>
      rw [directVars_of_ne (by simp)] at slotted
      rw [setArgs_constant slots rfl]
      exact Code.within_cons.2 ⟨trivial, ih aligned slotted⟩

/-- The code of a structure built in a register of the bank stays within the bank. -/
def BuildsWithin (slots : Slots) (registers size : Nat) (term : Term) : Prop :=
  ∀ register state, register < registers →
    (buildStructure slots register term state).2.used ≤ registers →
    Slotted slots size {v | v ∈ term.occurrences} →
    Within registers size (buildStructure slots register term state).1

private theorem within_buildNested {args : List Term}
    (each : ∀ symbol inner, .struct symbol inner ∈ args →
      BuildsWithin slots registers size (.struct symbol inner))
    {state : State} (enough : (buildNested slots args state).2.used ≤ registers)
    (slotted : Slotted slots size (varsOf args)) :
    Within registers size (buildNested slots args state).1.1 := by
  induction args generalizing state with
  | nil =>
    rw [buildNested]
    exact Code.within_nil
  | cons arg args ih =>
    have rest (state : State) (enough : (buildNested slots args state).2.used ≤ registers) :=
      ih (fun symbol inner member ↦ each symbol inner (List.mem_cons_of_mem _ member)) enough
        (slotted.mono (varsOf_cons arg args ▸ Set.subset_union_right))
    cases arg with
    | struct symbol inner =>
      rw [buildNested_struct] at enough ⊢
      have less :
          (buildStructure slots (temp state).1 (.struct symbol inner) (temp state).2).2.used ≤
            registers := Nat.le_trans (advances_buildNested slots args _).used enough
      have below : (temp state).1 < registers := Nat.lt_of_lt_of_le (temp_lt state)
        (Nat.le_trans (advances_buildStructure slots _ symbol inner _).used less)
      exact Code.within_append.2 ⟨each symbol inner List.mem_cons_self _ _ below less
        (slotted.mono (varsOf_cons _ args ▸ Set.subset_union_left)), rest _ enough⟩
    | atom symbol | var v | num value =>
      rw [buildNested_other slots rfl] at enough ⊢
      exact rest state enough

private theorem buildsWithin (slots : Slots) (registers size : Nat) (symbol : Symbol)
    (args : List Term) :
    BuildsWithin slots registers size (.struct symbol args) := by
  generalize whole : Term.struct symbol args = term
  induction term generalizing symbol args with
  | struct symbol args ih =>
    cases whole
    intro register state lower enough slotted
    have of_args : Slotted slots size (varsOf args) := slotted.mono fun v ⟨arg, member, occurs⟩ ↦
      Term.mem_occurrences_struct.2 ⟨arg, member, occurs⟩
    rw [buildStructure_struct] at enough ⊢
    have aligned := length_buildNested slots args state
    have less := (advances_setArgs slots args aligned (buildNested slots args state).2).used
    have nested := within_buildNested (fun symbol inner member ↦ ih _ member symbol inner rfl)
      (Nat.le_trans less enough) of_args
    have direct : Slotted slots size (directVars args) :=
      of_args.mono (varsOf_eq args ▸ Set.subset_union_left)
    exact Code.within_append.2 ⟨nested, Code.within_cons.2 ⟨lower, within_setArgs aligned direct⟩⟩
  | atom _ | var _ | num _ => cases whole

private theorem within_goalArg {register : Nat} {arg : Term} {state : State}
    (lower : register < registers) (enough : (goalArg slots register arg state).2.used ≤ registers)
    (slotted : Slotted slots size {v | v ∈ arg.occurrences}) :
    Within registers size (goalArg slots register arg state).1 := by
  cases arg with
  | var v =>
    have inside : slotNumber slots v < size := slotted v (by simp)
    rw [goalArg_var]
    refine Code.within_cons.2 ⟨?_, Code.within_nil⟩
    split
    · exact ⟨inside, lower⟩
    · exact lower
  | struct symbol args =>
    exact buildsWithin slots registers size symbol args register state lower enough slotted
  | atom symbol | num value =>
    rw [goalArg_constant slots register rfl]
    exact Code.within_cons.2 ⟨lower, Code.within_nil⟩

theorem within_goalArgs {register : Nat} {args : List Term} {state : State}
    (lower : register + args.length ≤ registers)
    (enough : (goalArgs slots register args state).2.used ≤ registers)
    (slotted : Slotted slots size (varsOf args)) :
    Within registers size (goalArgs slots register args state).1 := by
  induction args generalizing register state with
  | nil => exact Code.within_nil
  | cons arg args ih =>
    rw [List.length_cons] at lower
    rw [varsOf_cons] at slotted
    rw [goalArgs_cons] at enough ⊢
    have less :=
      (advances_goalArgs slots (register + 1) args (goalArg slots register arg state).2).used
    exact Code.within_append.2 ⟨within_goalArg (by omega) (Nat.le_trans less enough)
      (slotted.mono Set.subset_union_left), ih (by omega) enough
        (slotted.mono Set.subset_union_right)⟩

private theorem within_bodyCode {goals : List Goal} (aligned : Rule.Aligned base goals)
    {state : State}
    (lower : base ≤ registers) (enough : (bodyCode slots base goals state).2.used ≤ registers)
    (slotted : Slotted slots size (goalVars goals)) :
    Within registers size (bodyCode slots base goals state).1 := by
  induction goals generalizing state with
  | nil => simp [bodyCode, Emit.pure_apply, Instruction.Within]
  | cons goal goals ih =>
    cases goal with
    | fail => simp [bodyCode, Emit.pure_apply, Instruction.Within]
    | call args target =>
      rw [bodyCode_call] at enough ⊢
      have less :=
        used_bodyCode slots base goals (goalArgs slots 0 args { state with nextTemp := base }).2
      have narrow := (aligned args target List.mem_cons_self).2
      have later :=
        ih (fun args target member ↦ aligned args target (List.mem_cons_of_mem _ member))
        enough (slotted.mono fun v ⟨args, target, member, occurs⟩ ↦
          ⟨args, target, List.mem_cons_of_mem _ member, occurs⟩)
      have room : 0 + args.length ≤ registers := by omega
      have here := within_goalArgs room (Nat.le_trans less enough)
        (slotted.mono fun v occurs ↦ ⟨args, target, List.mem_cons_self, occurs⟩)
      exact Code.within_append.2 ⟨here, Code.within_cons.2 ⟨trivial, later⟩⟩

end Emit

namespace Rule

open Emit

/-- The code of a compiled rule stays within the bank and its frame. -/
theorem within_tryCompile {rule : Rule} {signatures : Signatures} {registers : Nat}
    {compiled : CompiledRule} (respects : signatures.Respects)
    (ended : rule.tryCompile signatures registers = .ok compiled) :
    compiled.head.arity ≤ registers ∧
      Code.Within registers compiled.frameSize compiled.code.toList := by
  obtain ⟨head, goals, found, resolution, enough, rfl⟩ := tryCompile_eq_ok ended
  have resolved := resolves_resolveGoals respects resolution
  obtain ⟨count, head_vars⟩ := functor?_eq_some found
  have slotted : Slotted (Std.TreeMap.ofList rule.vars.zipIdx) rule.vars.zipIdx.length
      {v | v ∈ rule.vars} := by
    intro v member
    rw [slotNumber_vars member, List.length_zipIdx]
    exact List.idxOf_lt_length_of_mem member
  rw [emit_eq] at enough
  have covers := covers_headArgs (Std.TreeMap.ofList rule.vars.zipIdx) rule.argumentCount 0
    rule.head.args { nextTemp := rule.argumentCount, used := rule.argumentCount }
  have head_enough := Nat.le_trans (used_bodyCode _ rule.argumentCount goals _) enough
  have base_enough : rule.argumentCount ≤ registers := Nat.le_trans covers.used head_enough
  refine ⟨?_, ?_⟩
  · have few := (le_argumentCount rule).1
    rw [Term.arity, count] at few
    exact Nat.le_trans few base_enough
  · simp only [emit_eq, Code.within_cons, Code.within_append]
    refine ⟨trivial, within_headArgs head_enough (slotted.mono fun v occurs ↦ ?_),
      within_bodyCode (aligned_of_resolves resolved) base_enough enough
        (slotted.mono fun v occurs ↦ ?_)⟩
    · exact mem_vars.2 (.inl ((head_vars v).2 occurs))
    · exact mem_vars.2 (.inr ((mem_goalVars_iff resolved).1 occurs))

end Rule

/-- The code of every rule of a built program stays within the program's bank and the rule's
frame. -/
theorem Program.Built.within {allowed : Rule → Prop} {program : Program}
    (built : program.Built allowed) {id : RuleId} {compiled : CompiledRule}
    (found : program.rule? id = some compiled) :
    compiled.head.arity ≤ program.registers ∧
      Code.Within program.registers compiled.frameSize compiled.code.toList := by
  obtain ⟨signatures, respects, -, ended⟩ := built.tryCompile found
  exact Rule.within_tryCompile respects ended

end HornMachine
