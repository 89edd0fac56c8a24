import HornMachine.Proofs.Code.Compile

/-!
# Arguments in code

The instructions for the arguments of a structure follow the one that begins it, and there are as
many as it has arguments. The arguments of a goal are put in the first registers. Main statements,
for the head and the body of a rule: that structures are followed by their arguments
(`Emit.complete_headArgs`, `Emit.complete_bodyCode`), and which argument registers a goal puts
something in (`Emit.putsBelow_goalArgs`).
-/

namespace HornMachine

/-! ### Structure arguments -/

namespace Instruction

/-- Instructions that take an argument of a structure that is matched. -/
def unifies : Instruction → Bool
  | unifyVariable _ | unifyValue _ | unifyConstant _ => true
  | _ => false

/-- Instructions that add an argument to a structure that is built. -/
def sets : Instruction → Bool
  | setVariable _ | setValue _ | setConstant _ => true
  | _ => false

/-- Instructions for arguments of structures. -/
def isArgument (instruction : Instruction) : Bool := instruction.unifies || instruction.sets

/-- The number of arguments of the structure that an instruction begins, and which instructions are
for them. -/
def arguments? : Instruction → Option (Nat × (Instruction → Bool))
  | getStructure functor _ => some (functor.arity, unifies)
  | putStructure functor _ => some (functor.arity, sets)
  | _ => none

/-- The register that an instruction puts an argument or a structure in. -/
def put? : Instruction → Option Nat
  | putVariable _ arg | putValue _ arg | putConstant _ arg | putStructure _ arg => some arg
  | _ => none

variable {instruction arg : Instruction} {count : Nat} {kind : Instruction → Bool}

theorem isArgument_of_arguments? (begins : instruction.arguments? = some (count, kind))
    (taken : kind arg = true) :
    arg.isArgument = true := by
  cases instruction with
  | getStructure functor register =>
    cases begins
    exact Bool.or_eq_true_iff.2 (.inl taken)
  | putStructure functor register =>
    cases begins
    exact Bool.or_eq_true_iff.2 (.inr taken)
  | _ => cases begins

theorem arguments?_of_isArgument (argument : instruction.isArgument = true) :
    instruction.arguments? = none := by
  cases instruction with
  | getStructure | putStructure => cases argument
  | _ => rfl

end Instruction

namespace Code

/-- Code in which structures are followed by their arguments, and no arguments are anywhere else. -/
inductive Complete : Code → Prop
  | nil : Complete []
  | plain {instruction : Instruction} {code : Code} (begins : instruction.arguments? = none)
    (between : instruction.isArgument = false) (rest : Complete code) :
    Complete (instruction :: code)
  | structure {instruction : Instruction} {count : Nat} {kind : Instruction → Bool}
    {args code : Code}
    (begins : instruction.arguments? = some (count, kind)) (same_count : args.length = count)
    (taken : ∀ arg ∈ args, kind arg = true) (rest : Complete code) :
    Complete (instruction :: (args ++ code))

variable {code more : Code}

theorem Complete.append (one : Complete code) (two : Complete more) : Complete (code ++ more) := by
  induction one with
  | nil => exact two
  | plain begins between _ ih => exact .plain begins between ih
  | «structure» begins same_count taken _ ih =>
    rw [List.cons_append, List.append_assoc]
    exact .structure begins same_count taken ih

private theorem Complete.takeWhile_eq_nil (complete : Complete code) :
    code.takeWhile Instruction.isArgument = [] := by
  cases complete with
  | nil => rfl
  | plain begins between rest => exact List.takeWhile_cons_of_neg (by simp [between])
  | «structure» begins same_count taken rest =>
    apply List.takeWhile_cons_of_neg
    intro argument
    rw [Instruction.arguments?_of_isArgument argument] at begins
    cases begins

/-- The arguments right after an instruction that begins a structure are as many as it has, and of
its kind. -/
theorem Complete.arguments (complete : Complete code) {before after : Code}
    {instruction : Instruction}
    {count : Nat} {kind : Instruction → Bool} (here : code = before ++ instruction :: after)
    (begins : instruction.arguments? = some (count, kind)) :
    (after.takeWhile Instruction.isArgument).length = count ∧
      ∀ arg ∈ after.takeWhile Instruction.isArgument, kind arg = true := by
  induction complete generalizing before with
  | nil => simp at here
  | plain nothing between _ ih =>
    cases before with
    | nil =>
      cases here
      rw [nothing] at begins
      cases begins
    | cons first before =>
      cases here
      exact ih rfl
  | @«structure» first number takes args code starts same_count taken rest ih =>
    cases before with
    | nil =>
      cases here
      cases starts.symm.trans begins
      have all : ∀ arg ∈ args, arg.isArgument = true :=
        fun arg member ↦ Instruction.isArgument_of_arguments? begins (taken arg member)
      rw [List.takeWhile_append_of_pos all, rest.takeWhile_eq_nil, List.append_nil]
      exact ⟨same_count, taken⟩
    | cons other before =>
      rw [List.cons_append, List.cons.injEq] at here
      rcases List.append_eq_append_iff.1 here.2 with ⟨middle, -, later⟩ | ⟨middle, within, later⟩
      · exact ih later
      · cases middle with
        | nil => exact @ih [] later.symm
        | cons arg middle =>
          -- The instruction would be one of the arguments, which begin no structure.
          cases later
          have argument :=
            Instruction.isArgument_of_arguments? starts (taken instruction (by simp [within]))
          rw [Instruction.arguments?_of_isArgument argument] at begins
          cases begins

/-- The registers below `base` that code puts something in, in order. -/
def putsBelow (base : Nat) (code : Code) : List Nat :=
  (code.filterMap Instruction.put?).filter (· < base)

end Code

namespace Emit

open Code (Complete putsBelow)
open Rule (Goal bodyCode reached)

variable (slots : Slots)

private theorem length_matchArgs (args : List Term) (state : State) :
    (matchArgs slots args state).1.1.length = args.length := by
  induction args generalizing state with
  | nil => rfl
  | cons arg args ih =>
    cases arg with
    | var v => exact congrArg (· + 1) (ih _)
    | struct symbol inner => exact congrArg (· + 1) (ih _)
    | atom symbol | num value => exact congrArg (· + 1) (ih _)

private theorem unifies_matchArgs (args : List Term) (state : State) :
    ∀ instruction ∈ (matchArgs slots args state).1.1, instruction.unifies = true := by
  induction args generalizing state with
  | nil => exact List.forall_mem_nil _
  | cons arg args ih =>
    cases arg with
    | var v =>
      rw [matchArgs_var]
      refine List.forall_mem_cons.2 ⟨?_, ih _⟩
      split <;> rfl
    | struct symbol inner =>
      rw [matchArgs_struct]
      exact List.forall_mem_cons.2 ⟨rfl, ih _⟩
    | atom symbol | num value =>
      rw [matchArgs_constant slots rfl]
      exact List.forall_mem_cons.2 ⟨rfl, ih _⟩

private theorem complete_matchLevel (level : List Pending) (state : State) :
    Complete (matchLevel slots level state).1.1 := by
  induction level generalizing state with
  | nil => exact .nil
  | cons pending rest ih =>
    rw [matchLevel_cons]
    exact .structure rfl (length_matchArgs slots pending.args state)
      (unifies_matchArgs slots pending.args state) (ih _)

private theorem complete_matchLevels (limit : Nat) (level : List Pending) (state : State) :
    Complete (matchLevels slots limit level state).1 := by
  induction limit generalizing level state with
  | zero => exact .nil
  | succ limit ih =>
    cases level with
    | nil => exact .nil
    | cons first rest =>
      rw [matchLevels_cons]
      exact (complete_matchLevel slots (first :: rest) state).append (ih _ _)

theorem complete_headArgs (base register : Nat) (args : List Term) (state : State) :
    Complete (headArgs slots base register args state).1 := by
  induction args generalizing register state with
  | nil => exact .nil
  | cons arg args ih =>
    rw [headArgs_cons]
    refine Complete.append ?_ (ih _ _)
    cases arg with
    | var v =>
      rw [headArg_var]
      split <;> exact .plain rfl rfl .nil
    | struct symbol inner => exact complete_matchLevels slots _ _ _
    | atom symbol | num value =>
      rw [headArg_constant slots base register rfl]
      exact .plain rfl rfl .nil

/-- The arguments of a structure that is built are added to it. -/
theorem sets_setArgs {args : List Term} {nested : List Nat}
    (aligned : nested.length = (args.filter isStructure).length) (state : State) :
    (setArgs slots args nested state).1.length = args.length ∧
      ∀ instruction ∈ (setArgs slots args nested state).1, instruction.sets = true := by
  induction args generalizing nested state with
  | nil => cases nested <;> exact ⟨rfl, List.forall_mem_nil _⟩
  | cons arg args ih =>
    cases arg with
    | var v =>
      obtain ⟨count, sets⟩ := ih aligned { state with seen := state.seen.insert v }
      rw [setArgs_var]
      refine ⟨congrArg (· + 1) count, List.forall_mem_cons.2 ⟨?_, sets⟩⟩
      split <;> rfl
    | struct symbol inner =>
      obtain ⟨register, nested, rfl, others⟩ := exists_cons_of_aligned aligned
      obtain ⟨count, sets⟩ := ih others state
      rw [setArgs_struct]
      exact ⟨congrArg (· + 1) count, List.forall_mem_cons.2 ⟨rfl, sets⟩⟩
    | atom symbol | num value =>
      obtain ⟨count, sets⟩ := ih aligned state
      rw [setArgs_constant slots rfl]
      exact ⟨congrArg (· + 1) count, List.forall_mem_cons.2 ⟨rfl, sets⟩⟩

private theorem complete_buildNested {args : List Term}
    (each : ∀ symbol inner, .struct symbol inner ∈ args → ∀ register state,
      Complete (buildStructure slots register (.struct symbol inner) state).1) (state : State) :
    Complete (buildNested slots args state).1.1 := by
  induction args generalizing state with
  | nil =>
    rw [buildNested]
    exact .nil
  | cons arg args ih =>
    have rest := ih fun symbol inner member ↦ each symbol inner (List.mem_cons_of_mem _ member)
    cases arg with
    | struct symbol inner =>
      rw [buildNested_struct]
      exact (each symbol inner List.mem_cons_self _ _).append (rest _)
    | atom symbol | var v | num value =>
      rw [buildNested_other slots rfl]
      exact rest state

private theorem complete_buildStructure (register : Nat) (term : Term) (state : State) :
    Complete (buildStructure slots register term state).1 := by
  induction term generalizing register state with
  | struct symbol args ih =>
    rw [buildStructure_struct]
    have nested := complete_buildNested slots
      (fun symbol inner member register state ↦ ih _ member register state) state
    obtain ⟨count, sets⟩ := sets_setArgs slots (length_buildNested slots args state)
      (buildNested slots args state).2
    have own : Complete (.putStructure ⟨symbol, args.length⟩ register ::
        ((setArgs slots args (buildNested slots args state).1.2
          (buildNested slots args state).2).1 ++ [])) :=
      .structure rfl count sets .nil
    rw [List.append_nil] at own
    exact nested.append own
  | atom symbol | var v | num value =>
    rw [buildStructure]
    exact .nil

private theorem complete_goalArgs (register : Nat) (args : List Term) (state : State) :
    Complete (goalArgs slots register args state).1 := by
  induction args generalizing register state with
  | nil => exact .nil
  | cons arg args ih =>
    rw [goalArgs_cons]
    refine Complete.append ?_ (ih _ _)
    cases arg with
    | var v =>
      rw [goalArg_var]
      split <;> exact .plain rfl rfl .nil
    | struct symbol inner => exact complete_buildStructure slots register _ state
    | atom symbol | num value =>
      rw [goalArg_constant slots register rfl]
      exact .plain rfl rfl .nil

theorem complete_bodyCode (base : Nat) (goals : List Goal) (state : State) :
    Complete (bodyCode slots base goals state).1 := by
  induction goals generalizing state with
  | nil => exact .plain rfl rfl (.plain rfl rfl .nil)
  | cons goal goals ih =>
    cases goal with
    | fail => exact .plain rfl rfl .nil
    | call args target =>
      rw [bodyCode_call]
      exact (complete_goalArgs slots 0 args _).append (.plain rfl rfl (ih _))

/-! ### Argument registers -/

section Puts

variable {slots} {base : Nat} {code : Code}

private theorem putsBelow_append (code more : Code) :
    putsBelow base (code ++ more) = putsBelow base code ++ putsBelow base more := by
  rw [putsBelow, List.filterMap_append, List.filter_append]
  rfl

private theorem putsBelow_cons {instruction : Instruction} {register : Nat}
    (puts : instruction.put? = some register) (code : Code) :
    putsBelow base (instruction :: code) =
      (if register < base then [register] else []) ++ putsBelow base code := by
  rw [putsBelow, List.filterMap_cons_some puts, List.filter_cons]
  by_cases lower : register < base
  · simp [lower, putsBelow]
  · simp [lower, putsBelow]

private theorem putsBelow_single {instruction : Instruction} {register : Nat}
    (puts : instruction.put? = some register)
    (lower : register < base) : putsBelow base [instruction] = [register] := by
  rw [putsBelow_cons puts, if_pos lower]
  rfl

private theorem putsBelow_of_sets (sets : ∀ instruction ∈ code, instruction.sets = true) :
    putsBelow base code = [] := by
  have nothing : code.filterMap Instruction.put? = [] := by
    apply List.filterMap_eq_nil_iff.2
    intro instruction member
    have added := sets instruction member
    cases instruction with
    | setVariable | setValue | setConstant => rfl
    | _ => cases added
  rw [putsBelow, nothing, List.filter_nil]

/-- Below the temporary registers, building a structure puts something in its own register only. -/
def PutsIn (slots : Slots) (base : Nat) (term : Term) : Prop :=
  ∀ register state, (buildStructure slots register term state).2.used ≤ maxRegister →
    base ≤ state.nextTemp →
    putsBelow base (buildStructure slots register term state).1 =
      if register < base then [register] else []

private theorem putsBelow_buildNested {args : List Term}
    (each : ∀ symbol inner, .struct symbol inner ∈ args → PutsIn slots base (.struct symbol inner))
    {state : State} (enough : (buildNested slots args state).2.used ≤ maxRegister)
    (lower : base ≤ state.nextTemp) :
    putsBelow base (buildNested slots args state).1.1 = [] := by
  induction args generalizing state with
  | nil =>
    rw [buildNested]
    rfl
  | cons arg args ih =>
    have rest := @ih fun symbol inner member ↦ each symbol inner (List.mem_cons_of_mem _ member)
    cases arg with
    | struct symbol inner =>
      rw [buildNested_struct] at enough ⊢
      have one := advances_buildStructure slots (temp state).1 symbol inner (temp state).2
      have two := advances_buildNested slots args
        (buildStructure slots (temp state).1 (.struct symbol inner) (temp state).2).2
      have covered := Nat.le_trans two.used enough
      have taken := temp_eq (Nat.le_trans one.used covered)
      have next : base ≤ (temp state).2.nextTemp := Nat.le_trans lower (Nat.le_succ _)
      rw [putsBelow_append, each symbol inner List.mem_cons_self _ _ covered next,
        rest enough (Nat.le_trans next one.temps), if_neg (by omega)]
      rfl
    | atom symbol | var v | num value =>
      rw [buildNested_other slots rfl] at enough ⊢
      exact rest enough lower

private theorem putsIn (base : Nat) (term : Term) (is_structure : isStructure term = true) :
    PutsIn slots base term := by
  induction term with
  | struct symbol args ih =>
    intro register state enough lower
    rw [buildStructure_struct] at enough ⊢
    have aligned := length_buildNested slots args state
    have covered := Nat.le_trans (advances_setArgs slots args aligned _).used enough
    rw [putsBelow_append, putsBelow_buildNested (fun symbol inner member ↦
      ih _ member rfl) covered lower,
      putsBelow_cons rfl, putsBelow_of_sets (sets_setArgs slots aligned _).2, List.append_nil]
    rfl
  | atom symbol | var v | num value => cases is_structure

/-- Below the temporary registers, the code of a goal puts something in each argument register, once
and in order. -/
theorem putsBelow_goalArgs {register : Nat} {args : List Term} {state : State}
    (enough : (goalArgs slots register args state).2.used ≤ maxRegister)
    (lower : base ≤ state.nextTemp) (narrow : register + args.length ≤ base) :
    putsBelow base (goalArgs slots register args state).1 = List.range' register args.length := by
  induction args generalizing register state with
  | nil => rfl
  | cons arg args ih =>
    rw [List.length_cons] at narrow
    rw [goalArgs_cons] at enough ⊢
    have one := (advances_goalArg slots register arg state).temps
    have two := advances_goalArgs slots (register + 1) args (goalArg slots register arg state).2
    have here : putsBelow base (goalArg slots register arg state).1 = [register] := by
      have below : register < base := by omega
      cases arg with
      | var v =>
        rw [goalArg_var]
        split <;> exact putsBelow_single rfl below
      | struct symbol inner =>
        exact (putsIn base _ rfl register state (Nat.le_trans two.used enough) lower).trans
          (if_pos below)
      | atom symbol | num value =>
        rw [goalArg_constant slots register rfl]
        exact putsBelow_single rfl below
    rw [putsBelow_append, here, ih enough (Nat.le_trans lower one) (by omega), List.length_cons,
      List.range'_succ]
    rfl

end Puts

end Emit

end HornMachine
