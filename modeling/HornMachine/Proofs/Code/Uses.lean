import HornMachine.Proofs.Code.Registers

/-!
# What code does to places

Each instruction fills some places and reads others. The uses of a place along a piece of code tell
in which order: temporary registers are filled and then read, once each time they are taken, and a
slot is filled when its variable is met for the first time and read when it is met again. Main
statements, for the head and the body of a rule: what is done to the registers
(`Emit.visits_headArgs`, `Emit.visits_bodyCode`), and what to the slots (`Emit.meets_headArgs`,
`Emit.meets_bodyCode`).
-/

namespace HornMachine

/-- What is done to a place. -/
inductive Use where
  | fill
  | read
deriving DecidableEq, Repr

/-- The places that an instruction names, with what it does to them. -/
def Instruction.uses : Instruction → List (Place × Use)
  | getVariable place arg => [(.register arg, .read), (place, .fill)]
  | getValue place arg => [(place, .read), (.register arg, .read)]
  | getConstant _ arg | getStructure _ arg => [(.register arg, .read)]
  | unifyVariable place | setVariable place => [(place, .fill)]
  | unifyValue place | setValue place => [(place, .read)]
  | putVariable place arg => [(place, .fill), (.register arg, .fill)]
  | putValue place arg => [(place, .read), (.register arg, .fill)]
  | putConstant _ arg | putStructure _ arg => [(.register arg, .fill)]
  | unifyConstant _ | setConstant _ | allocate _ | deallocate | call _ | proceed | fail => []

/-- What an instruction does to a place. -/
def Instruction.usesOf (place : Place) (instruction : Instruction) : List Use :=
  instruction.uses.flatMap fun use ↦ if use.1 = place then [use.2] else []

namespace Code

/-- What is done to a place along code. -/
def usesOf (place : Place) (code : Code) : List Use := code.flatMap (Instruction.usesOf place)

variable {place : Place} {instruction : Instruction} {code more : Code}

@[simp]
theorem usesOf_nil : usesOf place [] = [] := rfl

@[simp]
theorem usesOf_cons :
    usesOf place (instruction :: code) = instruction.usesOf place ++ usesOf place code :=
  List.flatMap_cons

@[simp]
theorem usesOf_append : usesOf place (code ++ more) = usesOf place code ++ usesOf place more :=
  List.flatMap_append

end Code

/-- Uses of a register when those from `first` up to `last` are used alike, and no others are. -/
def Use.within (uses : List Use) (first last index : Nat) : List Use :=
  if first ≤ index ∧ index < last then uses else []

namespace Use

variable {uses : List Use} {first middle last index : Nat}

private theorem within_of_mem (lower : first ≤ index) (upper : index < last) :
    within uses first last index = uses :=
  if_pos ⟨lower, upper⟩

private theorem within_of_lt (lower : index < first) : within uses first last index = [] :=
  if_neg fun inside ↦ Nat.not_le_of_lt lower inside.1

private theorem within_of_le (upper : last ≤ index) : within uses first last index = [] :=
  if_neg fun inside ↦ Nat.not_le_of_lt inside.2 upper

@[simp]
theorem within_self : within uses first first index = [] := by
  by_cases lower : index < first
  · exact within_of_lt lower
  · exact within_of_le (Nat.le_of_not_lt lower)

/-- Registers are used one after another. -/
theorem within_append (below : first ≤ middle) (above : middle ≤ last) :
    within uses first middle index ++ within uses middle last index =
      within uses first last index := by
  by_cases lower : index < middle
  · rw [within_of_lt lower, List.append_nil]
    simp only [within, lower, and_true, Nat.lt_of_lt_of_le lower above]
  · have upper := Nat.le_of_not_lt lower
    rw [within_of_le upper, List.nil_append]
    simp only [within, upper, true_and, Nat.le_trans below upper]

private theorem within_and_then {more : List Use} :
    within uses first last index ++ within more first last index =
      within (uses ++ more) first last index := by
  by_cases inside : first ≤ index ∧ index < last
  · simp only [within, if_pos inside]
  · simp only [within, if_neg inside, List.append_nil]

private theorem within_single (register index : Nat) :
    within uses register (register + 1) index = if register = index then uses else [] := by
  have same : (register ≤ index ∧ index < register + 1) ↔ register = index := by omega
  simp only [within, same]

private theorem replicate_count_range' (use : Use) (count : Nat) :
    List.replicate ((List.range' first count).count index) use =
      within [use] first (first + count) index := by
  by_cases inside : index ∈ List.range' first count
  · rw [List.count_eq_one_of_mem List.nodup_range' inside, within,
      if_pos (List.mem_range'_1.1 inside)]
    rfl
  · rw [List.count_eq_zero.2 inside, within, if_neg fun both ↦ inside (List.mem_range'_1.2 both)]
    rfl

/-- What is filled is read once before it is filled again. -/
def Alternate (uses : List Use) : Prop :=
  ∃ count, uses = (List.replicate count [fill, read]).flatten

private theorem alternate_nil : Alternate [] := ⟨0, rfl⟩

theorem Alternate.append {more : List Use} (one : Alternate uses) (two : Alternate more) :
    Alternate (uses ++ more) := by
  obtain ⟨count, rfl⟩ := one
  obtain ⟨further, rfl⟩ := two
  exact ⟨count + further, by rw [List.replicate_add, List.flatten_append]⟩

private theorem alternate_within : Alternate (within [fill, read] first last index) := by
  by_cases inside : first ≤ index ∧ index < last
  · exact ⟨1, if_pos inside⟩
  · exact ⟨0, if_neg inside⟩

end Use

namespace Emit

open Code (usesOf)
open Rule (Goal bodyCode reached)

variable {slots : Slots} {index : Nat}

/-! ### Registers -/

section Registers

variable {v : Var} {register : Nat} {is_first : Bool}

@[simp]
theorem usesOf_unify_slot : (if is_first then Instruction.unifyVariable (slotOf slots v)
    else .unifyValue (slotOf slots v)).usesOf (.register index) = [] := by
  cases is_first <;> simp [Instruction.usesOf, Instruction.uses, slotOf]

@[simp]
theorem usesOf_set_slot : (if is_first then Instruction.setVariable (slotOf slots v)
    else .setValue (slotOf slots v)).usesOf (.register index) = [] := by
  cases is_first <;> simp [Instruction.usesOf, Instruction.uses, slotOf]

@[simp]
theorem usesOf_get_slot : (if is_first then Instruction.getVariable (slotOf slots v) register
    else .getValue (slotOf slots v) register).usesOf (.register index) =
      if register = index then [.read] else [] := by
  cases is_first <;> simp [Instruction.usesOf, Instruction.uses, slotOf]

@[simp]
theorem usesOf_put_slot : (if is_first then Instruction.putVariable (slotOf slots v) register
    else .putValue (slotOf slots v) register).usesOf (.register index) =
      if register = index then [.fill] else [] := by
  cases is_first <;> simp [Instruction.usesOf, Instruction.uses, slotOf]

/-- The structures left are in the next registers. -/
theorem registers_matchArgs {args : List Term} {state : State}
    (enough : (matchArgs slots args state).2.used ≤ maxRegister) :
    (matchArgs slots args state).1.2.map Pending.register =
      List.range' state.nextTemp (matchArgs slots args state).1.2.length := by
  induction args generalizing state with
  | nil => rfl
  | cons arg args ih =>
    cases arg with
    | var v => exact ih enough
    | struct symbol inner =>
      rw [matchArgs_struct] at enough ⊢
      have taken := temp_eq (Nat.le_trans (advances_matchArgs slots args _).used enough)
      rw [List.map_cons, List.length_cons, List.range'_succ, taken]
      exact congrArg _ (ih enough)
    | atom symbol | num value =>
      rw [matchArgs_constant slots rfl] at enough ⊢
      exact ih enough

/-- The registers that structures are put in are filled, and no other one is used. -/
theorem usesOf_matchArgs {args : List Term} {state : State}
    (enough : (matchArgs slots args state).2.used ≤ maxRegister) :
    usesOf (.register index) (matchArgs slots args state).1.1 =
      Use.within [.fill] state.nextTemp (matchArgs slots args state).2.nextTemp index := by
  induction args generalizing state with
  | nil => exact Use.within_self.symm
  | cons arg args ih =>
    cases arg with
    | var v =>
      rw [matchArgs_var] at enough ⊢
      rw [Code.usesOf_cons, usesOf_unify_slot]
      exact ih enough
    | struct symbol inner =>
      rw [matchArgs_struct] at enough ⊢
      have later := (advances_matchArgs slots args (temp state).2).temps
      have taken := temp_eq (Nat.le_trans (advances_matchArgs slots args _).used enough)
      have own : (Instruction.unifyVariable (.register (temp state).1)).usesOf (.register index) =
          Use.within [.fill] state.nextTemp (temp state).2.nextTemp index := by
        rw [taken]
        simp [Instruction.usesOf, Instruction.uses, temp, Use.within_single]
      rw [Code.usesOf_cons, own, ih enough]
      exact Use.within_append (Nat.le_succ _) later
    | atom symbol | num value =>
      rw [matchArgs_constant slots rfl] at enough ⊢
      exact ih enough

private theorem registers_matchLevel {level : List Pending} {state : State}
    (enough : (matchLevel slots level state).2.used ≤ maxRegister) :
    (matchLevel slots level state).1.2.map Pending.register =
      List.range' state.nextTemp (matchLevel slots level state).1.2.length := by
  induction level generalizing state with
  | nil => rfl
  | cons pending rest ih =>
    rw [matchLevel_cons] at enough ⊢
    have two := advances_matchLevel slots rest (matchArgs slots pending.args state).2
    have temps := (takes_matchArgs slots pending.args state).temps
    rw [List.map_append, registers_matchArgs (Nat.le_trans two.used enough), ih enough, temps,
      List.range'_append_1, List.length_append]

/-- Each structure of a level is looked at, and those inside it are put in the next registers. -/
theorem usesOf_matchLevel {level : List Pending} {state : State}
    (enough : (matchLevel slots level state).2.used ≤ maxRegister)
    (lower : ∀ register ∈ level.map Pending.register, register < state.nextTemp) :
    usesOf (.register index) (matchLevel slots level state).1.1 =
      List.replicate ((level.map Pending.register).count index) .read ++
        Use.within [.fill] state.nextTemp (matchLevel slots level state).2.nextTemp index := by
  induction level generalizing state with
  | nil => exact Use.within_self.symm
  | cons pending rest ih =>
    rw [matchLevel_cons] at enough ⊢
    rw [List.map_cons, List.forall_mem_cons] at lower
    obtain ⟨below, others⟩ := lower
    have one := (advances_matchArgs slots pending.args state).temps
    have two := advances_matchLevel slots rest (matchArgs slots pending.args state).2
    have own :
      (Instruction.getStructure ⟨pending.symbol, pending.args.length⟩ pending.register).usesOf
        (.register index) = if pending.register = index then [.read] else [] := by
      simp [Instruction.usesOf, Instruction.uses]
    rw [Code.usesOf_cons, Code.usesOf_append, usesOf_matchArgs (Nat.le_trans two.used enough),
      ih enough fun register member ↦ Nat.lt_of_lt_of_le (others register member) one, own,
        List.map_cons,
      List.count_cons]
    by_cases fresh : index < state.nextTemp
    · simp only [Use.within_of_lt fresh, Use.within_of_lt (Nat.lt_of_lt_of_le fresh one),
        List.nil_append, List.append_nil, beq_iff_eq]
      split
      · rw [List.replicate_succ]
        rfl
      · rfl
    · have absent : (rest.map Pending.register).count index = 0 :=
        List.count_eq_zero.2 fun member ↦ fresh (others index member)
      have other : pending.register ≠ index := by omega
      rw [if_neg other, absent]
      simp [other, Use.within_append one two.temps]

/-- The structures that a level begins with are looked at, and those inside them are put in
registers and then looked at. -/
theorem usesOf_matchLevels {limit : Nat} {level : List Pending} (deep : weight level ≤ limit)
    {state : State} (enough : (matchLevels slots limit level state).2.used ≤ maxRegister)
    (lower : ∀ register ∈ level.map Pending.register, register < state.nextTemp) :
    usesOf (.register index) (matchLevels slots limit level state).1 =
      List.replicate ((level.map Pending.register).count index) .read ++
        Use.within [.fill, .read] state.nextTemp
          (matchLevels slots limit level state).2.nextTemp index := by
  induction limit generalizing level state with
  | zero =>
    obtain rfl := eq_nil_of_weight_le deep
    exact Use.within_self.symm
  | succ limit ih =>
    cases level with
    | nil => exact Use.within_self.symm
    | cons first rest =>
      rw [matchLevels_cons] at enough ⊢
      have next_deep : weight (matchLevel slots (first :: rest) state).1.2 ≤ limit :=
        weight_matchLevel_le deep state
      have one := takes_matchLevel slots (first :: rest) state
      have temps := one.temps
      have two := advances_matchLevels slots next_deep (matchLevel slots (first :: rest) state).2
      have covered := Nat.le_trans two.used enough
      have registers := registers_matchLevel covered
      have next_lower : ∀ register ∈ (matchLevel slots (first :: rest) state).1.2.map
        Pending.register,
          register < (matchLevel slots (first :: rest) state).2.nextTemp := by
        intro register member
        rw [registers, List.mem_range'_1] at member
        omega
      rw [Code.usesOf_append, usesOf_matchLevel covered lower,
        ih next_deep enough next_lower, registers,
        Use.replicate_count_range', ← temps, List.append_assoc]
      congr 1
      rw [← List.append_assoc, Use.within_and_then]
      exact Use.within_append (Nat.le_of_lt_succ (by omega)) two.temps

/-! #### Goals -/

private theorem usesOf_setArgs {args : List Term} {nested : List Nat}
    (aligned : nested.length = (args.filter isStructure).length) (state : State) :
    usesOf (.register index) (setArgs slots args nested state).1 =
      List.replicate (nested.count index) .read := by
  induction args generalizing nested state with
  | nil =>
    obtain rfl : nested = [] := List.length_eq_zero_iff.1 aligned
    rfl
  | cons arg args ih =>
    cases arg with
    | var v =>
      rw [setArgs_var, Code.usesOf_cons, usesOf_set_slot]
      exact ih aligned _
    | struct symbol inner =>
      obtain ⟨register, nested, rfl, others⟩ := exists_cons_of_aligned aligned
      rw [setArgs_struct, Code.usesOf_cons, ih others, List.count_cons]
      by_cases own : register = index
      · simp [Instruction.usesOf, Instruction.uses, own, List.replicate_succ]
      · simp [Instruction.usesOf, Instruction.uses, own]
    | atom symbol | num value =>
      rw [setArgs_constant slots rfl]
      exact ih aligned state

/-- Building a structure in a register fills that register, and temporary ones for what is inside
it. -/
def BuildsIn (slots : Slots) (index : Nat) (term : Term) : Prop :=
  ∀ register state, (buildStructure slots register term state).2.used ≤ maxRegister →
    register < state.nextTemp →
    usesOf (.register index) (buildStructure slots register term state).1 =
      Use.within [.fill, .read] state.nextTemp
        (buildStructure slots register term state).2.nextTemp index ++
        if register = index then [.fill] else []

/-- The structures among arguments are put in registers, and all these are read when the arguments
are added. -/
theorem usesOf_buildNested {args : List Term}
    (each : ∀ symbol inner, .struct symbol inner ∈ args →
      BuildsIn slots index (.struct symbol inner))
    {state : State} (enough : (buildNested slots args state).2.used ≤ maxRegister) :
    usesOf (.register index) (buildNested slots args state).1.1 ++
        List.replicate ((buildNested slots args state).1.2.count index) .read =
      Use.within [.fill, .read] state.nextTemp (buildNested slots args state).2.nextTemp index := by
  induction args generalizing state with
  | nil =>
    rw [buildNested]
    exact Use.within_self.symm
  | cons arg args ih =>
    have rest := @ih fun symbol inner member ↦ each symbol inner (List.mem_cons_of_mem _ member)
    cases arg with
    | struct symbol inner =>
      rw [buildNested_struct] at enough ⊢
      have one := advances_buildStructure slots (temp state).1 symbol inner (temp state).2
      have two := advances_buildNested slots args
        (buildStructure slots (temp state).1 (.struct symbol inner) (temp state).2).2
      have covered := Nat.le_trans two.used enough
      have taken := temp_eq (Nat.le_trans one.used covered)
      have next : (temp state).2.nextTemp = state.nextTemp + 1 := rfl
      have built :=
        each symbol inner List.mem_cons_self (temp state).1 (temp state).2 covered (by omega)
      have temps := one.temps
      have others := rest enough
      rw [Code.usesOf_append, built, List.count_cons]
      simp only [beq_iff_eq]
      by_cases own : (temp state).1 = index
      · rw [Use.within_of_lt (by omega), List.append_eq_nil_iff,
          List.replicate_eq_nil_iff] at others
        have last := two.temps
        rw [if_pos own, if_pos own, others.1, others.2, Use.within_of_lt (by omega),
          Use.within_of_mem (by omega) (by omega)]
        rfl
      · rw [if_neg own, if_neg own, List.append_nil, Nat.add_zero, List.append_assoc, others,
          Use.within_append temps two.temps, ← Use.within_append (Nat.le_succ state.nextTemp)
            (Nat.le_trans temps two.temps), Use.within_single, if_neg (taken ▸ own)]
        rfl
    | atom symbol | var v | num value =>
      rw [buildNested_other slots rfl] at enough ⊢
      exact rest enough

private theorem buildsIn (index : Nat) (term : Term) (is_structure : isStructure term = true) :
    BuildsIn slots index term := by
  induction term with
  | struct symbol args ih =>
    intro register state enough lower
    rw [buildStructure_struct] at enough ⊢
    have aligned := length_buildNested slots args state
    have set := takes_setArgs slots args aligned (buildNested slots args state).2
    have covered := Nat.le_trans (advances_setArgs slots args aligned _).used enough
    have nested := usesOf_buildNested (fun symbol inner member ↦ ih _ member rfl) covered
    have temps := set.temps
    have own : (Instruction.putStructure ⟨symbol, args.length⟩ register).usesOf (.register index) =
        if register = index then [.fill] else [] := by
      simp [Instruction.usesOf, Instruction.uses]
    rw [Nat.add_zero] at temps
    rw [Code.usesOf_append, Code.usesOf_cons, usesOf_setArgs aligned, own]
    simp only [temps]
    by_cases same : register = index
    · -- The structure's own register is below those of the structures inside it.
      rw [Use.within_of_lt (by omega), List.append_eq_nil_iff] at nested
      rw [nested.1, nested.2, Use.within_of_lt (by omega), List.append_nil]
    · rw [if_neg same, List.nil_append, List.append_nil, nested]
  | atom symbol | var v | num value => cases is_structure

private theorem usesOf_goalArg {register : Nat} {arg : Term} {state : State}
    (enough : (goalArg slots register arg state).2.used ≤ maxRegister)
    (lower : register < state.nextTemp) :
    usesOf (.register index) (goalArg slots register arg state).1 =
      Use.within [.fill, .read] state.nextTemp
        (goalArg slots register arg state).2.nextTemp index ++
        if register = index then [.fill] else [] := by
  cases arg with
  | var v =>
    rw [goalArg_var, Use.within_self, Code.usesOf_cons, usesOf_put_slot]
    exact List.append_nil _
  | struct symbol args => exact buildsIn index _ rfl register state enough lower
  | atom symbol | num value =>
    rw [goalArg_constant slots register rfl, Use.within_self]
    simp [Instruction.usesOf, Instruction.uses]

/-- The argument registers of a goal are filled, and temporary ones are filled and then read. -/
theorem usesOf_goalArgs {register : Nat} {args : List Term} {state : State}
    (enough : (goalArgs slots register args state).2.used ≤ maxRegister)
    (lower : register + args.length ≤ state.nextTemp) :
    usesOf (.register index) (goalArgs slots register args state).1 =
      Use.within [.fill] register (register + args.length) index ++
        Use.within [.fill, .read] state.nextTemp
          (goalArgs slots register args state).2.nextTemp index := by
  induction args generalizing register state with
  | nil => simp [goalArgs, pure_apply]
  | cons arg args ih =>
    rw [List.length_cons, ← Nat.add_assoc, Nat.add_right_comm] at lower
    rw [goalArgs_cons] at enough ⊢
    have one := (advances_goalArg slots register arg state).temps
    have two := advances_goalArgs slots (register + 1) args (goalArg slots register arg state).2
    rw [Code.usesOf_append, usesOf_goalArg (Nat.le_trans two.used enough) (by omega),
      ih enough (Nat.le_trans lower one), List.length_cons, ← Nat.add_assoc, Nat.add_right_comm,
      ← Use.within_single]
    by_cases fresh : index < state.nextTemp
    · simp only [Use.within_of_lt fresh, Use.within_of_lt (Nat.lt_of_lt_of_le fresh one),
        List.append_nil, List.nil_append]
      exact Use.within_append (Nat.le_succ _) (by omega)
    · have filled {first last : Nat} (below : last ≤ state.nextTemp) :
          Use.within [.fill] first last index = [] := Use.within_of_le (by omega)
      rw [filled (by omega), filled (by omega), filled (by omega)]
      simp only [List.append_nil, List.nil_append]
      exact Use.within_append one two.temps

/-! #### Rules -/

/-- Registers from `base` up to `last`, and no higher ones, are filled and then read, again and
again. -/
def Visits (base last : Nat) (code : Code) : Prop :=
  ∀ index, base ≤ index → Use.Alternate (usesOf (.register index) code) ∧
    (last ≤ index → usesOf (.register index) code = [])

variable {base last : Nat} {code more : Code}

private theorem visits_within (next : Nat) (bounded : next ≤ last) (uses : ∀ index, base ≤ index →
    usesOf (.register index) code = Use.within [.fill, .read] base next index) :
    Visits base last code := by
  intro index above
  rw [uses index above]
  exact ⟨Use.alternate_within, fun outside ↦ Use.within_of_le (Nat.le_trans bounded outside)⟩

theorem Visits.append (one : Visits base last code) (two : Visits base last more) :
    Visits base last (code ++ more) := by
  intro index above
  obtain ⟨first, nothing⟩ := one index above
  obtain ⟨second, too⟩ := two index above
  rw [Code.usesOf_append]
  refine ⟨first.append second, fun outside ↦ ?_⟩
  rw [nothing outside, too outside, List.append_nil]

private theorem visits_headArg {register : Nat} {arg : Term} {state : State}
    (enough : (headArg slots base register arg state).2.used ≤ maxRegister)
    (lower : register < base) (covered : base ≤ state.used) :
    Visits base (headArg slots base register arg state).2.used
      (headArg slots base register arg state).1 := by
  have taken := (takes_headArg slots base register arg state).used covered
  refine visits_within (headArg slots base register arg state).2.nextTemp (by omega)
    fun index above ↦ ?_
  have other : register ≠ index := by omega
  cases arg with
  | var v =>
    rw [headArg_var, Use.within_self, Code.usesOf_cons, usesOf_get_slot, if_neg other]
    rfl
  | struct symbol args =>
    rw [headArg_struct] at enough ⊢
    rw [usesOf_matchLevels (weight_single symbol args register) enough (by simpa using lower)]
    simp [other]
  | atom symbol | num value =>
    rw [headArg_constant slots base register rfl, Use.within_self]
    simp [Instruction.usesOf, Instruction.uses, other]

theorem Visits.mono {further : Nat} (visits : Visits base last code) (bounded : last ≤ further) :
    Visits base further code :=
  fun index above ↦ ⟨(visits index above).1, fun outside ↦
    (visits index above).2 (Nat.le_trans bounded outside)⟩

private theorem visits_nil : Visits base last [] := fun _ _ ↦ ⟨Use.alternate_nil, fun _ ↦ rfl⟩

theorem visits_headArgs {register : Nat} {args : List Term} {state : State}
    (enough : (headArgs slots base register args state).2.used ≤ maxRegister)
    (lower : register + args.length ≤ base) (covered : base ≤ state.used) :
    Visits base (headArgs slots base register args state).2.used
      (headArgs slots base register args state).1 := by
  induction args generalizing register state with
  | nil => exact visits_nil
  | cons arg args ih =>
    rw [List.length_cons] at lower
    rw [headArgs_cons] at enough ⊢
    have one := (covers_headArg slots base register arg state).used
    have two := (covers_headArgs slots base (register + 1) args
      (headArg slots base register arg state).2).used
    have here : Visits base (headArg slots base register arg state).2.used
        (headArg slots base register arg state).1 :=
      visits_headArg (Nat.le_trans two enough) (by omega) covered
    exact (here.mono two).append (ih enough (by omega) (Nat.le_trans covered one))

theorem visits_bodyCode {goals : List Goal} {state : State}
    (enough : (bodyCode slots base goals state).2.used ≤ maxRegister)
    (lower : ∀ args target, .call args target ∈ goals → args.length ≤ base)
    (covered : base ≤ state.used) :
    Visits base (bodyCode slots base goals state).2.used (bodyCode slots base goals state).1 := by
  induction goals generalizing state with
  | nil => exact fun _ _ ↦ ⟨Use.alternate_nil, fun _ ↦ rfl⟩
  | cons goal goals ih =>
    cases goal with
    | fail => exact fun _ _ ↦ ⟨Use.alternate_nil, fun _ ↦ rfl⟩
    | call args target =>
      rw [bodyCode_call] at enough ⊢
      have one := takes_goalArgs slots 0 args { state with nextTemp := base }
      have used := one.used covered
      have two :=
        used_bodyCode slots base goals (goalArgs slots 0 args { state with nextTemp := base }).2
      have narrow := lower args target List.mem_cons_self
      have here : Visits base (goalArgs slots 0 args { state with nextTemp := base }).2.used
          (goalArgs slots 0 args { state with nextTemp := base }).1 := by
        refine visits_within (goalArgs slots 0 args { state with nextTemp := base }).2.nextTemp
          (by omega) fun index above ↦ ?_
        rw [usesOf_goalArgs (Nat.le_trans two enough) (by simpa using narrow),
          Use.within_of_le (by omega)]
        rfl
      have later :=
        ih enough (fun args target member ↦ lower args target (List.mem_cons_of_mem _ member))
        (by simp only at used; omega)
      exact (here.mono two).append later

end Registers

/-! ### Slots -/

section Slots

/-- What is done to a slot when variables are met one after another. -/
def slotUses (slots : Slots) (index : Nat) : Std.TreeSet Var → List Var → List Use
  | _, [] => []
  | seen, v :: met =>
    (if slotOf slots v = .slot index then [if seen.contains v then .read else .fill] else []) ++
      slotUses slots index (seen.insert v) met

private theorem slotUses_append (seen : Std.TreeSet Var) (met further : List Var) :
    slotUses slots index seen (met ++ further) =
      slotUses slots index seen met ++ slotUses slots index (met.foldl .insert seen) further := by
  induction met generalizing seen with
  | nil => rfl
  | cons v met ih =>
    rw [List.cons_append, slotUses, slotUses, ih, List.append_assoc, List.foldl_cons]

/-- Code that meets some variables one after another: they are seen from then on, and their slots
are filled the first time and read later. -/
def Meets (slots : Slots) (before after : State) (code : Code) : Prop :=
  ∃ met : List Var, after.seen = met.foldl .insert before.seen ∧
    ∀ index, usesOf (.slot index) code = slotUses slots index before.seen met

variable {before middle after : State} {code more : Code} {v : Var} {register : Nat}
    {instruction : Instruction}

theorem Meets.append (one : Meets slots before middle code) (two : Meets slots middle after more) :
    Meets slots before after (code ++ more) := by
  obtain ⟨met, seen, uses⟩ := one
  obtain ⟨further, later, others⟩ := two
  refine ⟨met ++ further, ?_, fun index ↦ ?_⟩
  · rw [later, seen, List.foldl_append]
  · rw [Code.usesOf_append, uses, others, slotUses_append, seen]

private theorem meets_nil (same : after.seen = before.seen) : Meets slots before after [] :=
  ⟨[], same, fun _ ↦ rfl⟩

/-- An instruction that names no slot. -/
theorem Meets.cons (quiet : ∀ index, instruction.usesOf (.slot index) = [])
    (rest : Meets slots before after code) :
    Meets slots before after (instruction :: code) := by
  obtain ⟨met, seen, uses⟩ := rest
  refine ⟨met, seen, fun index ↦ ?_⟩
  rw [Code.usesOf_cons, quiet, List.nil_append, uses]

/-- An instruction for a variable: one that fills its slot when it is met for the first time, and
one that reads the slot otherwise. -/
theorem Meets.var {filling reading : Instruction} (seen : middle.seen = before.seen.insert v)
    (fills : ∀ index, filling.usesOf (.slot index) = if slotOf slots v = .slot index then
      [.fill] else [])
    (reads : ∀ index, reading.usesOf (.slot index) = if slotOf slots v = .slot index then
      [.read] else [])
    (rest : Meets slots middle after code) :
    Meets slots before after ((if !before.seen.contains v then filling else reading) :: code) := by
  obtain ⟨met, later, uses⟩ := rest
  refine ⟨v :: met, by rw [later, seen, List.foldl_cons], fun index ↦ ?_⟩
  rw [Code.usesOf_cons, slotUses, uses, seen]
  cases before.seen.contains v with
  | true => exact congrArg (· ++ _) (reads index)
  | false => exact congrArg (· ++ _) (fills index)

variable (slots)

private theorem meets_matchArgs (args : List Term) (state : State) :
    Meets slots state (matchArgs slots args state).2 (matchArgs slots args state).1.1 := by
  induction args generalizing state with
  | nil => exact meets_nil rfl
  | cons arg args ih =>
    cases arg with
    | var v =>
      rw [matchArgs_var]
      exact .var rfl (by simp [Instruction.usesOf, Instruction.uses])
        (by simp [Instruction.usesOf, Instruction.uses]) (ih _)
    | struct symbol inner =>
      rw [matchArgs_struct]
      exact .cons (by simp [Instruction.usesOf, Instruction.uses]) (ih _)
    | atom symbol | num value =>
      rw [matchArgs_constant slots rfl]
      exact .cons (fun _ ↦ rfl) (ih state)

private theorem meets_matchLevel (level : List Pending) (state : State) :
    Meets slots state (matchLevel slots level state).2 (matchLevel slots level state).1.1 := by
  induction level generalizing state with
  | nil => exact meets_nil rfl
  | cons pending rest ih =>
    rw [matchLevel_cons]
    exact .cons (by simp [Instruction.usesOf, Instruction.uses])
      ((meets_matchArgs slots pending.args state).append (ih _))

private theorem meets_matchLevels (limit : Nat) (level : List Pending) (state : State) :
    Meets slots state (matchLevels slots limit level state).2
      (matchLevels slots limit level state).1 := by
  induction limit generalizing level state with
  | zero => exact meets_nil rfl
  | succ limit ih =>
    cases level with
    | nil => exact meets_nil rfl
    | cons first rest =>
      rw [matchLevels_cons]
      exact (meets_matchLevel slots (first :: rest) state).append (ih _ _)

private theorem meets_headArg (base register : Nat) (arg : Term) (state : State) :
    Meets slots state (headArg slots base register arg state).2
      (headArg slots base register arg state).1 := by
  cases arg with
  | var v =>
    rw [headArg_var]
    exact .var rfl (by simp [Instruction.usesOf, Instruction.uses])
      (by simp [Instruction.usesOf, Instruction.uses]) (meets_nil rfl)
  | struct symbol args => exact meets_matchLevels slots _ _ { state with nextTemp := base }
  | atom symbol | num value =>
    rw [headArg_constant slots base register rfl]
    exact .cons (by simp [Instruction.usesOf, Instruction.uses]) (meets_nil rfl)

theorem meets_headArgs (base register : Nat) (args : List Term) (state : State) :
    Meets slots state (headArgs slots base register args state).2
      (headArgs slots base register args state).1 := by
  induction args generalizing register state with
  | nil => exact meets_nil rfl
  | cons arg args ih =>
    rw [headArgs_cons]
    exact (meets_headArg slots base register arg state).append (ih _ _)

/-! #### Goals -/

private theorem meets_setArgs {args : List Term} {nested : List Nat}
    (aligned : nested.length = (args.filter isStructure).length) (state : State) :
    Meets slots state (setArgs slots args nested state).2 (setArgs slots args nested state).1 := by
  induction args generalizing nested state with
  | nil => cases nested <;> exact meets_nil rfl
  | cons arg args ih =>
    cases arg with
    | var v =>
      rw [setArgs_var]
      exact .var rfl (by simp [Instruction.usesOf, Instruction.uses])
        (by simp [Instruction.usesOf, Instruction.uses]) (ih aligned _)
    | struct symbol inner =>
      obtain ⟨register, nested, rfl, others⟩ := exists_cons_of_aligned aligned
      rw [setArgs_struct]
      exact .cons (by simp [Instruction.usesOf, Instruction.uses]) (ih others state)
    | atom symbol | num value =>
      rw [setArgs_constant slots rfl]
      exact .cons (fun _ ↦ rfl) (ih aligned state)

private theorem meets_buildNested {args : List Term}
    (each : ∀ symbol inner, .struct symbol inner ∈ args → ∀ register state,
      Meets slots state (buildStructure slots register (.struct symbol inner) state).2
        (buildStructure slots register (.struct symbol inner) state).1) (state : State) :
    Meets slots state (buildNested slots args state).2 (buildNested slots args state).1.1 := by
  induction args generalizing state with
  | nil =>
    rw [buildNested]
    exact meets_nil rfl
  | cons arg args ih =>
    have rest := ih fun symbol inner member ↦ each symbol inner (List.mem_cons_of_mem _ member)
    cases arg with
    | struct symbol inner =>
      rw [buildNested_struct]
      exact (each symbol inner List.mem_cons_self _ (temp state).2).append (rest _)
    | atom symbol | var v | num value =>
      rw [buildNested_other slots rfl]
      exact rest state

private theorem meets_buildStructure (register : Nat) (term : Term) (state : State) :
    Meets slots state (buildStructure slots register term state).2
      (buildStructure slots register term state).1 := by
  induction term generalizing register state with
  | struct symbol args ih =>
    rw [buildStructure_struct]
    have nested := meets_buildNested slots
      (fun symbol inner member register state ↦ ih _ member register state) state
    exact nested.append (.cons (by simp [Instruction.usesOf, Instruction.uses])
      (meets_setArgs slots (length_buildNested slots args state) _))
  | atom symbol | var v | num value =>
    rw [buildStructure]
    exact meets_nil rfl

private theorem meets_goalArg (register : Nat) (arg : Term) (state : State) :
    Meets slots state (goalArg slots register arg state).2
      (goalArg slots register arg state).1 := by
  cases arg with
  | var v =>
    rw [goalArg_var]
    exact .var rfl (by simp [Instruction.usesOf, Instruction.uses])
      (by simp [Instruction.usesOf, Instruction.uses]) (meets_nil rfl)
  | struct symbol args => exact meets_buildStructure slots register _ state
  | atom symbol | num value =>
    rw [goalArg_constant slots register rfl]
    exact .cons (by simp [Instruction.usesOf, Instruction.uses]) (meets_nil rfl)

private theorem meets_goalArgs (register : Nat) (args : List Term) (state : State) :
    Meets slots state (goalArgs slots register args state).2
      (goalArgs slots register args state).1 := by
  induction args generalizing register state with
  | nil => exact meets_nil rfl
  | cons arg args ih =>
    rw [goalArgs_cons]
    exact (meets_goalArg slots register arg state).append (ih _ _)

theorem meets_bodyCode (base : Nat) (goals : List Goal) (state : State) :
    Meets slots state (bodyCode slots base goals state).2 (bodyCode slots base goals state).1 := by
  induction goals generalizing state with
  | nil => exact .cons (fun _ ↦ rfl) (.cons (fun _ ↦ rfl) (meets_nil rfl))
  | cons goal goals ih =>
    cases goal with
    | fail => exact .cons (fun _ ↦ rfl) (meets_nil rfl)
    | call args target =>
      rw [bodyCode_call]
      have here := meets_goalArgs slots 0 args { state with nextTemp := base }
      exact Meets.append here (.cons (fun _ ↦ rfl) (ih _))

/-- The variables seen after the code of a body are those of the goals that code is made for. -/
theorem covers_bodyCode (base : Nat) (goals : List Goal) (state : State) :
    Covers state (bodyCode slots base goals state).2 (Rule.goalVars (reached goals)) := by
  induction goals generalizing state with
  | nil =>
    have nothing : Rule.goalVars (reached []) = ∅ := by
      ext v
      simp [Rule.goalVars, reached]
    rw [nothing]
    exact .refl state
  | cons goal goals ih =>
    cases goal with
    | fail =>
      have nothing : Rule.goalVars (reached (.fail :: goals)) = ∅ := by
        ext v
        simp [Rule.goalVars, reached]
      rw [nothing]
      exact .refl state
    | call args target =>
      have parts : Rule.goalVars (reached (.call args target :: goals)) =
          varsOf args ∪ Rule.goalVars (reached goals) := by
        ext v
        simp only [Rule.goalVars, reached, List.mem_cons, Goal.call.injEq, Set.mem_ofPred_eq,
          Set.mem_union]
        constructor
        · rintro ⟨other, called, ⟨rfl, rfl⟩ | member, occurs⟩
          · exact .inl occurs
          · exact .inr ⟨other, called, member, occurs⟩
        · rintro (occurs | ⟨other, called, member, occurs⟩)
          · exact ⟨args, target, .inl ⟨rfl, rfl⟩, occurs⟩
          · exact ⟨other, called, .inr member, occurs⟩
      rw [parts, bodyCode_call]
      exact (advances_goalArgs slots 0 args { state with nextTemp := base }).covers.trans (ih _)

variable {slots}

private theorem slotUses_of_seen {vars : Set Var} (apart : vars.InjOn (slotNumber slots))
    {seen : Std.TreeSet Var}
    {met : List Var} (known : ∀ v ∈ met, v ∈ vars) {v : Var} (inside : v ∈ vars)
    (filled : v ∈ seen) :
    ∃ count, slotUses slots (slotNumber slots v) seen met = List.replicate count .read := by
  induction met generalizing seen with
  | nil => exact ⟨0, rfl⟩
  | cons w met ih =>
    rw [List.forall_mem_cons] at known
    have still : v ∈ seen.insert w := by simp [filled]
    obtain ⟨count, uses⟩ := ih known.2 still
    rw [slotUses, uses]
    by_cases same : slotOf slots w = .slot (slotNumber slots v)
    · obtain rfl := apart known.1 inside (Place.slot.inj same)
      refine ⟨count + 1, ?_⟩
      rw [if_pos same, List.replicate_succ]
      simp [filled]
    · exact ⟨count, by rw [if_neg same, List.nil_append]⟩

/-- A slot is filled when its variable is first met, and read each time after that; other slots are
not used. -/
theorem slotUses_eq {vars : Set Var} (apart : vars.InjOn (slotNumber slots))
    {seen : Std.TreeSet Var} {met : List Var} (known : ∀ v ∈ met, v ∈ vars)
    (unfilled : ∀ v ∈ seen, slotNumber slots v ≠ index) :
    (slotUses slots index seen met = [] ∧ ∀ v ∈ met, slotNumber slots v ≠ index) ∨
      ((∃ v ∈ met, slotNumber slots v = index) ∧
        ∃ count, slotUses slots index seen met = .fill :: List.replicate count .read) := by
  induction met generalizing seen with
  | nil => exact .inl ⟨rfl, nofun⟩
  | cons w met ih =>
    rw [List.forall_mem_cons] at known
    rw [slotUses]
    by_cases same : slotNumber slots w = index
    · right
      subst same
      have filled : w ∈ seen.insert w := by simp
      obtain ⟨count, uses⟩ := slotUses_of_seen apart known.2 known.1 filled
      have fresh : w ∉ seen := fun member ↦ unfilled w member rfl
      have here : slotOf slots w = .slot (slotNumber slots w) := rfl
      refine ⟨⟨w, List.mem_cons_self, rfl⟩, count, ?_⟩
      rw [uses, if_pos here]
      simp [fresh]
    · have other : slotOf slots w ≠ .slot index := fun equal ↦ same (Place.slot.inj equal)
      rw [if_neg other, List.nil_append]
      have still : ∀ v ∈ seen.insert w, slotNumber slots v ≠ index := by
        intro v member
        rcases Std.TreeSet.mem_insert.1 member with equal | member
        · rw [← Std.LawfulEqCmp.compare_eq_iff_eq.1 equal]
          exact same
        · exact unfilled v member
      rcases ih known.2 still with ⟨nothing, others⟩ | ⟨⟨v, member, found⟩, uses⟩
      · exact .inl ⟨nothing, List.forall_mem_cons.2 ⟨same, others⟩⟩
      · exact .inr ⟨⟨v, List.mem_cons_of_mem _ member, found⟩, uses⟩

end Slots

end Emit

end HornMachine
