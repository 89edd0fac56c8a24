import HornMachine.Proofs.Code.Emission

/-!
# Code for heads

The code for a head argument matches a structure and puts those inside it in temporary registers, to
be matched after it, level by level. Main statements, for any code that follows: the code of a head
is disciplined if what follows is, and it says that the argument registers hold instances of the
head's arguments.

What follows an argument looks at no temporary register of it. So each statement about meaning is
about code followed by a condition on the registers below those taken.
-/

namespace HornMachine

/-- Instructions that match arguments, or structure arguments. -/
def Instruction.Matching : Instruction → Prop
  | .getVariable _ _ | .getValue _ _ | .getConstant _ _ | .getStructure _ _ | .unifyVariable _
  | .unifyValue _ | .unifyConstant _ => True
  | _ => False

namespace Emit

open Function (update)
open Code (Meaning Disciplined Shape)

/-! ### Head arguments -/

/-- The structure that is pending. -/
def Pending.term (pending : Pending) : Term := .struct pending.symbol pending.args

theorem matchArgs_var (slots : Slots) (v : Var) (args : List Term) (state : State) :
    matchArgs slots (.var v :: args) state =
      let result := matchArgs slots args { state with seen := state.seen.insert v }
      (((if !state.seen.contains v then .unifyVariable (slotOf slots v)
        else .unifyValue (slotOf slots v)) :: result.1.1, result.1.2), result.2) := rfl

theorem matchArgs_struct (slots : Slots) (symbol : Symbol) (inner args : List Term)
    (state : State) :
    matchArgs slots (.struct symbol inner :: args) state =
      let result := matchArgs slots args (temp state).2
      ((.unifyVariable (.register (temp state).1) :: result.1.1,
        ⟨symbol, inner, (temp state).1⟩ :: result.1.2), result.2) := rfl

theorem matchArgs_constant (slots : Slots) {arg : Term} {constant : Constant}
    (is_constant : arg.constant? = some constant) (args : List Term) (state : State) :
    matchArgs slots (arg :: args) state =
      let result := matchArgs slots args state
      ((.unifyConstant constant :: result.1.1, result.1.2), result.2) := by
  cases arg with
  | atom symbol | num value =>
    cases is_constant
    rfl
  | var v | struct symbol inner => cases is_constant

theorem advances_matchArgs (slots : Slots) (args : List Term) (state : State) :
    Advances state (matchArgs slots args state).2 (directVars args) := by
  induction args generalizing state with
  | nil =>
    have none_met : directVars [] = ∅ := by simp [directVars]
    rw [none_met]
    exact .refl state
  | cons arg args ih =>
    cases arg with
    | var v =>
      rw [directVars_var]
      exact (advances_first v state).trans (ih _)
    | struct symbol inner =>
      rw [directVars_of_ne (by simp), ← Set.empty_union (directVars args)]
      exact (advances_temp state).trans (ih _)
    | atom symbol | num value =>
      rw [directVars_of_ne (by simp), matchArgs_constant slots rfl]
      exact ih state

/-- The structures among the arguments are left to be matched. -/
theorem map_term_matchArgs (slots : Slots) (args : List Term) (state : State) :
    (matchArgs slots args state).1.2.map Pending.term = args.filter isStructure := by
  induction args generalizing state with
  | nil => rfl
  | cons arg args ih =>
    cases arg with
    | var v => exact ih _
    | struct symbol inner =>
      rw [matchArgs_struct, List.filter_cons_of_pos rfl]
      exact congrArg _ (ih _)
    | atom symbol | num value =>
      rw [matchArgs_constant slots rfl]
      exact ih state

/-- Structures left to be matched are in new temporary registers. -/
theorem register_matchArgs {slots : Slots} {args : List Term} {state : State}
    (enough : (matchArgs slots args state).2.used ≤ maxRegister) {pending : Pending}
    (member : pending ∈ (matchArgs slots args state).1.2) :
    state.nextTemp ≤ pending.register ∧
      pending.register < (matchArgs slots args state).2.nextTemp := by
  induction args generalizing state with
  | nil => cases member
  | cons arg args ih =>
    cases arg with
    | var v => exact ih enough member
    | struct symbol inner =>
      have later := advances_matchArgs slots args (temp state).2
      rw [matchArgs_struct] at enough member ⊢
      rcases List.mem_cons.1 member with rfl | inside
      · rw [temp_eq (Nat.le_trans later.used enough)]
        exact ⟨Nat.le_refl _, later.temps⟩
      · obtain ⟨lower, upper⟩ := ih enough inside
        exact ⟨Nat.le_of_lt lower, upper⟩
    | atom symbol | num value =>
      rw [matchArgs_constant slots rfl] at enough member ⊢
      exact ih enough member

section Head

variable {shape : Shape} {size base : Nat} {slots : Slots} {vars : Set Var}
  {registers : Set Nat} {code : Code} {D : Type} [Domain D] {η : Nat → D} {goals : List (Task D)}

/-- The registers of pending structures. -/
def registersOf (pendings : List Pending) : Set Nat :=
  {index | ∃ pending ∈ pendings, pending.register = index}

private theorem registersOf_cons (pending : Pending) (rest : List Pending) :
    registersOf (pending :: rest) = insert pending.register (registersOf rest) := by
  ext index
  simp [registersOf, eq_comm]

private theorem registersOf_append (first second : List Pending) :
    registersOf (first ++ second) = registersOf first ∪ registersOf second := by
  ext index
  simp [registersOf, or_and_right, exists_or]

private theorem disciplined_matchArgs (apart : vars.InjOn (slotNumber slots)) {args : List Term}
    {state : State} (inside : ∀ v ∈ state.seen, v ∈ vars) (known : directVars args ⊆ vars)
    (later : Disciplined shape size code
      (registers ∪ registersOf (matchArgs slots args state).1.2)
      (slotsOf slots (matchArgs slots args state).2.seen) false 0) :
    Disciplined shape size ((matchArgs slots args state).1.1 ++ code) registers
      (slotsOf slots state.seen) false args.length := by
  induction args generalizing state registers with
  | nil =>
    have none_left : registersOf [] = ∅ := by simp [registersOf]
    have all_kept : registers ∪ registersOf (matchArgs slots [] state).1.2 = registers := by
      rw [show (matchArgs slots [] state).1.2 = [] from rfl, none_left, Set.union_empty]
    rw [all_kept] at later
    exact later
  | cons arg args ih =>
    cases arg with
    | var v =>
      rw [directVars_var, Set.union_subset_iff, Set.singleton_subset_iff] at known
      rw [matchArgs_var] at later ⊢
      have rest := ih
        (by simpa using fun w found ↦ found.elim (fun same ↦ same ▸ known.1) (inside w))
        known.2 later
      rw [slotsOf_insert] at rest
      by_cases met : v ∈ state.seen
      · have filled : slotNumber slots v ∈ slotsOf slots state.seen := ⟨v, met, rfl⟩
        rw [Set.insert_eq_of_mem filled] at rest
        simp only [not_contains_eq_false met]
        exact ⟨rfl, args.length, rfl, filled, rest⟩
      · simp only [not_contains_eq_true met]
        exact ⟨rfl, args.length, rfl, slotNumber_notMem apart inside known.1 met, rest⟩
    | struct symbol inner =>
      rw [directVars_of_ne (by simp)] at known
      rw [matchArgs_struct, registersOf_cons, Set.union_insert, ← Set.insert_union] at later
      exact ⟨rfl, args.length, rfl, trivial, ih inside known later⟩
    | atom symbol | num value =>
      rw [directVars_of_ne (by simp)] at known
      rw [matchArgs_constant slots rfl] at later ⊢
      exact ⟨rfl, args.length, rfl, ih inside known later⟩

/-- A condition on registers that does not look at those from `top` on. -/
def Below (top : Nat) (condition : (Nat → D) → Prop) : Prop :=
  ∀ ρ ρ', (∀ index < top, ρ index = ρ' index) → (condition ρ ↔ condition ρ')

omit [Domain D] in
theorem Below.mono {top higher : Nat} {condition : (Nat → D) → Prop}
    (below : Below top condition) (grown : top ≤ higher) : Below higher condition :=
  fun ρ ρ' alike ↦ below ρ ρ' fun index lower ↦ alike index (Nat.lt_of_lt_of_le lower grown)

omit [Domain D] in
theorem Below.and {top : Nat} {condition other : (Nat → D) → Prop}
    (below : Below top condition) (too : Below top other) :
    Below top fun ρ ↦ condition ρ ∧ other ρ :=
  fun ρ ρ' alike ↦ and_congr (below ρ ρ' alike) (too ρ ρ' alike)

omit [Domain D] in
theorem Below.update {top : Nat} {condition : (Nat → D) → Prop} (below : Below top condition)
    (ρ : Nat → D) {index : Nat} (high : top ≤ index) (value : D) :
    condition (update ρ index value) ↔ condition ρ := by
  refine below _ _ fun other lower ↦ ?_
  rw [Function.update_of_ne (by omega)]

/-- Pending structures are in their registers. -/
def Holding (slots : Slots) (η : Nat → D) (pendings : List Pending) (ρ : Nat → D) : Prop :=
  ∀ pending ∈ pendings, ρ pending.register = valueOf slots η pending.term

theorem Holding.below {slots : Slots} {η : Nat → D} {pendings : List Pending} {top : Nat}
    (lower : ∀ pending ∈ pendings, pending.register < top) :
    Below top (Holding slots η pendings) := by
  intro ρ ρ' alike
  refine forall₂_congr fun pending member ↦ ?_
  rw [alike _ (lower pending member)]

private theorem holding_cons {slots : Slots} {η : Nat → D} {pending : Pending} {rest : List Pending}
    {ρ : Nat → D} : Holding slots η (pending :: rest) ρ ↔
      ρ pending.register = valueOf slots η pending.term ∧ Holding slots η rest ρ := by
  simp [Holding]

private theorem holding_append {slots : Slots} {η : Nat → D} {first second : List Pending}
    {ρ : Nat → D} : Holding slots η (first ++ second) ρ ↔
      Holding slots η first ρ ∧ Holding slots η second ρ := by
  simp [Holding, or_imp, forall_and]

/-- Matching arguments says that they are the instances of the given ones, if the code after it says
so of the structures left. -/
theorem meaning_matchArgs {args : List Term} {state : State}
    (enough : (matchArgs slots args state).2.used ≤ maxRegister)
    {condition : (Nat → D) → Prop} (below : Below state.nextTemp condition)
    (later : ∀ ρ, Meaning η code ρ [] goals ↔
      Holding slots η (matchArgs slots args state).1.2 ρ ∧ condition ρ)
    (ρ : Nat → D) {values : List D} (same_count : values.length = args.length) :
    Meaning η ((matchArgs slots args state).1.1 ++ code) ρ values goals ↔
      values = args.map (valueOf slots η) ∧ condition ρ := by
  induction args generalizing state condition ρ values with
  | nil =>
    rw [List.length_nil, List.length_eq_zero_iff] at same_count
    subst same_count
    have none_left : Holding slots η [] ρ := by simp [Holding]
    exact (later ρ).trans ⟨fun both ↦ ⟨rfl, both.2⟩, fun both ↦ ⟨none_left, both.2⟩⟩
  | cons arg args ih =>
    obtain ⟨value, values, rfl⟩ : ∃ value rest, values = value :: rest :=
      List.exists_cons_of_length_eq_add_one same_count
    rw [List.length_cons, List.length_cons, Nat.add_right_cancel_iff] at same_count
    rw [List.map_cons, List.cons.injEq, and_assoc]
    cases arg with
    | var v =>
      rw [matchArgs_var] at enough later ⊢
      have rest := ih enough below later ρ same_count
      rw [← rest]
      by_cases met : v ∈ state.seen
      · simp only [not_contains_eq_false met]
        simp [Meaning, slotOf, Place.value, valueOf, slotNumber]
      · simp only [not_contains_eq_true met]
        simp [Meaning, slotOf, Place.Receives, valueOf, slotNumber, eq_comm]
    | struct symbol inner =>
      rw [matchArgs_struct] at enough later ⊢
      have advances := advances_matchArgs slots args (temp state).2
      have register := temp_eq (Nat.le_trans advances.used enough)
      have own : Below (state.nextTemp + 1) fun ρ ↦
          ρ state.nextTemp = valueOf slots η (.struct symbol inner) :=
        fun ρ ρ' alike ↦ by simp only [alike _ (Nat.lt_succ_self _)]
      have rest := ih enough (own.and (below.mono (Nat.le_succ _)))
        (fun ρ ↦ by
          rw [later, holding_cons, register, Pending.term, and_assoc, and_left_comm])
        (update ρ state.nextTemp value) same_count
      rw [Function.update_self, below.update ρ (Nat.le_refl _), and_left_comm] at rest
      rw [register, ← rest]
      simp [Meaning, Place.Receives]
    | atom symbol | num number =>
      rw [matchArgs_constant slots rfl] at enough later ⊢
      rw [← ih enough below later ρ same_count]
      simp [Meaning, Constant.value, valueOf]

/-! ### Levels of a head argument -/

theorem matchLevel_cons (slots : Slots) (pending : Pending) (rest : List Pending) (state : State) :
    matchLevel slots (pending :: rest) state =
      let one := matchArgs slots pending.args state
      let two := matchLevel slots rest one.2
      ((.getStructure ⟨pending.symbol, pending.args.length⟩ pending.register ::
        (one.1.1 ++ two.1.1), one.1.2 ++ two.1.2), two.2) := rfl

/-- Variables that are arguments of pending structures. -/
def levelVars (level : List Pending) : Set Var :=
  {v | ∃ pending ∈ level, v ∈ directVars pending.args}

theorem levelVars_cons (pending : Pending) (rest : List Pending) :
    levelVars (pending :: rest) = directVars pending.args ∪ levelVars rest := by
  ext v
  simp [levelVars]

theorem advances_matchLevel (slots : Slots) (level : List Pending) (state : State) :
    Advances state (matchLevel slots level state).2 (levelVars level) := by
  induction level generalizing state with
  | nil =>
    have none_met : levelVars [] = ∅ := by simp [levelVars]
    rw [none_met]
    exact .refl state
  | cons pending rest ih =>
    rw [levelVars_cons]
    exact (advances_matchArgs slots pending.args state).trans (ih _)

/-- The structures among the arguments of a level are the next level. -/
theorem map_term_matchLevel (slots : Slots) (level : List Pending) (state : State) :
    (matchLevel slots level state).1.2.map Pending.term =
      (level.flatMap Pending.args).filter isStructure := by
  induction level generalizing state with
  | nil => rfl
  | cons pending rest ih =>
    rw [matchLevel_cons, List.map_append, map_term_matchArgs, ih, List.flatMap_cons,
      List.filter_append]

private theorem register_matchLevel {level : List Pending} {state : State}
    (enough : (matchLevel slots level state).2.used ≤ maxRegister) {pending : Pending}
    (member : pending ∈ (matchLevel slots level state).1.2) :
    state.nextTemp ≤ pending.register ∧
      pending.register < (matchLevel slots level state).2.nextTemp := by
  induction level generalizing state with
  | nil => cases member
  | cons first rest ih =>
    rw [matchLevel_cons] at enough member ⊢
    have one := advances_matchArgs slots first.args state
    have two := advances_matchLevel slots rest (matchArgs slots first.args state).2
    rcases List.mem_append.1 member with inside | inside
    · obtain ⟨lower, upper⟩ := register_matchArgs (Nat.le_trans two.used enough) inside
      exact ⟨lower, Nat.lt_of_lt_of_le upper two.temps⟩
    · obtain ⟨lower, upper⟩ := ih enough inside
      exact ⟨Nat.le_trans one.temps lower, upper⟩

private theorem disciplined_matchLevel (apart : vars.InjOn (slotNumber slots))
    {level : List Pending}
    {state : State} (inside : ∀ v ∈ state.seen, v ∈ vars) (known : levelVars level ⊆ vars)
    (held : registersOf level ⊆ registers)
    (kinds : ∀ pending ∈ level, shape.admits ⟨pending.symbol, pending.args.length⟩)
    (later : Disciplined shape size code
      (registers ∪ registersOf (matchLevel slots level state).1.2)
      (slotsOf slots (matchLevel slots level state).2.seen) false 0) :
    Disciplined shape size ((matchLevel slots level state).1.1 ++ code) registers
      (slotsOf slots state.seen) false 0 := by
  induction level generalizing state registers with
  | nil =>
    refine later.mono (Set.union_subset (Set.Subset.refl _) ?_)
    rintro index ⟨pending, member, -⟩
    exact absurd member List.not_mem_nil
  | cons pending rest ih =>
    rw [levelVars_cons, Set.union_subset_iff] at known
    rw [registersOf_cons, Set.insert_subset_iff] at held
    rw [matchLevel_cons, registersOf_append, ← Set.union_assoc] at later
    have one := advances_matchArgs slots pending.args state
    rw [matchLevel_cons, List.cons_append, List.append_assoc]
    refine ⟨rfl, held.1, kinds pending List.mem_cons_self, ?_⟩
    refine disciplined_matchArgs apart inside known.1 (ih ?_ known.2
      (held.2.trans Set.subset_union_left)
      (fun other member ↦ kinds other (List.mem_cons_of_mem _ member)) later)
    exact fun v found ↦ ((one.seen v).1 found).elim (inside v) fun direct ↦ known.1 direct

private theorem meaning_matchLevel {level : List Pending} {state : State}
    (enough : (matchLevel slots level state).2.used ≤ maxRegister)
    (lower : ∀ pending ∈ level, pending.register < state.nextTemp)
    {condition : (Nat → D) → Prop} (below : Below state.nextTemp condition)
    (later : ∀ ρ, Meaning η code ρ [] goals ↔
      Holding slots η (matchLevel slots level state).1.2 ρ ∧ condition ρ) (ρ : Nat → D) :
    Meaning η ((matchLevel slots level state).1.1 ++ code) ρ [] goals ↔
      Holding slots η level ρ ∧ condition ρ := by
  induction level generalizing state condition ρ with
  | nil => exact later ρ
  | cons pending rest ih =>
    rw [matchLevel_cons] at enough later ⊢
    have one := advances_matchArgs slots pending.args state
    have two := advances_matchLevel slots rest (matchArgs slots pending.args state).2
    have covered := Nat.le_trans two.used enough
    -- What is left of the first structure is among the registers that the rest keeps.
    have first_left : Below (matchArgs slots pending.args state).2.nextTemp
        (Holding slots η (matchArgs slots pending.args state).1.2) :=
      Holding.below fun other member ↦ (register_matchArgs covered member).2
    have rest_meaning (ρ : Nat → D) := ih (ρ := ρ)
      enough
      (fun other member ↦
        Nat.lt_of_lt_of_le (lower other (List.mem_cons_of_mem _ member)) one.temps)
      (first_left.and (below.mono one.temps))
      (fun ρ ↦ by rw [later, holding_append, and_assoc, and_left_comm])
    have rest_lower : Below state.nextTemp (Holding slots η rest) :=
      Holding.below fun other member ↦ lower other (List.mem_cons_of_mem _ member)
    have args_meaning (values : List D) (same_count : values.length = pending.args.length) :=
      meaning_matchArgs covered (rest_lower.and below)
        (fun ρ ↦ by rw [rest_meaning, and_left_comm]) ρ same_count
    rw [List.cons_append, Meaning, List.append_assoc, holding_cons, and_assoc, Pending.term,
      valueOf_struct]
    constructor
    · rintro ⟨values, same_count, held, meaning⟩
      obtain ⟨rfl, others⟩ := (args_meaning values same_count).1 meaning
      exact ⟨held, others⟩
    · rintro ⟨held, others⟩
      exact ⟨_, by simp, held, (args_meaning _ (by simp)).2 ⟨rfl, others⟩⟩

/-- Number of structures of a level, those inside it included. -/
def weight (level : List Pending) : Nat := Term.structuresList (level.map Pending.term)

theorem length_le_weight (level : List Pending) : level.length ≤ weight level := by
  induction level with
  | nil => exact Nat.le_refl _
  | cons pending rest ih =>
    rw [weight] at ih ⊢
    rw [List.map_cons, List.length_cons, Term.structuresList, Pending.term, Term.structures]
    omega

/-- Only an empty level has no structures. -/
theorem eq_nil_of_weight_le {level : List Pending} (none_left : weight level ≤ 0) : level = [] :=
  List.length_eq_zero_iff.1 (Nat.le_zero.1 (Nat.le_trans (length_le_weight level) none_left))

private theorem structuresList_append (first second : List Term) :
    Term.structuresList (first ++ second) =
      Term.structuresList first + Term.structuresList second := by
  induction first with
  | nil => simp [Term.structuresList]
  | cons term terms ih => simp [Term.structuresList, ih, Nat.add_assoc]

/-- The next level has fewer structures. -/
theorem weight_matchLevel (slots : Slots) (level : List Pending) (state : State) :
    weight (matchLevel slots level state).1.2 + level.length = weight level := by
  rw [weight, map_term_matchLevel, ← structuresList_eq]
  induction level with
  | nil => rfl
  | cons pending rest ih =>
    rw [List.flatMap_cons, structuresList_append, List.length_cons, weight, List.map_cons,
      Term.structuresList, Pending.term, Term.structures]
    rw [weight] at ih
    omega

/-- One level less is left to match. -/
theorem weight_matchLevel_le {slots : Slots} {limit : Nat} {first : Pending} {rest : List Pending}
    (deep : weight (first :: rest) ≤ limit + 1) (state : State) :
    weight (matchLevel slots (first :: rest) state).1.2 ≤ limit := by
  have fewer := weight_matchLevel slots (first :: rest) state
  rw [List.length_cons] at fewer
  omega

/-- All variables of the pending structures. -/
theorem varsOf_level (slots : Slots) (level : List Pending) (state : State) :
    varsOf (level.map Pending.term) =
      levelVars level ∪ varsOf ((matchLevel slots level state).1.2.map Pending.term) := by
  rw [map_term_matchLevel]
  have direct : levelVars level = directVars (level.flatMap Pending.args) := by
    ext v
    simp [levelVars, directVars]
  rw [direct, ← varsOf_eq]
  ext v
  simp only [varsOf, Set.mem_ofPred_eq, List.mem_map, List.mem_flatMap]
  constructor
  · rintro ⟨_, ⟨pending, member, rfl⟩, occurs⟩
    obtain ⟨arg, inside, found⟩ := Term.mem_occurrences_struct.1 occurs
    exact ⟨arg, ⟨pending, member, inside⟩, found⟩
  · rintro ⟨arg, ⟨pending, member, inside⟩, found⟩
    exact ⟨_, ⟨pending, member, rfl⟩, Term.mem_occurrences_struct.2 ⟨arg, inside, found⟩⟩

/-- The structures of the next level have functors of the same kind. -/
theorem allFunctors_matchLevel {level : List Pending}
    (kinds : ∀ pending ∈ level, pending.term.AllFunctors shape.admits) (state : State) :
    ∀ pending ∈ (matchLevel slots level state).1.2, pending.term.AllFunctors shape.admits := by
  intro pending member
  have among : pending.term ∈ (level.flatMap Pending.args).filter isStructure := by
    rw [← map_term_matchLevel slots level state]
    exact List.mem_map_of_mem member
  obtain ⟨outer, here, inside⟩ := List.mem_flatMap.1 (List.mem_filter.1 among).1
  exact (Term.allFunctors_struct.1 (kinds outer here)).2 _ inside

theorem matchLevels_cons (slots : Slots) (limit : Nat) (first : Pending) (rest : List Pending)
    (state : State) :
    matchLevels slots (limit + 1) (first :: rest) state =
      let one := matchLevel slots (first :: rest) state
      let two := matchLevels slots limit one.1.2 one.2
      (one.1.1 ++ two.1, two.2) := rfl

theorem advances_matchLevels (slots : Slots) {limit : Nat} {level : List Pending}
    (deep : weight level ≤ limit)
    (state : State) : Advances state (matchLevels slots limit level state).2
      (varsOf (level.map Pending.term)) := by
  induction limit generalizing level state with
  | zero =>
    obtain rfl := eq_nil_of_weight_le deep
    exact varsOf_nil ▸ .refl state
  | succ limit ih =>
    cases level with
    | nil => exact varsOf_nil ▸ .refl state
    | cons first rest =>
      rw [varsOf_level slots (first :: rest) state, matchLevels_cons]
      exact (advances_matchLevel slots (first :: rest) state).trans
        (ih (weight_matchLevel_le deep state) _)

private theorem disciplined_matchLevels (apart : vars.InjOn (slotNumber slots)) {limit : Nat}
    {level : List Pending} (deep : weight level ≤ limit) {state : State}
    (inside : ∀ v ∈ state.seen, v ∈ vars) (known : varsOf (level.map Pending.term) ⊆ vars)
    (held : registersOf level ⊆ registers)
    (kinds : ∀ pending ∈ level, pending.term.AllFunctors shape.admits)
    (later : Disciplined shape size code registers
      (slotsOf slots (matchLevels slots limit level state).2.seen) false 0) :
    Disciplined shape size ((matchLevels slots limit level state).1 ++ code) registers
      (slotsOf slots state.seen) false 0 := by
  induction limit generalizing level state registers with
  | zero => exact later
  | succ limit ih =>
    cases level with
    | nil => exact later
    | cons first rest =>
      rw [varsOf_level slots (first :: rest) state, Set.union_subset_iff] at known
      have one := advances_matchLevel slots (first :: rest) state
      rw [matchLevels_cons] at later ⊢
      rw [List.append_assoc]
      refine disciplined_matchLevel apart inside known.1 held
        (fun other member ↦ (Term.allFunctors_struct.1 (kinds other member)).1) ?_
      exact ih (weight_matchLevel_le deep state)
        (fun v found ↦ ((one.seen v).1 found).elim (inside v) fun direct ↦ known.1 direct) known.2
        Set.subset_union_right (allFunctors_matchLevel kinds state)
        (later.mono Set.subset_union_left)

/-- Matching pending structures level by level says that they are in their registers. -/
theorem meaning_matchLevels {limit : Nat} {level : List Pending} (deep : weight level ≤ limit)
    {state : State} (enough : (matchLevels slots limit level state).2.used ≤ maxRegister)
    (lower : ∀ pending ∈ level, pending.register < state.nextTemp)
    {condition : (Nat → D) → Prop} (below : Below state.nextTemp condition)
    (later : ∀ ρ, Meaning η code ρ [] goals ↔ condition ρ) (ρ : Nat → D) :
    Meaning η ((matchLevels slots limit level state).1 ++ code) ρ [] goals ↔
      Holding slots η level ρ ∧ condition ρ := by
  have nothing : Holding slots η [] ρ := by simp [Holding]
  induction limit generalizing level state ρ with
  | zero =>
    obtain rfl := eq_nil_of_weight_le deep
    exact (later ρ).trans ⟨fun holds ↦ ⟨nothing, holds⟩, fun both ↦ both.2⟩
  | succ limit ih =>
    cases level with
    | nil => exact (later ρ).trans ⟨fun holds ↦ ⟨nothing, holds⟩, fun both ↦ both.2⟩
    | cons first rest =>
      rw [matchLevels_cons] at enough ⊢
      have one := advances_matchLevel slots (first :: rest) state
      have next_deep : weight (matchLevel slots (first :: rest) state).1.2 ≤ limit :=
        weight_matchLevel_le deep state
      have two := advances_matchLevels slots next_deep (matchLevel slots (first :: rest) state).2
      have covered := Nat.le_trans two.used enough
      rw [List.append_assoc]
      refine meaning_matchLevel covered lower below (fun ρ ↦ ?_) ρ
      exact ih next_deep enough (fun other member ↦ (register_matchLevel covered member).2)
        (below.mono one.temps) ρ (by simp [Holding])

/-! ### Heads -/

theorem headArg_var (slots : Slots) (base register : Nat) (v : Var) (state : State) :
    headArg slots base register (.var v) state =
      ([if !state.seen.contains v then .getVariable (slotOf slots v) register
        else .getValue (slotOf slots v) register],
        { state with nextTemp := base, seen := state.seen.insert v }) := rfl

theorem headArg_struct (slots : Slots) (base register : Nat) (symbol : Symbol) (args : List Term)
    (state : State) :
    headArg slots base register (.struct symbol args) state =
      matchLevels slots (Term.structures (.struct symbol args)) [⟨symbol, args, register⟩]
        { state with nextTemp := base } := rfl

theorem headArg_constant (slots : Slots) (base register : Nat) {arg : Term} {constant : Constant}
    (is_constant : arg.constant? = some constant) (state : State) :
    headArg slots base register arg state =
      ([.getConstant constant register], { state with nextTemp := base }) := by
  cases arg with
  | atom symbol | num value =>
    cases is_constant
    rfl
  | var v | struct symbol inner => cases is_constant

theorem weight_single (symbol : Symbol) (args : List Term) (register : Nat) :
    weight [⟨symbol, args, register⟩] ≤ Term.structures (.struct symbol args) := by
  simp [weight, Term.structuresList, Pending.term]

theorem covers_headArg (slots : Slots) (base register : Nat) (arg : Term) (state : State) :
    Covers state (headArg slots base register arg state).2 {v | v ∈ arg.occurrences} := by
  cases arg with
  | var v =>
    have single : {w | w ∈ (Term.var v).occurrences} = ({v} : Set Var) := by
      ext w
      simp
    rw [single]
    exact (advances_first v { state with nextTemp := base }).covers
  | struct symbol args =>
    rw [headArg_struct]
    have advances := advances_matchLevels slots (weight_single symbol args register)
      { state with nextTemp := base }
    rw [List.map_singleton, varsOf_cons, varsOf_nil, Set.union_empty] at advances
    exact advances.covers
  | atom symbol | num value =>
    rw [headArg_constant slots base register rfl]
    exact ⟨Nat.le_refl _, by simp⟩

private theorem disciplined_headArg (apart : vars.InjOn (slotNumber slots)) {register : Nat}
    {arg : Term}
    {state : State} (inside : ∀ v ∈ state.seen, v ∈ vars) (known : ∀ v ∈ arg.occurrences, v ∈ vars)
    (held : register ∈ registers) (kinds : arg.AllFunctors shape.admits)
    (later : Disciplined shape size code registers
      (slotsOf slots (headArg slots base register arg state).2.seen) false 0) :
    Disciplined shape size ((headArg slots base register arg state).1 ++ code) registers
      (slotsOf slots state.seen) false 0 := by
  cases arg with
  | var v =>
    rw [headArg_var, slotsOf_insert] at later
    have known := known v (by simp)
    rw [headArg_var]
    by_cases met : v ∈ state.seen
    · have filled : slotNumber slots v ∈ slotsOf slots state.seen := ⟨v, met, rfl⟩
      rw [Set.insert_eq_of_mem filled] at later
      simp only [not_contains_eq_false met]
      exact ⟨rfl, held, filled, later⟩
    · simp only [not_contains_eq_true met]
      exact ⟨rfl, held, slotNumber_notMem apart inside known met, later⟩
  | struct symbol args =>
    rw [headArg_struct] at later ⊢
    refine disciplined_matchLevels apart (weight_single symbol args register)
      inside ?_ ?_ ?_ later
    · rw [List.map_singleton, varsOf_cons, varsOf_nil, Set.union_empty]
      exact known
    · rintro index ⟨pending, member, rfl⟩
      rw [List.mem_singleton.1 member]
      exact held
    · simpa [Pending.term] using kinds
  | atom symbol | num value =>
    rw [headArg_constant slots base register rfl] at later ⊢
    exact ⟨rfl, held, later⟩

/-- Matching a head argument says that it is an instance of the given one. -/
theorem meaning_headArg {register : Nat} {arg : Term} {state : State}
    (enough : (headArg slots base register arg state).2.used ≤ maxRegister)
    (lower : register < base) (below : Below base fun ρ ↦ Meaning η code ρ [] goals)
    (ρ : Nat → D) :
    Meaning η ((headArg slots base register arg state).1 ++ code) ρ [] goals ↔
      ρ register = valueOf slots η arg ∧ Meaning η code ρ [] goals := by
  cases arg with
  | var v =>
    rw [headArg_var]
    by_cases met : v ∈ state.seen
    · simp only [not_contains_eq_false met]
      simp [Meaning, slotOf, Place.value, valueOf, slotNumber, eq_comm]
    · simp only [not_contains_eq_true met]
      simp [Meaning, slotOf, Place.Receives, valueOf, slotNumber, eq_comm]
  | struct symbol args =>
    rw [headArg_struct] at enough ⊢
    rw [meaning_matchLevels (weight_single symbol args register) enough (by simpa using lower) below
      (fun ρ ↦ Iff.rfl), holding_cons]
    simp [Holding, Pending.term]
  | atom symbol | num value =>
    rw [headArg_constant slots base register rfl]
    simp [Meaning, Constant.value, valueOf]

theorem headArgs_cons (slots : Slots) (base register : Nat) (arg : Term) (args : List Term)
    (state : State) :
    headArgs slots base register (arg :: args) state =
      let one := headArg slots base register arg state
      let two := headArgs slots base (register + 1) args one.2
      (one.1 ++ two.1, two.2) := rfl

theorem covers_headArgs (slots : Slots) (base register : Nat) (args : List Term) (state : State) :
    Covers state (headArgs slots base register args state).2 (varsOf args) := by
  induction args generalizing register state with
  | nil => exact varsOf_nil ▸ .refl state
  | cons arg args ih =>
    rw [varsOf_cons]
    exact (covers_headArg slots base register arg state).trans (ih _ _)

theorem disciplined_headArgs (apart : vars.InjOn (slotNumber slots)) {register : Nat}
    {args : List Term} {state : State} (inside : ∀ v ∈ state.seen, v ∈ vars)
    (known : varsOf args ⊆ vars)
    (held : ∀ index < register + args.length, index ∈ registers)
    (kinds : ∀ arg ∈ args, arg.AllFunctors shape.admits)
    (later : Disciplined shape size code registers
      (slotsOf slots (headArgs slots base register args state).2.seen) false 0) :
    Disciplined shape size ((headArgs slots base register args state).1 ++ code) registers
      (slotsOf slots state.seen) false 0 := by
  induction args generalizing register state with
  | nil => exact later
  | cons arg args ih =>
    rw [varsOf_cons, Set.union_subset_iff] at known
    rw [List.length_cons] at held
    have one := covers_headArg slots base register arg state
    rw [headArgs_cons] at later ⊢
    rw [List.append_assoc]
    refine disciplined_headArg apart inside known.1 (held register (by omega))
      (kinds arg List.mem_cons_self) ?_
    exact ih (fun v found ↦ ((one.seen v).1 found).elim (inside v) fun direct ↦ known.1 direct)
      known.2 (fun index lower ↦ held index (by omega))
      (fun other member ↦ kinds other (List.mem_cons_of_mem _ member)) later

/-- Matching the head arguments says that they are instances of the given ones. -/
theorem meaning_headArgs {register : Nat} {args : List Term} {state : State}
    (enough : (headArgs slots base register args state).2.used ≤ maxRegister)
    (lower : register + args.length ≤ base) (below : Below base fun ρ ↦ Meaning η code ρ [] goals)
    (ρ : Nat → D) :
    Meaning η ((headArgs slots base register args state).1 ++ code) ρ [] goals ↔
      (List.range' register args.length).map ρ = args.map (valueOf slots η) ∧
        Meaning η code ρ [] goals := by
  induction args generalizing register state ρ with
  | nil => exact ⟨fun meaning ↦ ⟨rfl, meaning⟩, fun both ↦ both.2⟩
  | cons arg args ih =>
    rw [List.length_cons] at lower
    rw [headArgs_cons] at enough ⊢
    have two := covers_headArgs slots base (register + 1) args
      (headArg slots base register arg state).2
    have rest (ρ : Nat → D) := ih enough (by omega) ρ
    have others : Below base fun ρ ↦
        (List.range' (register + 1) args.length).map ρ = args.map (valueOf slots η) := by
      intro ρ ρ' alike
      have same : (List.range' (register + 1) args.length).map ρ =
          (List.range' (register + 1) args.length).map ρ' :=
        List.map_congr_left fun index member ↦
          alike index (by have := List.mem_range'_1.1 member; omega)
      simp only [same]
    rw [List.append_assoc, meaning_headArg (Nat.le_trans two.used enough) (by omega)
      (fun ρ ρ' alike ↦ by
        simp only [rest]
        exact others.and below ρ ρ' alike), rest, List.length_cons, List.range'_succ,
      List.map_cons, List.map_cons, List.cons.injEq, and_assoc]

end Head

/-! ### Code that matches -/

section Matching

variable {slots : Slots}

private theorem matching_matchArgs (args : List Term) (state : State) :
    ∀ instruction ∈ (matchArgs slots args state).1.1, instruction.Matching := by
  induction args generalizing state with
  | nil => exact List.forall_mem_nil _
  | cons arg args ih =>
    cases arg with
    | var v =>
      rw [matchArgs_var]
      refine List.forall_mem_cons.2 ⟨?_, ih _⟩
      split <;> trivial
    | struct symbol inner =>
      rw [matchArgs_struct]
      exact List.forall_mem_cons.2 ⟨trivial, ih _⟩
    | atom symbol | num value =>
      rw [matchArgs_constant slots rfl]
      exact List.forall_mem_cons.2 ⟨trivial, ih _⟩

private theorem matching_matchLevel (level : List Pending) (state : State) :
    ∀ instruction ∈ (matchLevel slots level state).1.1, instruction.Matching := by
  induction level generalizing state with
  | nil => exact List.forall_mem_nil _
  | cons pending rest ih =>
    rw [matchLevel_cons]
    exact List.forall_mem_cons.2
      ⟨trivial, List.forall_mem_append.2 ⟨matching_matchArgs pending.args state, ih _⟩⟩

private theorem matching_matchLevels (limit : Nat) (level : List Pending) (state : State) :
    ∀ instruction ∈ (matchLevels slots limit level state).1, instruction.Matching := by
  induction limit generalizing level state with
  | zero => exact List.forall_mem_nil _
  | succ limit ih =>
    cases level with
    | nil => exact List.forall_mem_nil _
    | cons first rest =>
      rw [matchLevels_cons]
      exact List.forall_mem_append.2 ⟨matching_matchLevel (first :: rest) state, ih _ _⟩

private theorem matching_headArg (base register : Nat) (arg : Term) (state : State) :
    ∀ instruction ∈ (headArg slots base register arg state).1, instruction.Matching := by
  cases arg with
  | var v =>
    rw [headArg_var]
    refine List.forall_mem_singleton.2 ?_
    split <;> trivial
  | struct symbol args =>
    rw [headArg_struct]
    exact matching_matchLevels _ _ _
  | atom symbol | num value =>
    rw [headArg_constant slots base register rfl]
    exact List.forall_mem_singleton.2 trivial

theorem matching_headArgs (base register : Nat) (args : List Term) (state : State) :
    ∀ instruction ∈ (headArgs slots base register args state).1, instruction.Matching := by
  induction args generalizing register state with
  | nil => exact List.forall_mem_nil _
  | cons arg args ih =>
    rw [headArgs_cons]
    exact List.forall_mem_append.2 ⟨matching_headArg base register arg state, ih _ _⟩

end Matching

end Emit
end HornMachine
