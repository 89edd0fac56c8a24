import HornMachine.Proofs.Code.Emission

/-!
# Code for goal arguments

The code for a goal argument builds the structures inside it first, each in a temporary register.
Such code asks nothing of the values it finds: it changes registers and does nothing else. Main
statements: the code is disciplined if what follows is, and it puts instances of the arguments in
the argument registers.
-/

namespace HornMachine

/-- Instructions that build arguments, or structure arguments. -/
def Instruction.Building : Instruction → Prop
  | .putVariable _ _ | .putValue _ _ | .putConstant _ _ | .putStructure _ _ | .setVariable _
  | .setValue _ | .setConstant _ => True
  | _ => False

namespace Emit

open Function (update)
open Code (Meaning Disciplined Shape)

/-! ### Goal arguments -/

section Goal

variable {shape : Shape} {size base : Nat} {slots : Slots} {vars registers : Set Nat}
  {code : Code} {D : Type} [Domain D] {η : Nat → D} {goals : List (Task D)}

theorem setArgs_var (slots : Slots) (v : Var) (args : List Term) (nested : List Nat)
    (state : State) :
    setArgs slots (.var v :: args) nested state =
      let result := setArgs slots args nested { state with seen := state.seen.insert v }
      ((if !state.seen.contains v then .setVariable (slotOf slots v)
        else .setValue (slotOf slots v)) :: result.1, result.2) := by
  cases nested <;> rfl

theorem setArgs_struct (slots : Slots) (symbol : Symbol) (inner args : List Term) (register : Nat)
    (nested : List Nat) (state : State) :
    setArgs slots (.struct symbol inner :: args) (register :: nested) state =
      let result := setArgs slots args nested state
      (.setValue (.register register) :: result.1, result.2) := rfl

theorem setArgs_constant (slots : Slots) {arg : Term} {constant : Constant}
    (is_constant : arg.constant? = some constant) (args : List Term) (nested : List Nat)
    (state : State) :
    setArgs slots (arg :: args) nested state =
      let result := setArgs slots args nested state
      (.setConstant constant :: result.1, result.2) := by
  cases arg with
  | atom symbol | num value =>
    cases is_constant
    cases nested <;> rfl
  | var v | struct symbol inner => cases is_constant

theorem advances_setArgs (slots : Slots) (args : List Term) {nested : List Nat}
    (aligned : nested.length = (args.filter isStructure).length) (state : State) :
    Advances state (setArgs slots args nested state).2 (directVars args) := by
  induction args generalizing nested state with
  | nil =>
    have none_met : directVars [] = ∅ := by simp [directVars]
    rw [none_met]
    cases nested <;> exact .refl state
  | cons arg args ih =>
    cases arg with
    | var v =>
      rw [directVars_var, setArgs_var]
      exact (advances_first v state).trans (ih aligned _)
    | struct symbol inner =>
      obtain ⟨register, nested, rfl, others⟩ := exists_cons_of_aligned aligned
      rw [directVars_of_ne (by simp), setArgs_struct]
      exact ih others _
    | atom symbol | num value =>
      rw [directVars_of_ne (by simp), setArgs_constant slots rfl]
      exact ih aligned state

private theorem disciplined_setArgs (apart : vars.InjOn (slotNumber slots)) {args : List Term}
    {nested : List Nat} (aligned : nested.length = (args.filter isStructure).length)
    {state : State} (inside : ∀ v ∈ state.seen, v ∈ vars) (known : directVars args ⊆ vars)
    (held : ∀ register ∈ nested, register ∈ registers)
    (later : Disciplined shape size code registers
      (slotsOf slots (setArgs slots args nested state).2.seen) false 0) :
    Disciplined shape size ((setArgs slots args nested state).1 ++ code) registers
      (slotsOf slots state.seen) true args.length := by
  induction args generalizing nested state with
  | nil =>
    cases nested with
    | nil => exact later.between true
    | cons register nested => cases aligned
  | cons arg args ih =>
    cases arg with
    | var v =>
      rw [directVars_var, Set.union_subset_iff, Set.singleton_subset_iff] at known
      rw [setArgs_var] at later ⊢
      have rest := ih aligned
        (by simpa using fun w found ↦ found.elim (fun same ↦ same ▸ known.1) (inside w))
        known.2 held later
      rw [slotsOf_insert] at rest
      by_cases met : v ∈ state.seen
      · have filled : slotNumber slots v ∈ slotsOf slots state.seen := ⟨v, met, rfl⟩
        rw [Set.insert_eq_of_mem filled] at rest
        simp only [not_contains_eq_false met]
        exact ⟨rfl, args.length, rfl, filled, rest⟩
      · simp only [not_contains_eq_true met]
        exact ⟨rfl, args.length, rfl, slotNumber_notMem apart inside known.1 met, rest⟩
    | struct symbol inner =>
      obtain ⟨register, nested, rfl, others⟩ := exists_cons_of_aligned aligned
      rw [directVars_of_ne (by simp)] at known
      rw [setArgs_struct] at later ⊢
      exact ⟨rfl, args.length, rfl, held register List.mem_cons_self,
        ih others inside known
          (fun other member ↦ held other (List.mem_cons_of_mem _ member)) later⟩
    | atom symbol | num value =>
      rw [directVars_of_ne (by simp)] at known
      rw [setArgs_constant slots rfl] at later ⊢
      exact ⟨rfl, args.length, rfl, ih aligned inside known held later⟩

/-- Adding arguments says that they are the instances of the given ones. -/
theorem meaning_setArgs {args : List Term} {nested : List Nat} {ρ : Nat → D}
    (held : nested.map ρ = (args.filter isStructure).map (valueOf slots η)) (state : State)
    {values : List D} (same_count : values.length = args.length) :
    Meaning η ((setArgs slots args nested state).1 ++ code) ρ values goals ↔
      values = args.map (valueOf slots η) ∧ Meaning η code ρ [] goals := by
  induction args generalizing nested state values with
  | nil =>
    rw [List.length_nil, List.length_eq_zero_iff] at same_count
    subst same_count
    cases nested <;> simp [setArgs, pure_apply]
  | cons arg args ih =>
    obtain ⟨value, values, rfl⟩ : ∃ value rest, values = value :: rest :=
      List.exists_cons_of_length_eq_add_one same_count
    rw [List.length_cons, List.length_cons, Nat.add_right_cancel_iff] at same_count
    rw [List.map_cons, List.cons.injEq, and_assoc]
    cases arg with
    | var v =>
      rw [setArgs_var, ← ih held { state with seen := state.seen.insert v } same_count]
      by_cases met : v ∈ state.seen
      · simp only [not_contains_eq_false met]
        simp [Meaning, slotOf, Place.value, valueOf, slotNumber]
      · simp only [not_contains_eq_true met]
        simp [Meaning, slotOf, Place.Receives, valueOf, slotNumber, eq_comm]
    | struct symbol inner =>
      rw [List.filter_cons_of_pos rfl] at held
      cases nested with
      | nil => cases held
      | cons register nested =>
        rw [List.map_cons, List.map_cons, List.cons.injEq] at held
        rw [setArgs_struct, ← ih held.2 state same_count]
        simp [Meaning, Place.value, held.1]
    | atom symbol | num number =>
      rw [setArgs_constant slots rfl, ← ih held state same_count]
      simp [Meaning, Constant.value, valueOf]

/-! ### Structures inside a goal

Statements about a structure are proved by induction over the term; statements about the structures
among arguments take those about each of them. -/

theorem buildStructure_struct (slots : Slots) (register : Nat) (symbol : Symbol) (args : List Term)
    (state : State) :
    buildStructure slots register (.struct symbol args) state =
      let one := buildNested slots args state
      let two := setArgs slots args one.1.2 one.2
      (one.1.1 ++ .putStructure ⟨symbol, args.length⟩ register :: two.1, two.2) := by
  rw [buildStructure]
  rfl

theorem buildNested_struct (slots : Slots) (symbol : Symbol) (inner args : List Term)
    (state : State) :
    buildNested slots (.struct symbol inner :: args) state =
      let one := buildStructure slots (temp state).1 (.struct symbol inner) (temp state).2
      let two := buildNested slots args one.2
      ((one.1 ++ two.1.1, (temp state).1 :: two.1.2), two.2) := by
  rw [buildNested]
  rfl

theorem buildNested_other (slots : Slots) {arg : Term} (other : isStructure arg = false)
    (args : List Term) (state : State) :
    buildNested slots (arg :: args) state = buildNested slots args state := by
  cases arg with
  | struct symbol inner => cases other
  | atom symbol | var v | num value => rw [buildNested]

theorem length_buildNested (slots : Slots) (args : List Term) (state : State) :
    (buildNested slots args state).1.2.length = (args.filter isStructure).length := by
  induction args generalizing state with
  | nil => rw [buildNested]; rfl
  | cons arg args ih =>
    cases arg with
    | struct symbol inner =>
      rw [buildNested_struct, List.filter_cons_of_pos rfl, List.length_cons, List.length_cons, ih]
    | atom symbol | var v | num value =>
      rw [buildNested_other slots rfl, List.filter_cons_of_neg (by simp [isStructure])]
      exact ih state

private theorem advances_buildNested_of (args : List Term)
    (each : ∀ symbol inner, .struct symbol inner ∈ args → ∀ register state,
      Advances state (buildStructure slots register (.struct symbol inner) state).2
        {v | v ∈ (Term.struct symbol inner).occurrences}) (state : State) :
    Advances state (buildNested slots args state).2 (varsOf (args.filter isStructure)) := by
  induction args generalizing state with
  | nil =>
    rw [buildNested, List.filter_nil, varsOf_nil]
    exact .refl state
  | cons arg args ih =>
    have rest := ih fun symbol inner member ↦ each symbol inner (List.mem_cons_of_mem _ member)
    cases arg with
    | struct symbol inner =>
      rw [buildNested_struct, List.filter_cons_of_pos rfl, varsOf_cons,
        ← Set.empty_union ({v | _} ∪ _)]
      exact (advances_temp state).trans
        ((each symbol inner List.mem_cons_self _ _).trans (rest _))
    | atom symbol | var v | num value =>
      rw [buildNested_other slots rfl, List.filter_cons_of_neg (by simp [isStructure])]
      exact rest state

theorem advances_buildStructure (slots : Slots) (register : Nat) (symbol : Symbol)
    (args : List Term) (state : State) :
    Advances state (buildStructure slots register (.struct symbol args) state).2
      {v | v ∈ (Term.struct symbol args).occurrences} := by
  generalize whole : Term.struct symbol args = term
  induction term generalizing symbol args register state with
  | struct symbol args ih =>
    cases whole
    have nested := advances_buildNested_of args
      (fun symbol inner member register state ↦ ih _ member register symbol inner state rfl) state
    have set := advances_setArgs slots args (length_buildNested slots args state)
      (buildNested slots args state).2
    have occur : {v | v ∈ (Term.struct symbol args).occurrences} =
        varsOf (args.filter isStructure) ∪ directVars args := by
      rw [Set.union_comm, ← varsOf_eq]
      ext v
      simp [varsOf]
    rw [buildStructure_struct, occur]
    exact nested.trans set
  | atom _ | var _ | num _ => cases whole

theorem advances_buildNested (slots : Slots) (args : List Term) (state : State) :
    Advances state (buildNested slots args state).2 (varsOf (args.filter isStructure)) :=
  advances_buildNested_of args
    (fun symbol inner _ register state ↦ advances_buildStructure slots register symbol inner state)
    state

private theorem disciplined_buildNested {args : List Term}
    (known : ∀ arg ∈ args, ∀ v ∈ arg.occurrences, v ∈ vars)
    (each : ∀ symbol inner, .struct symbol inner ∈ args → ∀ register state code registers,
      (∀ v ∈ state.seen, v ∈ vars) →
      Disciplined shape size code (insert register registers)
        (slotsOf slots (buildStructure slots register (.struct symbol inner) state).2.seen)
        false 0 →
      Disciplined shape size
        ((buildStructure slots register (.struct symbol inner) state).1 ++ code) registers
        (slotsOf slots state.seen) false 0)
    {state : State} (inside : ∀ v ∈ state.seen, v ∈ vars)
    (later : Disciplined shape size code
      (registers ∪ {register | register ∈ (buildNested slots args state).1.2})
      (slotsOf slots (buildNested slots args state).2.seen) false 0) :
    Disciplined shape size ((buildNested slots args state).1.1 ++ code) registers
      (slotsOf slots state.seen) false 0 := by
  induction args generalizing state registers with
  | nil =>
    have none_nested : {register | register ∈ (buildNested slots [] state).1.2} =
      (∅ : Set Nat) := by
      rw [buildNested]
      simp [pure_apply]
    rw [none_nested, Set.union_empty] at later
    rw [buildNested] at later ⊢
    exact later
  | cons arg args ih =>
    have rest {registers : Set Nat} := @ih registers
      (fun arg member ↦ known arg (List.mem_cons_of_mem _ member))
      (fun symbol inner member ↦ each symbol inner (List.mem_cons_of_mem _ member))
    cases arg with
    | struct symbol inner =>
      rw [buildNested_struct] at later ⊢
      rw [List.append_assoc]
      have advances := advances_buildStructure slots (temp state).1 symbol inner (temp state).2
      refine each symbol inner List.mem_cons_self _ _ _ _ inside (rest ?_ ?_)
      · intro v found
        exact ((advances.seen v).1 found).elim (inside v) (known _ List.mem_cons_self v)
      · refine later.mono ?_
        rintro register (older | inner)
        · exact .inl (.inr older)
        · exact (List.mem_cons.1 inner).elim (fun own ↦ .inl (.inl own)) .inr
    | atom symbol | var v | num value =>
      rw [buildNested_other slots rfl] at later ⊢
      exact rest inside later

private theorem disciplined_buildStructure (apart : vars.InjOn (slotNumber slots)) {register : Nat}
    {symbol : Symbol} {args : List Term} {state : State} (inside : ∀ v ∈ state.seen, v ∈ vars)
    (known : ∀ v ∈ (Term.struct symbol args).occurrences, v ∈ vars)
    (kinds : (Term.struct symbol args).AllFunctors shape.admits)
    (later : Disciplined shape size code (insert register registers)
      (slotsOf slots (buildStructure slots register (.struct symbol args) state).2.seen) false 0) :
    Disciplined shape size
      ((buildStructure slots register (.struct symbol args) state).1 ++ code) registers
      (slotsOf slots state.seen) false 0 := by
  generalize whole : Term.struct symbol args = term at known kinds
  induction term generalizing symbol args register state code registers with
  | struct symbol args ih =>
    cases whole
    obtain ⟨kind, kinds⟩ := Term.allFunctors_struct.1 kinds
    have known_args (arg : Term) (member : arg ∈ args) : ∀ v ∈ arg.occurrences, v ∈ vars :=
      fun v occurs ↦ known v (Term.mem_occurrences_struct.2 ⟨arg, member, occurs⟩)
    have nested := advances_buildNested slots args state
    rw [buildStructure_struct] at later ⊢
    rw [List.append_assoc]
    refine disciplined_buildNested known_args
      (fun symbol inner member register state code registers inside later ↦
        ih _ member inside later rfl (known_args _ member) (kinds _ member)) inside ?_
    refine ⟨rfl, kind, ?_⟩
    refine disciplined_setArgs apart (length_buildNested slots args state) ?_ ?_ ?_
      (later.mono (Set.insert_subset_insert Set.subset_union_left))
    · intro v found
      refine ((nested.seen v).1 found).elim (inside v) ?_
      rintro ⟨arg, member, occurs⟩
      exact known_args arg (List.mem_filter.1 member).1 v occurs
    · intro v direct
      exact known_args _ direct v (by simp)
    · exact fun register member ↦ .inr (.inr member)
  | atom _ | var _ | num _ => cases whole

/-- Code that only changes registers: what is said after it is said of the changed ones. -/
def Changes (η : Nat → D) (code : Code) (change : (Nat → D) → Nat → D) : Prop :=
  ∀ rest ρ goals, Meaning η (code ++ rest) ρ [] goals ↔ Meaning η rest (change ρ) [] goals

theorem Changes.append {first second : Code} {change next : (Nat → D) → Nat → D}
    (one : Changes η first change) (two : Changes η second next) :
    Changes η (first ++ second) (next ∘ change) := by
  intro rest ρ goals
  rw [List.append_assoc, one, two, Function.comp_apply]

private theorem register_buildNested {args : List Term} {state : State}
    (enough : (buildNested slots args state).2.used ≤ maxRegister) :
    ∀ register ∈ (buildNested slots args state).1.2,
      state.nextTemp ≤ register ∧ register < (buildNested slots args state).2.nextTemp := by
  induction args generalizing state with
  | nil =>
    rw [buildNested]
    exact fun register member ↦ absurd member List.not_mem_nil
  | cons arg args ih =>
    cases arg with
    | struct symbol inner =>
      rw [buildNested_struct] at enough ⊢
      have one := advances_buildStructure slots (temp state).1 symbol inner (temp state).2
      have two := advances_buildNested slots args
        (buildStructure slots (temp state).1 (.struct symbol inner) (temp state).2).2
      have taken : state.nextTemp < (temp state).2.nextTemp := Nat.lt_succ_self _
      intro register member
      rcases List.mem_cons.1 member with rfl | inside
      · rw [temp_eq (Nat.le_trans one.used (Nat.le_trans two.used enough))]
        exact ⟨Nat.le_refl _, Nat.lt_of_lt_of_le taken (Nat.le_trans one.temps two.temps)⟩
      · obtain ⟨lower, upper⟩ := ih enough register inside
        exact ⟨Nat.le_trans (Nat.le_of_lt taken) (Nat.le_trans one.temps lower), upper⟩
    | atom symbol | var v | num value =>
      rw [buildNested_other slots rfl] at enough ⊢
      exact ih enough

/-- A structure is built in its register; of the other registers only later temporary ones are
changed. -/
def BuildsStructure (slots : Slots) (η : Nat → D) (term : Term) : Prop :=
  ∀ register state, (buildStructure slots register term state).2.used ≤ maxRegister →
    register < state.nextTemp →
    ∃ change, Changes η (buildStructure slots register term state).1 change ∧
      ∀ ρ, change ρ register = valueOf slots η term ∧
        ∀ index < state.nextTemp, index ≠ register → change ρ index = ρ index

private theorem changes_buildNested {args : List Term}
    (each : ∀ symbol inner, .struct symbol inner ∈ args →
      BuildsStructure slots η (.struct symbol inner))
    {state : State} (enough : (buildNested slots args state).2.used ≤ maxRegister) :
    ∃ change, Changes η (buildNested slots args state).1.1 change ∧
      ∀ ρ, (buildNested slots args state).1.2.map (change ρ) =
          (args.filter isStructure).map (valueOf slots η) ∧
        ∀ index < state.nextTemp, change ρ index = ρ index := by
  induction args generalizing state with
  | nil =>
    rw [buildNested]
    exact ⟨id, fun _ _ _ ↦ Iff.rfl, fun _ ↦ ⟨rfl, fun _ _ ↦ rfl⟩⟩
  | cons arg args ih =>
    have rest := @ih
      fun symbol inner member ↦ each symbol inner (List.mem_cons_of_mem _ member)
    cases arg with
    | struct symbol inner =>
      rw [buildNested_struct] at enough ⊢
      have one := advances_buildStructure slots (temp state).1 symbol inner (temp state).2
      have two := advances_buildNested slots args
        (buildStructure slots (temp state).1 (.struct symbol inner) (temp state).2).2
      have register := temp_eq (Nat.le_trans one.used (Nat.le_trans two.used enough))
      have taken : (temp state).2.nextTemp = state.nextTemp + 1 := rfl
      obtain ⟨build, builds, built⟩ := each symbol inner List.mem_cons_self _ (temp state).2
        (Nat.le_trans two.used enough) (by omega)
      obtain ⟨change, changes, changed⟩ := rest enough
      refine ⟨change ∘ build, builds.append changes, fun ρ ↦ ⟨?_, fun index lower ↦ ?_⟩⟩
      · have kept := (changed (build ρ)).2 (temp state).1
          (Nat.lt_of_lt_of_le (by omega) one.temps)
        rw [List.filter_cons_of_pos rfl, List.map_cons, List.map_cons, Function.comp_apply,
          (changed (build ρ)).1, kept, (built ρ).1]
      · rw [Function.comp_apply,
          (changed (build ρ)).2 index (Nat.lt_of_lt_of_le (by omega) one.temps),
          (built ρ).2 index (by omega) (by omega)]
    | atom symbol | var v | num value =>
      rw [buildNested_other slots rfl] at enough ⊢
      rw [List.filter_cons_of_neg (by simp [isStructure])]
      exact rest enough

private theorem buildsStructure (slots : Slots) (η : Nat → D) (symbol : Symbol) (args : List Term) :
    BuildsStructure slots η (.struct symbol args) := by
  generalize whole : Term.struct symbol args = term
  induction term generalizing symbol args with
  | struct symbol args ih =>
    cases whole
    intro register state enough lower
    rw [buildStructure_struct] at enough ⊢
    have set := advances_setArgs slots args (length_buildNested slots args state)
      (buildNested slots args state).2
    have covered := Nat.le_trans set.used enough
    obtain ⟨change, changes, changed⟩ := changes_buildNested
      (fun symbol inner member ↦ ih _ member symbol inner rfl) covered
    rw [valueOf_struct]
    refine ⟨fun ρ ↦ update (change ρ) register
        (Domain.struct symbol (args.map (valueOf slots η))),
      fun rest ρ goals ↦ ?_, fun ρ ↦ ⟨Function.update_self .., fun index below apart ↦ ?_⟩⟩
    · -- The structure's own register is below those of the structures inside it.
      have held (value : D) : (buildNested slots args state).1.2.map
          (update (change ρ) register value) =
            (args.filter isStructure).map (valueOf slots η) := by
        rw [← (changed ρ).1]
        refine List.map_congr_left fun other member ↦ Function.update_of_ne ?_ _ _
        have above := (register_buildNested covered other member).1
        omega
      rw [List.append_assoc, changes, List.cons_append, Meaning]
      constructor
      · rintro ⟨values, same_count, meaning⟩
        obtain ⟨rfl, later⟩ := (meaning_setArgs (held _) _ same_count).1 meaning
        exact later
      · intro later
        exact ⟨args.map (valueOf slots η), by simp,
          (meaning_setArgs (held _) _ (by simp)).2 ⟨rfl, later⟩⟩
    · exact (Function.update_of_ne apart _ _).trans ((changed ρ).2 index below)
  | atom _ | var _ | num _ => cases whole

/-! ### Goals -/

theorem goalArg_var (slots : Slots) (register : Nat) (v : Var) (state : State) :
    goalArg slots register (.var v) state =
      ([if !state.seen.contains v then .putVariable (slotOf slots v) register
        else .putValue (slotOf slots v) register],
        { state with seen := state.seen.insert v }) := rfl

theorem goalArg_constant (slots : Slots) (register : Nat) {arg : Term} {constant : Constant}
    (is_constant : arg.constant? = some constant) (state : State) :
    goalArg slots register arg state = ([.putConstant constant register], state) := by
  cases arg with
  | atom symbol | num value =>
    cases is_constant
    rfl
  | var v | struct symbol inner => cases is_constant

theorem advances_goalArg (slots : Slots) (register : Nat) (arg : Term) (state : State) :
    Advances state (goalArg slots register arg state).2 {v | v ∈ arg.occurrences} := by
  cases arg with
  | var v =>
    have single : {w | w ∈ (Term.var v).occurrences} = ({v} : Set Var) := by
      ext w
      simp
    rw [single]
    exact advances_first v state
  | struct symbol args => exact advances_buildStructure slots register symbol args state
  | atom symbol | num value =>
    rw [goalArg_constant slots register rfl]
    exact ⟨Nat.le_refl _, Nat.le_refl _, by simp⟩

private theorem disciplined_goalArg (apart : vars.InjOn (slotNumber slots)) {register : Nat}
    {arg : Term}
    {state : State} (inside : ∀ v ∈ state.seen, v ∈ vars) (known : ∀ v ∈ arg.occurrences, v ∈ vars)
    (kinds : arg.AllFunctors shape.admits)
    (later : Disciplined shape size code (insert register registers)
      (slotsOf slots (goalArg slots register arg state).2.seen) false 0) :
    Disciplined shape size ((goalArg slots register arg state).1 ++ code) registers
      (slotsOf slots state.seen) false 0 := by
  cases arg with
  | var v =>
    rw [goalArg_var, slotsOf_insert] at later
    have known := known v (by simp)
    rw [goalArg_var]
    by_cases met : v ∈ state.seen
    · have filled : slotNumber slots v ∈ slotsOf slots state.seen := ⟨v, met, rfl⟩
      rw [Set.insert_eq_of_mem filled] at later
      simp only [not_contains_eq_false met]
      exact ⟨rfl, filled, later⟩
    · simp only [not_contains_eq_true met]
      exact ⟨rfl, slotNumber_notMem apart inside known met, later⟩
  | struct symbol args => exact disciplined_buildStructure apart inside known kinds later
  | atom symbol | num value =>
    rw [goalArg_constant slots register rfl] at later ⊢
    exact ⟨rfl, later⟩

private theorem changes_goalArg {register : Nat} {arg : Term} {state : State}
    (enough : (goalArg slots register arg state).2.used ≤ maxRegister)
    (lower : register < state.nextTemp) :
    ∃ change, Changes η (goalArg slots register arg state).1 change ∧
      ∀ ρ, change ρ register = valueOf slots η arg ∧
        ∀ index < state.nextTemp, index ≠ register → change ρ index = ρ index := by
  have put {code : Code} (value : D) (same : value = valueOf slots η arg)
      (changes : Changes η code fun ρ ↦ update ρ register value) :
      ∃ change, Changes η code change ∧ ∀ ρ, change ρ register = valueOf slots η arg ∧
        ∀ index < state.nextTemp, index ≠ register → change ρ index = ρ index :=
    ⟨_, changes, fun ρ ↦ ⟨by rw [Function.update_self, same],
      fun index _ apart ↦ Function.update_of_ne apart _ _⟩⟩
  cases arg with
  | var v =>
    rw [goalArg_var]
    refine put (η (slotNumber slots v)) (by simp [valueOf]) fun rest ρ goals ↦ ?_
    by_cases met : v ∈ state.seen
    · simp only [not_contains_eq_false met]
      exact Iff.rfl
    · simp only [not_contains_eq_true met]
      simp [Meaning, slotOf, Place.Receives, slotNumber]
  | struct symbol args => exact buildsStructure slots η symbol args register state enough lower
  | atom symbol =>
    rw [goalArg_constant slots register rfl]
    exact put (Domain.atom symbol) (by simp [valueOf]) fun rest ρ goals ↦ Iff.rfl
  | num value =>
    rw [goalArg_constant slots register rfl]
    exact put (Domain.num value) (by simp [valueOf]) fun rest ρ goals ↦ Iff.rfl

theorem goalArgs_cons (slots : Slots) (register : Nat) (arg : Term) (args : List Term)
    (state : State) :
    goalArgs slots register (arg :: args) state =
      let one := goalArg slots register arg state
      let two := goalArgs slots (register + 1) args one.2
      (one.1 ++ two.1, two.2) := rfl

theorem advances_goalArgs (slots : Slots) (register : Nat) (args : List Term) (state : State) :
    Advances state (goalArgs slots register args state).2 (varsOf args) := by
  induction args generalizing register state with
  | nil => exact varsOf_nil ▸ .refl state
  | cons arg args ih =>
    rw [varsOf_cons]
    exact (advances_goalArg slots register arg state).trans (ih _ _)

theorem disciplined_goalArgs (apart : vars.InjOn (slotNumber slots)) {register : Nat}
    {args : List Term} {state : State} (inside : ∀ v ∈ state.seen, v ∈ vars)
    (known : varsOf args ⊆ vars) (kinds : ∀ arg ∈ args, arg.AllFunctors shape.admits)
    (later : Disciplined shape size code {index | index < register + args.length}
      (slotsOf slots (goalArgs slots register args state).2.seen) false 0) :
    Disciplined shape size ((goalArgs slots register args state).1 ++ code)
      {index | index < register} (slotsOf slots state.seen) false 0 := by
  induction args generalizing register state with
  | nil => exact later
  | cons arg args ih =>
    rw [varsOf_cons, Set.union_subset_iff] at known
    rw [List.length_cons, ← Nat.succ_add_eq_add_succ] at later
    rw [goalArgs_cons] at later ⊢
    have one := advances_goalArg slots register arg state
    rw [List.append_assoc]
    refine disciplined_goalArg apart inside known.1 (kinds arg List.mem_cons_self) ?_
    refine Disciplined.mono (ih ?_ known.2
      (fun other member ↦ kinds other (List.mem_cons_of_mem _ member)) later) ?_
    · exact fun v found ↦ ((one.seen v).1 found).elim (inside v) fun direct ↦ known.1 direct
    · intro index lower
      exact (Nat.lt_succ_iff_lt_or_eq.1 lower).elim .inr .inl

/-- Building goal arguments puts their instances in the registers. -/
theorem changes_goalArgs {register : Nat} {args : List Term} {state : State}
    (enough : (goalArgs slots register args state).2.used ≤ maxRegister)
    (lower : register + args.length ≤ state.nextTemp) :
    ∃ change, Changes η (goalArgs slots register args state).1 change ∧
      ∀ ρ, (List.range' register args.length).map (change ρ) = args.map (valueOf slots η) ∧
        ∀ index < register, change ρ index = ρ index := by
  induction args generalizing register state with
  | nil => exact ⟨id, fun _ _ _ ↦ Iff.rfl, fun _ ↦ ⟨rfl, fun _ _ ↦ rfl⟩⟩
  | cons arg args ih =>
    rw [List.length_cons] at lower
    rw [goalArgs_cons] at enough ⊢
    have one := advances_goalArg slots register arg state
    have two := advances_goalArgs slots (register + 1) args (goalArg slots register arg state).2
    obtain ⟨first, builds, built⟩ := changes_goalArg (η := η)
      (Nat.le_trans two.used enough) (by omega)
    obtain ⟨change, changes, changed⟩ := ih enough
      (Nat.le_trans (by omega) one.temps)
    refine ⟨change ∘ first, builds.append changes, fun ρ ↦ ⟨?_, fun index below ↦ ?_⟩⟩
    · rw [Function.comp_apply, List.length_cons, List.range'_succ, List.map_cons, List.map_cons,
        (changed (first ρ)).1, (changed (first ρ)).2 register (by omega), (built ρ).1]
    · rw [Function.comp_apply, (changed (first ρ)).2 index (by omega),
        (built ρ).2 index (by omega) (by omega)]

end Goal

/-! ### Code that builds -/

section Building

variable {slots : Slots}

private theorem building_setArgs (args : List Term) (nested : List Nat) (state : State) :
    ∀ instruction ∈ (setArgs slots args nested state).1, instruction.Building := by
  induction args generalizing nested state with
  | nil => cases nested <;> exact List.forall_mem_nil _
  | cons arg args ih =>
    cases arg with
    | var v =>
      rw [setArgs_var]
      refine List.forall_mem_cons.2 ⟨?_, ih _ _⟩
      split <;> trivial
    | struct symbol inner =>
      cases nested with
      | nil => exact ih [] state
      | cons register nested =>
        rw [setArgs_struct]
        exact List.forall_mem_cons.2 ⟨trivial, ih _ _⟩
    | atom symbol | num value =>
      rw [setArgs_constant slots rfl]
      exact List.forall_mem_cons.2 ⟨trivial, ih _ _⟩

private theorem building_buildNested {args : List Term}
    (each : ∀ symbol inner, .struct symbol inner ∈ args → ∀ register state,
      ∀ instruction ∈ (buildStructure slots register (.struct symbol inner) state).1,
        instruction.Building)
    (state : State) : ∀ instruction ∈ (buildNested slots args state).1.1, instruction.Building := by
  induction args generalizing state with
  | nil =>
    rw [buildNested]
    exact List.forall_mem_nil _
  | cons arg args ih =>
    have rest := ih fun symbol inner member ↦ each symbol inner (List.mem_cons_of_mem _ member)
    cases arg with
    | struct symbol inner =>
      rw [buildNested_struct]
      exact List.forall_mem_append.2 ⟨each symbol inner List.mem_cons_self _ _, rest _⟩
    | atom symbol | var v | num value =>
      rw [buildNested_other slots rfl]
      exact rest state

private theorem building_buildStructure (register : Nat) (term : Term) (state : State) :
    ∀ instruction ∈ (buildStructure slots register term state).1, instruction.Building := by
  induction term generalizing register state with
  | struct symbol args ih =>
    rw [buildStructure_struct]
    exact List.forall_mem_append.2
      ⟨building_buildNested (fun symbol inner member register state ↦
        ih _ member register state) state, List.forall_mem_cons.2 ⟨trivial, building_setArgs _ _ _⟩⟩
  | atom symbol | var v | num value =>
    rw [buildStructure]
    exact List.forall_mem_nil _

private theorem building_goalArg (register : Nat) (arg : Term) (state : State) :
    ∀ instruction ∈ (goalArg slots register arg state).1, instruction.Building := by
  cases arg with
  | var v =>
    rw [goalArg_var]
    refine List.forall_mem_singleton.2 ?_
    split <;> trivial
  | struct symbol args => exact building_buildStructure register _ state
  | atom symbol | num value =>
    rw [goalArg_constant slots register rfl]
    exact List.forall_mem_singleton.2 trivial

theorem building_goalArgs (register : Nat) (args : List Term) (state : State) :
    ∀ instruction ∈ (goalArgs slots register args state).1, instruction.Building := by
  induction args generalizing register state with
  | nil => exact List.forall_mem_nil _
  | cons arg args ih =>
    rw [goalArgs_cons]
    exact List.forall_mem_append.2 ⟨building_goalArg register arg state, ih _ _⟩

end Building

end Emit
end HornMachine
