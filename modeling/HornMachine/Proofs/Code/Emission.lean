import HornMachine.Proofs.Code.Meaning

/-!
# The state of emitting code

While code is emitted, temporary registers count upwards and the variables met are noted. What a
piece of code does to this state is stated once for each kind of piece: `Advances` for code that
goes on taking registers, `Covers` for code that begins with the registers anew.
-/

namespace HornMachine.Emit

theorem pure_apply {α : Type} (value : α) (state : State) :
    (pure value : Emit α) state = (value, state) := rfl

/-- Number of a variable's slot. -/
def slotNumber (slots : Slots) (v : Var) : Nat := slots.getD v 0

variable {D : Type} [Domain D]

/-- The value of a term with what the slots hold for its variables. -/
def valueOf (slots : Slots) (η : Nat → D) (term : Term) : D :=
  term.eval fun v ↦ η (slotNumber slots v)

theorem valueOf_struct (slots : Slots) (η : Nat → D) (symbol : Symbol) (args : List Term) :
    valueOf slots η (.struct symbol args) = Domain.struct symbol (args.map (valueOf slots η)) :=
  Term.eval_struct ..

/-- The slots of variables. -/
def slotsOf (slots : Slots) (seen : Std.TreeSet Var) : Set Nat :=
  {index | ∃ v ∈ seen, slotNumber slots v = index}

@[simp]
theorem slotsOf_insert (slots : Slots) (seen : Std.TreeSet Var) (v : Var) :
    slotsOf slots (seen.insert v) = insert (slotNumber slots v) (slotsOf slots seen) := by
  ext index
  simp only [slotsOf, Std.TreeSet.mem_insert, Std.LawfulEqCmp.compare_eq_iff_eq, Set.mem_ofPred_eq,
    Set.mem_insert_iff]
  constructor
  · rintro ⟨w, rfl | member, same⟩
    · exact .inl same.symm
    · exact .inr ⟨w, member, same⟩
  · rintro (rfl | ⟨w, member, same⟩)
    · exact ⟨v, .inl rfl, rfl⟩
    · exact ⟨w, .inr member, same⟩

/-- How emitting code changes the state: registers are only added, and the given variables are
seen. -/
structure Advances (before after : State) (vars : Set Var) : Prop where
  temps : before.nextTemp ≤ after.nextTemp
  used : before.used ≤ after.used
  seen : ∀ v, v ∈ after.seen ↔ v ∈ before.seen ∨ v ∈ vars

theorem Advances.refl (state : State) : Advances state state ∅ :=
  ⟨Nat.le_refl _, Nat.le_refl _, by simp⟩

theorem Advances.trans {first second third : State} {vars more : Set Var}
    (one : Advances first second vars) (two : Advances second third more) :
    Advances first third (vars ∪ more) := by
  refine ⟨Nat.le_trans one.temps two.temps, Nat.le_trans one.used two.used, fun v ↦ ?_⟩
  rw [two.seen, one.seen, Set.mem_union, or_assoc]

/-- The variables of terms. -/
def varsOf (terms : List Term) : Set Var := {v | ∃ term ∈ terms, v ∈ term.occurrences}

@[simp]
theorem varsOf_nil : varsOf [] = ∅ := by
  ext v
  simp [varsOf]

@[simp]
theorem varsOf_cons (term : Term) (terms : List Term) :
    varsOf (term :: terms) = {v | v ∈ term.occurrences} ∪ varsOf terms := by
  ext v
  simp [varsOf]

theorem temp_eq {state : State} (enough : (temp state).2.used ≤ maxRegister) :
    (temp state).1 = state.nextTemp := by
  have covered : state.nextTemp + 1 ≤ (temp state).2.used := Nat.le_max_right _ _
  exact Nat.min_eq_left (by omega)

theorem advances_temp (state : State) : Advances state (temp state).2 ∅ :=
  ⟨Nat.le_succ _, Nat.le_max_left _ _, by simp [temp]⟩

theorem advances_first (v : Var) (state : State) : Advances state (first v state).2 {v} := by
  refine ⟨Nat.le_refl _, Nat.le_refl _, fun w ↦ ?_⟩
  simp only [first, Std.TreeSet.mem_insert, Std.LawfulEqCmp.compare_eq_iff_eq,
    Set.mem_singleton_iff]
  rw [or_comm, eq_comm]

/-- A variable met for the first time has a slot that is not filled yet. -/
theorem slotNumber_notMem {slots : Slots} {vars : Set Var} (apart : vars.InjOn (slotNumber slots))
    {seen : Std.TreeSet Var} (inside : ∀ w ∈ seen, w ∈ vars) {v : Var} (known : v ∈ vars)
    (fresh : v ∉ seen) : slotNumber slots v ∉ slotsOf slots seen := by
  rintro ⟨w, member, same⟩
  rw [apart (inside w member) known same] at member
  exact fresh member

/-- A variable that was met before is not new. -/
theorem not_contains_eq_false {seen : Std.TreeSet Var} {v : Var} (met : v ∈ seen) :
    (!seen.contains v) = false := by
  rw [Std.TreeSet.contains_iff_mem.2 met, Bool.not_true]

/-- A variable that was not met before is new. -/
theorem not_contains_eq_true {seen : Std.TreeSet Var} {v : Var} (new : v ∉ seen) :
    (!seen.contains v) = true := by
  rw [Bool.not_eq_true', Bool.eq_false_iff, ne_eq, Std.TreeSet.contains_iff_mem]
  exact new

/-! ### Arguments -/

/-- Whether a term is a structure. -/
def isStructure : Term → Bool
  | .struct _ _ => true
  | .atom _ | .var _ | .num _ => false

/-- Where there is one register for each structure among arguments, the first is that of the first
structure. -/
theorem exists_cons_of_aligned {symbol : Symbol} {inner args : List Term} {nested : List Nat}
    (aligned : nested.length = ((Term.struct symbol inner :: args).filter isStructure).length) :
    ∃ register rest, nested = register :: rest ∧
    rest.length = (args.filter isStructure).length := by
  rw [List.filter_cons_of_pos rfl, List.length_cons] at aligned
  obtain ⟨register, rest, rfl⟩ := List.exists_cons_of_length_eq_add_one aligned
  exact ⟨register, rest, rfl, Nat.succ.inj aligned⟩

/-- Variables that are among the arguments themselves. -/
def directVars (args : List Term) : Set Var := {v | Term.var v ∈ args}

theorem directVars_var (v : Var) (args : List Term) :
    directVars (.var v :: args) = {v} ∪ directVars args := by
  ext w
  simp [directVars]

theorem directVars_of_ne {arg : Term} (other : ∀ v, arg ≠ .var v) (args : List Term) :
    directVars (arg :: args) = directVars args := by
  ext w
  simp [directVars, (other w).symm]

/-- The variables of arguments are met among them or inside the structures among them. -/
theorem varsOf_eq (args : List Term) :
    varsOf args = directVars args ∪ varsOf (args.filter isStructure) := by
  induction args with
  | nil =>
    ext v
    simp [directVars]
  | cons arg args ih =>
    ext v
    cases arg with
    | var w => simp [isStructure, directVars_var, ih, or_assoc]
    | struct symbol inner =>
      rw [List.filter_cons_of_pos rfl, directVars_of_ne (by simp), varsOf_cons, varsOf_cons, ih,
        Set.union_left_comm]
    | atom symbol | num value => simp [isStructure, directVars_of_ne, ih]

theorem structuresList_eq (args : List Term) :
    Term.structuresList args = Term.structuresList (args.filter isStructure) := by
  induction args with
  | nil => rfl
  | cons arg args ih =>
    cases arg with
    | struct symbol inner =>
      rw [List.filter_cons_of_pos rfl, Term.structuresList, Term.structuresList, ih]
    | atom symbol | var v | num value =>
      simp [isStructure, Term.structuresList, Term.structures, ih]

/-! ### Beginning anew -/

/-- What code for the arguments of the head or of a goal does to the state: the temporary registers
are taken anew for each of them. -/
structure Covers (before after : State) (vars : Set Var) : Prop where
  /-- The number of registers used covers those used before. -/
  used : before.used ≤ after.used
  seen : ∀ v, v ∈ after.seen ↔ v ∈ before.seen ∨ v ∈ vars

theorem Covers.trans {first second third : State} {vars more : Set Var}
    (one : Covers first second vars) (two : Covers second third more) :
    Covers first third (vars ∪ more) := by
  refine ⟨Nat.le_trans one.used two.used, fun v ↦ ?_⟩
  rw [two.seen, one.seen, Set.mem_union, or_assoc]

theorem Advances.covers {before after : State} {vars : Set Var} {top : Nat}
    (advances : Advances { before with nextTemp := top } after vars) : Covers before after vars :=
  ⟨advances.used, advances.seen⟩

theorem Covers.refl (state : State) : Covers state state ∅ := ⟨Nat.le_refl _, by simp⟩

end HornMachine.Emit
