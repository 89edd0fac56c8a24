import HornMachine.Proofs.Code.Compile

/-!
# How many registers a rule needs

The arguments of the head and of the goals are in the first registers, as many as the widest of them
has arguments. The structures inside an argument are put in temporary registers above these: the
head takes them anew for each of its arguments, a goal once for all of them. Main statement: the
number of registers that the code of a rule uses is told from its terms (`Rule.used_emit`).
-/

namespace HornMachine

/-- Number of structures strictly inside a structure; other terms have none inside. -/
def Term.inner (term : Term) : Nat := Term.structuresList term.args

/-- Number of structures strictly inside terms, one after another. -/
def Term.innerTotal (terms : List Term) : Nat := (terms.map inner).foldr (· + ·) 0

/-- The largest of some numbers, or zero if there are none. -/
def largest (numbers : List Nat) : Nat := numbers.foldr max 0

@[simp]
theorem largest_nil : largest [] = 0 := rfl

@[simp]
theorem largest_cons (number : Nat) (numbers : List Nat) :
    largest (number :: numbers) = max number (largest numbers) := rfl

@[simp]
theorem Term.innerTotal_nil : innerTotal [] = 0 := rfl

@[simp]
theorem Term.innerTotal_cons (term : Term) (terms : List Term) :
    innerTotal (term :: terms) = term.inner + innerTotal terms := rfl

namespace Rule

/-- The goals before the first `false`. -/
def goalsBeforeFalse (rule : Rule) (symbols : SymbolTable) : List Term :=
  rule.body.takeWhile fun goal ↦ !isFalse symbols goal

/-- The largest number of arguments of the head and the goals. -/
def width (rule : Rule) : Nat := largest ((rule.head :: rule.body).map Term.arity)

/-- Number of temporary registers that are needed at once: for one argument of the head, or for all
arguments of a goal before the first `false`. -/
def temporaries (rule : Rule) (symbols : SymbolTable) : Nat :=
  max (largest (rule.head.args.map Term.inner))
    (largest ((rule.goalsBeforeFalse symbols).map fun goal ↦ Term.innerTotal goal.args))

/-- Number of registers that a rule needs. -/
def registerNeed (rule : Rule) (symbols : SymbolTable) : Nat :=
  rule.width + rule.temporaries symbols

end Rule

namespace Emit

open Rule (Goal bodyCode reached)

variable (slots : Slots)

/-- What a piece of code that takes `count` temporary registers does to the state. -/
structure Takes (before after : State) (count : Nat) : Prop where
  temps : after.nextTemp = before.nextTemp + count
  used : before.nextTemp ≤ before.used → after.used = max before.used after.nextTemp

theorem Takes.refl (state : State) : Takes state state 0 :=
  ⟨rfl, fun covered ↦ (Nat.max_eq_left covered).symm⟩

theorem Takes.trans {first second third : State} {count more : Nat} (one : Takes first second count)
    (two : Takes second third more) : Takes first third (count + more) := by
  have temps := one.temps
  have further := two.temps
  refine ⟨by omega, ?_⟩
  intro covered
  have used := one.used covered
  have last := two.used (by omega)
  omega

private theorem takes_temp (state : State) : Takes state (temp state).2 1 := ⟨rfl, fun _ ↦ rfl⟩

private theorem takes_first (v : Var) (state : State) : Takes state (first v state).2 0 :=
  ⟨rfl, fun covered ↦ (Nat.max_eq_left covered).symm⟩

/-! ### Heads -/

/-- Each structure left to be matched is in a register of its own. -/
theorem takes_matchArgs (args : List Term) (state : State) :
    Takes state (matchArgs slots args state).2 (matchArgs slots args state).1.2.length := by
  induction args generalizing state with
  | nil => exact .refl state
  | cons arg args ih =>
    cases arg with
    | var v =>
      rw [matchArgs_var, ← Nat.zero_add (List.length _)]
      exact (takes_first v state).trans (ih _)
    | struct symbol inner =>
      rw [matchArgs_struct, List.length_cons, Nat.add_comm]
      exact (takes_temp state).trans (ih _)
    | atom symbol | num value =>
      rw [matchArgs_constant slots rfl]
      exact ih state

theorem takes_matchLevel (level : List Pending) (state : State) :
    Takes state (matchLevel slots level state).2 (matchLevel slots level state).1.2.length := by
  induction level generalizing state with
  | nil => exact .refl state
  | cons pending rest ih =>
    rw [matchLevel_cons, List.length_append]
    exact (takes_matchArgs slots pending.args state).trans (ih _)

/-- All structures but those of the level itself are put in registers. -/
theorem takes_matchLevels {limit : Nat} {level : List Pending} (deep : weight level ≤ limit)
    (state : State) :
    Takes state (matchLevels slots limit level state).2 (weight level - level.length) := by
  induction limit generalizing level state with
  | zero =>
    obtain rfl := eq_nil_of_weight_le deep
    exact .refl state
  | succ limit ih =>
    cases level with
    | nil => exact .refl state
    | cons first rest =>
      have fewer := weight_matchLevel slots (first :: rest) state
      have few := length_le_weight (matchLevel slots (first :: rest) state).1.2
      have positive : 0 < (first :: rest).length := Nat.succ_pos _
      have count : weight (first :: rest) - (first :: rest).length =
          (matchLevel slots (first :: rest) state).1.2.length +
            (weight (matchLevel slots (first :: rest) state).1.2 -
              (matchLevel slots (first :: rest) state).1.2.length) := by
        omega
      rw [count, matchLevels_cons]
      exact (takes_matchLevel slots (first :: rest) state).trans
        (ih (weight_matchLevel_le deep state) _)

theorem takes_headArg (base register : Nat) (arg : Term) (state : State) :
    Takes { state with nextTemp := base } (headArg slots base register arg state).2 arg.inner := by
  cases arg with
  | var v => exact takes_first v { state with nextTemp := base }
  | struct symbol args =>
    have single : weight [⟨symbol, args, register⟩] - 1 = (Term.struct symbol args).inner := by
      simp [weight, Term.structuresList, Pending.term, Term.structures, Term.inner, Term.args]
    rw [headArg_struct, ← single]
    exact takes_matchLevels slots (weight_single symbol args register) _
  | atom symbol | num value =>
    rw [headArg_constant slots base register rfl]
    exact .refl _

/-- The temporary registers of a head are those of the argument that takes most. -/
theorem used_headArgs {base : Nat} (register : Nat) (args : List Term) {state : State}
    (covered : base ≤ state.used) :
    (headArgs slots base register args state).2.used =
      max state.used (base + largest (args.map Term.inner)) := by
  induction args generalizing register state with
  | nil => exact (Nat.max_eq_left covered).symm
  | cons arg args ih =>
    have taken := takes_headArg slots base register arg state
    have temps := taken.temps
    have used := taken.used covered
    simp only at temps used
    rw [headArgs_cons, ih (register + 1) (by omega), List.map_cons, largest_cons]
    omega

/-! ### Goals -/

theorem takes_setArgs (args : List Term) {nested : List Nat}
    (aligned : nested.length = (args.filter isStructure).length) (state : State) :
    Takes state (setArgs slots args nested state).2 0 := by
  induction args generalizing nested state with
  | nil => cases nested <;> exact .refl state
  | cons arg args ih =>
    cases arg with
    | var v =>
      rw [setArgs_var]
      exact (takes_first v state).trans (ih aligned _)
    | struct symbol inner =>
      obtain ⟨register, nested, rfl, others⟩ := exists_cons_of_aligned aligned
      rw [setArgs_struct]
      exact ih others state
    | atom symbol | num value =>
      rw [setArgs_constant slots rfl]
      exact ih aligned state

private theorem takes_buildNested {args : List Term}
    (each : ∀ symbol inner, .struct symbol inner ∈ args → ∀ register state,
      Takes state (buildStructure slots register (.struct symbol inner) state).2
        (Term.struct symbol inner).inner) (state : State) :
    Takes state (buildNested slots args state).2 (Term.structuresList args) := by
  induction args generalizing state with
  | nil =>
    rw [buildNested]
    exact .refl state
  | cons arg args ih =>
    have rest := ih fun symbol inner member ↦ each symbol inner (List.mem_cons_of_mem _ member)
    cases arg with
    | struct symbol inner =>
      have count : Term.structuresList (.struct symbol inner :: args) =
          1 + ((Term.struct symbol inner).inner + Term.structuresList args) := by
        simp only [Term.structuresList, Term.structures, Term.inner, Term.args]
        omega
      rw [buildNested_struct, count]
      exact (takes_temp state).trans ((each symbol inner List.mem_cons_self _ _).trans (rest _))
    | atom symbol | var v | num value =>
      rw [buildNested_other slots rfl, Term.structuresList, Term.structures, Nat.zero_add]
      exact rest state

private theorem takes_buildStructure (register : Nat) (term : Term) (state : State) :
    Takes state (buildStructure slots register term state).2 term.inner := by
  induction term generalizing register state with
  | struct symbol args ih =>
    rw [buildStructure_struct]
    have nested := takes_buildNested slots
      (fun symbol inner member register state ↦ ih _ member register state) state
    exact nested.trans (takes_setArgs slots args (length_buildNested slots args state) _)
  | atom symbol | var v | num value =>
    rw [buildStructure]
    exact .refl state

private theorem takes_goalArg (register : Nat) (arg : Term) (state : State) :
    Takes state (goalArg slots register arg state).2 arg.inner := by
  cases arg with
  | var v => exact takes_first v state
  | struct symbol args => exact takes_buildStructure slots register _ state
  | atom symbol | num value =>
    rw [goalArg_constant slots register rfl]
    exact .refl state

/-- The arguments of a goal keep their temporary registers, so all of them together take as many as
there are structures inside them. -/
theorem takes_goalArgs (register : Nat) (args : List Term) (state : State) :
    Takes state (goalArgs slots register args state).2 (Term.innerTotal args) := by
  induction args generalizing register state with
  | nil => exact .refl state
  | cons arg args ih =>
    rw [goalArgs_cons, Term.innerTotal_cons]
    exact (takes_goalArg slots register arg state).trans (ih _ _)

/-- Number of temporary registers that a goal takes. -/
def goalInner : Goal → Nat
  | .fail => 0
  | .call args _ => Term.innerTotal args

private theorem used_bodyCode_eq {base : Nat} (goals : List Goal) {state : State}
    (covered : base ≤ state.used) :
    (bodyCode slots base goals state).2.used =
      max state.used (base + largest ((reached goals).map goalInner)) := by
  induction goals generalizing state with
  | nil => exact (Nat.max_eq_left covered).symm
  | cons goal goals ih =>
    cases goal with
    | fail => exact (Nat.max_eq_left covered).symm
    | call args target =>
      have taken := takes_goalArgs slots 0 args { state with nextTemp := base }
      have temps := taken.temps
      have used := taken.used covered
      simp only at temps used
      rw [bodyCode_call]
      simp only [reached, List.map_cons, largest_cons, goalInner]
      rw [ih (by omega)]
      omega

end Emit

namespace Rule

/-- What code is emitted for has as many arguments at most as the rule is wide. -/
theorem argumentCount_eq_width (rule : Rule) : rule.argumentCount = rule.width := by
  have folded (goals : List Term) (count : Nat) :
      goals.foldl (fun count goal ↦ max count goal.arity) count =
        max count (largest (goals.map Term.arity)) := by
    induction goals generalizing count with
    | nil => exact (Nat.max_zero count).symm
    | cons goal goals ih =>
      rw [List.foldl_cons, ih, List.map_cons, largest_cons]
      omega
  rw [argumentCount, folded, width, List.map_cons, largest_cons]

/-- The registers that the code of a rule uses are those of the arguments, and the temporary ones of
the argument of the head, or of the goal, that takes most. -/
theorem used_emit (rule : Rule) (slots : List (Var × Nat)) (goals : List Goal) :
    (rule.emit slots goals).2 =
      rule.width + max (largest (rule.head.args.map Term.inner))
        (largest ((reached goals).map Emit.goalInner)) := by
  let start : Emit.State := { nextTemp := rule.argumentCount, used := rule.argumentCount }
  have heads :
      (Emit.headArgs (.ofList slots) rule.argumentCount 0 rule.head.args start).2.used = _ :=
    Emit.used_headArgs (.ofList slots) 0 rule.head.args
      (show rule.argumentCount ≤ start.used from Nat.le_refl _)
  have covered : rule.argumentCount ≤
      (Emit.headArgs (.ofList slots) rule.argumentCount 0 rule.head.args start).2.used := by
    rw [heads]
    exact Nat.le_max_left _ _
  have bodies := Emit.used_bodyCode_eq (.ofList slots) goals covered
  have whole : (rule.emit slots goals).2 = _ := bodies
  rw [whole, heads, argumentCount_eq_width]
  simp only [start, argumentCount_eq_width]
  omega

end Rule
end HornMachine
