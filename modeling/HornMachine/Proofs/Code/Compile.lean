import HornMachine.Proofs.Code.Goal
import HornMachine.Proofs.Code.Head
import HornMachine.Proofs.Computation
import Mathlib.Data.List.Forall2

/-!
# Compiled rules say what the rules say

The goals of a compiled rule are those of its body with what their calls run, up to the first goal
`false`, after which no code is made. Main statement: the code of a compiled rule is disciplined,
and it relates the terms in the argument registers to the goals called exactly as the head and the
body of the rule do, the slots standing for the rule's variables.
-/

namespace HornMachine

namespace Rule

/-- The goals that code is made for. -/
def reached : List Goal → List Goal
  | [] => []
  | .fail :: _ => [.fail]
  | .call args target :: goals => .call args target :: reached goals

/-- Calls have as many arguments as what they run takes, and no more than `count`. -/
def Aligned (count : Nat) (goals : List Goal) : Prop :=
  ∀ args target, Goal.call args target ∈ goals → args.length = target.arity ∧ args.length ≤ count

/-- The variables of goals. -/
def goalVars (goals : List Goal) : Set Var :=
  {v | ∃ args target, Goal.call args target ∈ goals ∧ v ∈ Emit.varsOf args}

/-- All structures in goals have functors of the given kind. -/
def AllKinds (kind : Functor → Prop) (goals : List Goal) : Prop :=
  ∀ args target, Goal.call args target ∈ goals → ∀ arg ∈ args, arg.AllFunctors kind

end Rule

namespace Emit

open Code (Meaning Disciplined Shape Total)
open Rule (Goal bodyCode reached Aligned goalVars AllKinds)

variable {shape : Shape} {size base : Nat} {slots : Slots} {vars : Set Var} {D : Type}
  [Domain D] {η : Nat → D}

/-! ### Bodies -/

theorem bodyCode_call (slots : Slots) (base : Nat) (args : List Term) (target : Target)
    (goals : List Goal) (state : State) :
    bodyCode slots base (.call args target :: goals) state =
      let one := goalArgs slots 0 args { state with nextTemp := base }
      let two := bodyCode slots base goals one.2
      (one.1 ++ .call target :: two.1, two.2) := by
  refine Prod.ext ?_ rfl
  exact List.append_assoc (goalArgs slots 0 args { state with nextTemp := base }).1
    [Instruction.call target] _

theorem used_bodyCode (slots : Slots) (base : Nat) (goals : List Goal) (state : State) :
    state.used ≤ (bodyCode slots base goals state).2.used := by
  induction goals generalizing state with
  | nil => exact Nat.le_refl _
  | cons goal goals ih =>
    cases goal with
    | fail => exact Nat.le_refl _
    | call args target =>
      rw [bodyCode_call]
      have one := advances_goalArgs slots 0 args { state with nextTemp := base }
      exact Nat.le_trans one.used (ih _)

/-- The code of a body calls the instances of its goals. -/
theorem meaning_bodyCode {goals : List Goal} (aligned : Aligned base goals) {state : State}
    (enough : (bodyCode slots base goals state).2.used ≤ maxRegister) (ρ : Nat → D)
    (called : List (Task D)) :
    Meaning η (bodyCode slots base goals state).1 ρ [] called ↔
      called = (reached goals).map (Goal.eval fun v ↦ η (slotNumber slots v)) := by
  induction goals generalizing state ρ called with
  | nil => exact Iff.rfl
  | cons goal goals ih =>
    cases goal with
    | fail => exact Iff.rfl
    | call args target =>
      obtain ⟨count, few⟩ := aligned args target List.mem_cons_self
      rw [bodyCode_call] at enough ⊢
      have later := used_bodyCode slots base goals
        (goalArgs slots 0 args { state with nextTemp := base }).2
      have rest (ρ : Nat → D) (called : List (Task D)) :=
        ih (fun args target member ↦ aligned args target (List.mem_cons_of_mem _ member)) enough ρ
          called
      obtain ⟨change, changes, changed⟩ := changes_goalArgs (η := η)
        (Nat.le_trans later enough)
        (by rw [Nat.zero_add]; exact few)
      rw [changes, Meaning, ← count, List.range_eq_range', (changed ρ).1, reached, List.map_cons,
        Goal.eval]
      constructor
      · rintro ⟨tail, rfl, ρ, meaning⟩
        rw [(rest ρ tail).1 meaning]
        rfl
      · rintro rfl
        exact ⟨_, rfl, ρ, (rest ρ _).2 rfl⟩

/-- Code of a body can be gone on with after a call. -/
theorem total_bodyCode {goals : List Goal} (aligned : Aligned base goals) {state : State}
    (enough : (bodyCode slots base goals state).2.used ≤ maxRegister) :
    Total (bodyCode slots base goals state).1 :=
  fun _ ↦ ⟨_, fun ρ ↦ (meaning_bodyCode aligned enough ρ _).2 rfl⟩

private theorem disciplined_bodyCode (apart : vars.InjOn (slotNumber slots)) {goals : List Goal}
    (aligned : Aligned base goals) {state : State} (inside : ∀ v ∈ state.seen, v ∈ vars)
    (known : goalVars goals ⊆ vars) (kinds : AllKinds shape.admits goals)
    (complete : ∀ index < size,
      index ∈ slotsOf slots state.seen ∨ ∃ v ∈ goalVars goals, slotNumber slots v = index)
    {bound : Nat} (enough : (bodyCode slots base goals state).2.used ≤ bound)
    (resumes : ∀ later state, later <:+ goals → (bodyCode slots base later state).2.used ≤ bound →
      shape.resumes (bodyCode slots base later state).1) :
    Disciplined shape size (bodyCode slots base goals state).1 ∅ (slotsOf slots state.seen)
      false 0 := by
  induction goals generalizing state with
  | nil =>
    refine ⟨rfl, fun index inside ↦ ?_, rfl⟩
    rcases complete index inside with filled | ⟨v, ⟨_, _, member, -⟩, -⟩
    · exact filled
    · exact absurd member List.not_mem_nil
  | cons goal goals ih =>
    cases goal with
    | fail => exact rfl
    | call args target =>
      obtain ⟨count, -⟩ := aligned args target List.mem_cons_self
      have one := advances_goalArgs slots 0 args { state with nextTemp := base }
      have goal_vars : varsOf args ⊆ vars :=
        fun v occurs ↦ known ⟨args, target, List.mem_cons_self, occurs⟩
      have seen_inside : ∀ v ∈ (goalArgs slots 0 args { state with nextTemp := base }).2.seen,
          v ∈ vars :=
        fun v found ↦ ((one.seen v).1 found).elim (inside v) fun occurs ↦ goal_vars occurs
      rw [bodyCode_call] at enough ⊢
      have begun : ∀ v ∈ { state with nextTemp := base }.seen, v ∈ vars := inside
      refine (disciplined_goalArgs apart begun goal_vars
        (kinds args target List.mem_cons_self) ?_).mono ?_
      · refine ⟨rfl, fun index lower ↦ ?_, resumes goals _ (List.suffix_cons _ _) enough,
          ih ?_ seen_inside ?_ ?_ ?_ enough ?_⟩
        · exact (by omega : index < 0 + args.length)
        · exact fun args target member ↦ aligned args target (List.mem_cons_of_mem _ member)
        · rintro v ⟨args, target, member, occurs⟩
          exact known ⟨args, target, List.mem_cons_of_mem _ member, occurs⟩
        · exact fun args target member ↦ kinds args target (List.mem_cons_of_mem _ member)
        · intro index inside
          rcases complete index inside with ⟨v, seen, same⟩ | ⟨v, ⟨_, _, member, occurs⟩, same⟩
          · exact .inl ⟨v, (one.seen v).2 (.inl seen), same⟩
          · rcases List.mem_cons.1 member with here | later
            · cases here
              exact .inl ⟨v, (one.seen v).2 (.inr occurs), same⟩
            · exact .inr ⟨v, ⟨_, _, later, occurs⟩, same⟩
        · exact fun later state short ↦ resumes later state (short.trans (List.suffix_cons _ _))
      · exact fun index lower ↦ absurd lower (Nat.not_lt_zero index)

/-! ### Slots -/

section Slots

variable {rule : Rule}

theorem slotNumber_vars {v : Var} (member : v ∈ rule.vars) :
    slotNumber (Std.TreeMap.ofList rule.vars.zipIdx) v = rule.vars.idxOf v := by
  have distinct : rule.vars.zipIdx.Pairwise fun a b ↦ ¬compare a.1 b.1 = .eq := by
    have nodup : (rule.vars.zipIdx.map Prod.fst).Nodup := by
      rw [List.zipIdx_map_fst]
      exact Term.nodup_distinct _
    refine (List.pairwise_map.1 nodup).imp fun apart ↦ ?_
    simpa using apart
  have bound := List.idxOf_lt_length_of_mem member
  have here : (v, rule.vars.idxOf v) ∈ rule.vars.zipIdx := by
    rw [List.mk_mem_zipIdx_iff_getElem?, List.getElem?_eq_getElem bound, List.getElem_idxOf bound]
  rw [slotNumber, Std.TreeMap.getD_ofList_of_mem Std.ReflCmp.compare_self distinct here]

theorem slotNumber_injOn :
    Set.InjOn (slotNumber (Std.TreeMap.ofList rule.vars.zipIdx)) {v | v ∈ rule.vars} := by
  intro v member w other same
  rw [slotNumber_vars member, slotNumber_vars other] at same
  exact (List.idxOf_inj member).1 same

end Slots

end Emit

/-! ### Rules -/

/-- Targets take the arguments of the functors that call them. -/
def Signatures.Respects (signatures : Signatures) : Prop :=
  ∀ functor target, signatures.target? functor = some target → target.arity = functor.arity

namespace Rule

open Emit (varsOf)

/-- What a body goal is resolved to. -/
inductive Resolves (goal : Term) : Goal → Prop
  | fail (ground : ∀ v, v ∉ goal.occurrences) : Resolves goal .fail
  | call {target : Target} (count : goal.args.length = target.arity)
    (vars : ∀ v, v ∈ goal.occurrences ↔ v ∈ varsOf goal.args) :
    Resolves goal (.call goal.args target)

theorem functor?_eq_some {term : Term} {functor : Functor} (found : term.functor? = some functor) :
    term.args.length = functor.arity ∧ ∀ v, v ∈ term.occurrences ↔ v ∈ varsOf term.args := by
  cases term with
  | atom symbol =>
    cases found
    exact ⟨rfl, by simp [Term.args]⟩
  | struct symbol args =>
    rw [Term.functor?] at found
    split at found
    · cases found
      exact ⟨rfl, by simp [Term.args, varsOf]⟩
    · cases found
  | var v => cases found
  | num value => cases found

private theorem resolves_resolveGoal {signatures : Signatures} (respects : signatures.Respects)
    {head : Functor} {index : Nat} {goal : Term} {resolved : Goal}
    (ended : resolveGoal signatures head index goal = .ok resolved) : Resolves goal resolved := by
  unfold resolveGoal at ended
  split at ended
  · cases ended
  · next functor found =>
    obtain ⟨count, vars⟩ := functor?_eq_some found
    obtain ⟨-, -, ended⟩ := Except.bind_eq_ok.1 ended
    split at ended
    · next is_false =>
      cases ended
      cases goal with
      | atom symbol => exact .fail (by simp)
      | var _ | struct _ _ | num _ => cases is_false
    · split at ended
      · next same =>
        cases ended
        exact .call (by rw [count, same]; rfl) vars
      · split at ended
        · next target called =>
          cases ended
          exact .call (count.trans (respects functor target called).symm) vars
        · cases ended

theorem resolves_resolveGoals {signatures : Signatures} (respects : signatures.Respects)
    {head : Functor} {index : Nat} {body : List Term} {goals : List Goal}
    (ended : resolveGoals signatures head index body = .ok goals) :
    List.Forall₂ Resolves body goals := by
  induction body generalizing index goals with
  | nil =>
    cases ended
    exact .nil
  | cons goal body ih =>
    obtain ⟨first, one, ended⟩ := Except.bind_eq_ok.1 ended
    obtain ⟨rest, two, ended⟩ := Except.bind_eq_ok.1 ended
    cases ended
    exact .cons (resolves_resolveGoal respects one) (ih two)

/-- A resolved call is made by a body goal. -/
theorem exists_of_call_mem {body : List Term} {goals : List Goal}
    (resolved : List.Forall₂ Resolves body goals) {args : List Term} {target : Target}
    (member : Goal.call args target ∈ goals) :
    ∃ goal ∈ body, args = goal.args ∧ args.length = target.arity ∧
      ∀ v, v ∈ goal.occurrences ↔ v ∈ varsOf args := by
  induction resolved with
  | nil => cases member
  | cons first _ ih =>
    rcases List.mem_cons.1 member with here | later
    · subst here
      cases first with
      | call count vars => exact ⟨_, List.mem_cons_self, rfl, count, vars⟩
    · obtain ⟨goal, inside, found⟩ := ih later
      exact ⟨goal, List.mem_cons_of_mem _ inside, found⟩

theorem mem_goalVars_iff {body : List Term} {goals : List Goal}
    (resolved : List.Forall₂ Resolves body goals) {v : Var} :
    v ∈ goalVars goals ↔ ∃ goal ∈ body, v ∈ goal.occurrences := by
  constructor
  · rintro ⟨args, target, member, occurs⟩
    obtain ⟨goal, inside, -, -, vars⟩ := exists_of_call_mem resolved member
    exact ⟨goal, inside, (vars v).2 occurs⟩
  · rintro ⟨goal, inside, occurs⟩
    induction resolved with
    | nil => cases inside
    | cons first _ ih =>
      rcases List.mem_cons.1 inside with rfl | later
      · cases first with
        | fail ground => exact absurd occurs (ground v)
        | call count vars => exact ⟨_, _, List.mem_cons_self, (vars v).1 occurs⟩
      · obtain ⟨args, target, member, found⟩ := ih later
        exact ⟨args, target, List.mem_cons_of_mem _ member, found⟩

theorem le_argumentCount (rule : Rule) :
    rule.head.arity ≤ rule.argumentCount ∧ ∀ goal ∈ rule.body, goal.arity ≤ rule.argumentCount := by
  have folded (goals : List Term) (count : Nat) :
      count ≤ goals.foldl (fun count goal ↦ max count goal.arity) count ∧
        ∀ goal ∈ goals, goal.arity ≤ goals.foldl (fun count goal ↦ max count goal.arity) count := by
    induction goals generalizing count with
    | nil => simp
    | cons goal goals ih =>
      obtain ⟨whole, each⟩ := ih (max count goal.arity)
      rw [List.foldl_cons]
      refine ⟨Nat.le_trans (Nat.le_max_left _ _) whole, fun other member ↦ ?_⟩
      rcases List.mem_cons.1 member with rfl | later
      · exact Nat.le_trans (Nat.le_max_right _ _) whole
      · exact each other later
  exact folded rule.body rule.head.arity

theorem aligned_of_resolves {rule : Rule} {goals : List Goal}
    (resolved : List.Forall₂ Resolves rule.body goals) : Aligned rule.argumentCount goals := by
  intro args target member
  obtain ⟨goal, inside, rfl, count, -⟩ := exists_of_call_mem resolved member
  exact ⟨count, (le_argumentCount rule).2 goal inside⟩

theorem mem_vars {rule : Rule} {v : Var} :
    v ∈ rule.vars ↔ v ∈ rule.head.occurrences ∨ ∃ goal ∈ rule.body, v ∈ goal.occurrences := by
  rw [vars, Term.mem_distinct, occurrences, List.mem_append, Term.occurrencesList_eq_flatMap,
    List.mem_flatMap]

end Rule

/-! ### Compiled rules -/

/-- What the calls of a piece of code run, one entry for each; nothing for a call that fails. -/
def Code.targets : Code → List (Option Target)
  | [] => []
  | .call target :: code => some target :: targets code
  | .fail :: _ => [none]
  | .deallocate :: _ => []
  | _ :: code => targets code

/-- What a goal runs. -/
def Rule.Goal.target? : Rule.Goal → Option Target
  | .fail => none
  | .call _ target => some target

/-- What a task runs. -/
def Task.target? {D : Type} : Task D → Option Target
  | .fail => none
  | .call _ target => some target

/-- Code calls what it says it calls. -/
theorem Code.Meaning.targets {D : Type} [Domain D] {η ρ : Nat → D} {code : Code} {args : List D}
    {goals : List (Task D)} (meaning : Code.Meaning η code ρ args goals) :
    goals.map Task.target? = Code.targets code := by
  induction code generalizing ρ args goals with
  | nil => exact meaning.elim
  | cons instruction code ih =>
    have received {place : Place} {value : D} {change : (Nat → D) → Nat → D}
        {rest : List D}
        (later : place.Receives ρ η value fun ρ ↦ Code.Meaning η code (change ρ) rest goals) :
        goals.map Task.target? = Code.targets code := by
      cases place with
      | register index => exact ih later
      | slot index => exact ih later.2
    cases instruction with
    | getVariable place arg => exact received meaning
    | getValue place arg | getConstant constant arg => exact ih meaning.2
    | getStructure functor arg =>
      obtain ⟨args, -, -, later⟩ := meaning
      exact ih later
    | unifyVariable place | setVariable place =>
      obtain ⟨value, rest, -, later⟩ := meaning
      exact received later
    | unifyValue place | setValue place | unifyConstant constant | setConstant constant =>
      obtain ⟨value, rest, -, -, later⟩ := meaning
      exact ih later
    | putVariable place arg =>
      obtain ⟨value, later⟩ := meaning
      exact received later
    | putValue place arg | putConstant constant arg => exact ih meaning
    | putStructure functor register =>
      obtain ⟨args, -, later⟩ := meaning
      exact ih later
    | call target =>
      obtain ⟨called, rfl, ρ, later⟩ := meaning
      rw [List.map_cons, ih later, Code.targets, Task.target?]
    | deallocate | fail =>
      cases meaning
      rfl
    | allocate | proceed => exact meaning.elim

namespace CompiledRule

open Code (Meaning Disciplined Shape Total)

/-- A body goal with what its call runs. -/
def goalOf (goal : Term) : Option Target → Rule.Goal
  | some target => .call goal.args target
  | none => .fail

/-- The code after the frame is opened. -/
def body (compiled : CompiledRule) : Code := compiled.code.toList.tail

/-- The goals of a compiled rule as they are called: each goal of the body with its target, up to
the first that fails. -/
def goals (compiled : CompiledRule) : List Rule.Goal :=
  List.zipWith goalOf compiled.rule.body (Code.targets compiled.body)

/-- What the variables of a rule stand for when its slots hold the given values. -/
def assignment {D : Type} (compiled : CompiledRule) (η : Nat → D) (v : Var) : D :=
  η (compiled.rule.vars.idxOf v)

/-- The code of a compiled rule opens a frame and then says what the rule says. -/
structure Faithful (compiled : CompiledRule) : Prop where
  functor : compiled.rule.head.functor? = some compiled.head
  slots : compiled.slots = compiled.rule.vars.zipIdx
  opens : compiled.code.toList = .allocate compiled.frameSize :: compiled.body
  meaning : ∀ {D : Type} [Domain D] (η ρ : Nat → D) (called : List (Task D)),
    Meaning η compiled.body ρ [] called ↔
    (List.range compiled.head.arity).map ρ =
        compiled.rule.head.args.map (Term.eval (compiled.assignment η)) ∧
      called = compiled.goals.map (Rule.Goal.eval (compiled.assignment η))

end CompiledRule

namespace Rule

open Emit Code

theorem emit_eq (rule : Rule) (slots : List (Var × Nat)) (goals : List Goal) :
    rule.emit slots goals =
      let places := Std.TreeMap.ofList slots
      let base := rule.argumentCount
      let one := headArgs places base 0 rule.head.args { nextTemp := base, used := base }
      let two := bodyCode places base goals one.2
      (.allocate slots.length :: (one.1 ++ two.1), two.2.used) := rfl

/-- No structure is found too wide in a term that fits. -/
theorem tooWide?_eq_none_iff {term : Term} : term.tooWide? = none ↔ term.fits = true := by
  induction term with
  | atom _ | num _ | var _ => simp [Term.tooWide?, Term.fits]
  | struct symbol args ih =>
    rw [Term.tooWide?, Term.fits, Term.allFit_eq_all, Bool.and_eq_true, decide_eq_true_eq]
    split
    · next wide => simp [Nat.not_le.2 wide]
    · next narrow =>
      rw [and_iff_right (Nat.le_of_not_lt narrow)]
      clear narrow
      induction args with
      | nil => simp [Term.firstTooWide?]
      | cons arg args inner =>
        rw [Term.firstTooWide?, List.all_cons, Bool.and_eq_true, ← ih arg List.mem_cons_self,
          ← inner fun other member ↦ ih other (List.mem_cons_of_mem _ member)]
        cases arg.tooWide? <;> simp

theorem fits_of_tryCompile {rule : Rule} {signatures : Signatures} {registers : Nat}
    {compiled : CompiledRule} (ended : rule.tryCompile signatures registers = .ok compiled) :
    rule.head.fits = true := by
  obtain ⟨_, checked, -⟩ := Except.bind_eq_ok.1 ended
  rw [← tooWide?_eq_none_iff]
  unfold checkWidth at checked
  split at checked
  · cases checked
  · assumption

theorem tryCompile_of_compile {rule : Rule} {signatures : Signatures} {registers : Nat}
    {compiled : CompiledRule} (ended : rule.compile signatures registers = .ok compiled) :
    rule.tryCompile signatures registers = .ok compiled := by
  unfold compile at ended
  split at ended
  · next found tried =>
    cases ended
    exact tried
  · cases ended

theorem tryCompile_eq_ok {rule : Rule} {signatures : Signatures} {registers : Nat}
    {compiled : CompiledRule} (ended : rule.tryCompile signatures registers = .ok compiled) :
    ∃ head goals, rule.head.functor? = some head ∧
      resolveGoals signatures head 0 rule.body = .ok goals ∧
      (rule.emit rule.vars.zipIdx goals).2 ≤ registers ∧
      compiled = { rule, head, code := (rule.emit rule.vars.zipIdx goals).1.toArray,
                   slots := rule.vars.zipIdx,
                   registers := (rule.emit rule.vars.zipIdx goals).2 } := by
  unfold tryCompile at ended
  obtain ⟨-, -, ended⟩ := Except.bind_eq_ok.1 ended
  split at ended
  · cases ended
  · next head found =>
    obtain ⟨goals, resolved, ended⟩ := Except.bind_eq_ok.1 ended
    simp only at ended
    split at ended
    · cases ended
    · split at ended
      · cases ended
      · next few =>
        cases ended
        exact ⟨head, goals, found, resolved, Nat.le_of_not_lt few, rfl⟩

section

variable {rule : Rule} {signatures : Signatures} {registers : Nat} {compiled : CompiledRule}
  {goals : List Goal}

private theorem body_tryCompile {head : Functor} :
    CompiledRule.body
        { rule, head, code := (rule.emit rule.vars.zipIdx goals).1.toArray,
          slots := rule.vars.zipIdx, registers := (rule.emit rule.vars.zipIdx goals).2 } =
      let places := Std.TreeMap.ofList rule.vars.zipIdx
      let one := headArgs places rule.argumentCount 0 rule.head.args
        { nextTemp := rule.argumentCount, used := rule.argumentCount }
      one.1 ++ (bodyCode places rule.argumentCount goals one.2).1 := rfl

/-- The code of a compiled rule is disciplined, and in a bank whose registers can all be named it
can be gone on with after each call. -/
theorem disciplined_tryCompile (respects : signatures.Respects) {admits : Functor → Prop}
    (kinds : rule.head.AllFunctors admits ∧ ∀ goal ∈ rule.body, goal.AllFunctors admits)
    (ended : rule.tryCompile signatures registers = .ok compiled) :
    Disciplined ⟨admits, fun code ↦ registers ≤ maxRegister → Total code⟩ compiled.frameSize
      compiled.body {index | index < compiled.head.arity} ∅ false 0 := by
  obtain ⟨head, goals, found, resolution, few, rfl⟩ := tryCompile_eq_ok ended
  have resolved := resolves_resolveGoals respects resolution
  obtain ⟨count, head_vars⟩ := functor?_eq_some found
  have covers := covers_headArgs (Std.TreeMap.ofList rule.vars.zipIdx) rule.argumentCount 0
    rule.head.args { nextTemp := rule.argumentCount, used := rule.argumentCount }
  have head_known : varsOf rule.head.args ⊆ {v | v ∈ rule.vars} :=
    fun v occurs ↦ mem_vars.2 (.inl ((head_vars v).2 occurs))
  have nothing_seen : slotsOf (Std.TreeMap.ofList rule.vars.zipIdx) ∅ = ∅ := by
    ext index
    simp [slotsOf]
  rw [body_tryCompile, ← nothing_seen]
  refine disciplined_headArgs slotNumber_injOn (by simp) head_known
    (fun index lower ↦ ?_) (fun arg member ↦ kinds.1.of_mem_args member) ?_
  · rw [count, Nat.zero_add] at lower
    exact lower
  refine (disciplined_bodyCode slotNumber_injOn (aligned_of_resolves resolved) ?_ ?_ ?_ ?_ few
    fun later state short enough named ↦ ?_).mono (Set.empty_subset _)
  · intro v seen
    rcases (covers.seen v).1 seen with nothing | occurs
    · simp at nothing
    · exact head_known occurs
  · intro v occurs
    exact mem_vars.2 (.inr ((mem_goalVars_iff resolved).1 occurs))
  · intro args target member arg inside
    obtain ⟨goal, goal_inside, rfl, -, -⟩ := exists_of_call_mem resolved member
    exact (kinds.2 goal goal_inside).of_mem_args inside
  · intro index lower
    simp only [CompiledRule.frameSize, List.length_zipIdx] at lower
    have nodup : rule.vars.Nodup := Term.nodup_distinct _
    have member : rule.vars[index] ∈ rule.vars := List.getElem_mem lower
    have slot := slotNumber_vars member
    rw [nodup.idxOf_getElem index lower] at slot
    rcases mem_vars.1 member with occurs | occurs
    · exact .inl ⟨_, (covers.seen _).2 (.inr ((head_vars _).1 occurs)), slot⟩
    · exact .inr ⟨_, (mem_goalVars_iff resolved).2 occurs, slot⟩
  · refine total_bodyCode (fun args target member ↦ ?_) (Nat.le_trans enough named)
    exact aligned_of_resolves resolved args target (short.mem member)

private theorem zipWith_goalOf {body : List Term} {goals : List Goal}
    (resolved : List.Forall₂ Resolves body goals) :
    List.zipWith CompiledRule.goalOf body ((reached goals).map Goal.target?) = reached goals := by
  induction resolved with
  | nil => rfl
  | cons first _ ih =>
    cases first with
    | fail ground => simp [reached, Goal.target?, CompiledRule.goalOf]
    | call count vars => simp [reached, Goal.target?, CompiledRule.goalOf, ih]

theorem mem_of_mem_reached {goals : List Goal} {goal : Goal} (member : goal ∈ reached goals) :
    goal ∈ goals := by
  induction goals with
  | nil => exact member
  | cons first goals ih =>
    cases first with
    | fail =>
      rw [List.mem_singleton.1 member]
      exact List.mem_cons_self
    | call args target =>
      rcases List.mem_cons.1 member with rfl | later
      · exact List.mem_cons_self
      · exact List.mem_cons_of_mem _ (ih later)

/-- If no goal fails, all are called. -/
theorem mem_reached {goals : List Goal} (possible : .fail ∉ reached goals) {goal : Goal}
    (member : goal ∈ goals) : goal ∈ reached goals := by
  induction goals with
  | nil => exact member
  | cons first goals ih =>
    cases first with
    | fail => exact absurd List.mem_cons_self possible
    | call args target =>
      rcases List.mem_cons.1 member with rfl | later
      · exact List.mem_cons_self
      · exact List.mem_cons_of_mem _
          (ih (fun fails ↦ possible (List.mem_cons_of_mem _ fails)) later)

private theorem target?_eval {D : Type} [Domain D] (β : Var → D) (goal : Goal) :
    (goal.eval β).target? = goal.target? := by
  cases goal <;> rfl

/-- The whole code says that the arguments are instances of the head's and calls instances of the
goals. -/
theorem meaning_emit {D : Type} [Domain D] (resolved : List.Forall₂ Resolves rule.body goals)
    (enough : (rule.emit rule.vars.zipIdx goals).2 ≤ maxRegister) (η ρ : Nat → D)
    (called : List (Task D)) :
    Meaning η (rule.emit rule.vars.zipIdx goals).1.tail ρ [] called ↔
      (List.range rule.head.arity).map ρ =
          rule.head.args.map (valueOf (Std.TreeMap.ofList rule.vars.zipIdx) η) ∧
        called = (reached goals).map
          (Goal.eval fun v ↦ η (slotNumber (Std.TreeMap.ofList rule.vars.zipIdx) v)) := by
  have aligned := aligned_of_resolves resolved
  rw [emit_eq] at enough ⊢
  have later := used_bodyCode (Std.TreeMap.ofList rule.vars.zipIdx) rule.argumentCount goals
    (headArgs (Std.TreeMap.ofList rule.vars.zipIdx) rule.argumentCount 0 rule.head.args
      { nextTemp := rule.argumentCount, used := rule.argumentCount }).2
  have few := (le_argumentCount rule).1
  rw [List.tail_cons, meaning_headArgs (Nat.le_trans later enough) (by rwa [Nat.zero_add])
    (fun ρ ρ' _ ↦ by simp only [meaning_bodyCode aligned enough]),
    meaning_bodyCode aligned enough, ← List.range_eq_range', Term.arity]

/-- The goals of a compiled rule are those of its body up to the first that fails. -/
theorem goals_emit (resolved : List.Forall₂ Resolves rule.body goals)
    (enough : (rule.emit rule.vars.zipIdx goals).2 ≤ maxRegister) (head : Functor) :
    CompiledRule.goals
        { rule, head, code := (rule.emit rule.vars.zipIdx goals).1.toArray,
          slots := rule.vars.zipIdx, registers := (rule.emit rule.vars.zipIdx goals).2 } =
      reached goals := by
  have targets : Code.targets (rule.emit rule.vars.zipIdx goals).1.tail =
      (reached goals).map Goal.target? := by
    -- The targets can be read off the goals of any one instance.
    let args : List Term :=
      rule.head.args.map (valueOf (Std.TreeMap.ofList rule.vars.zipIdx) default)
    have held : (List.range rule.head.arity).map (fun index ↦ args[index]?.getD default) =
      args := by
      refine List.ext_getElem (by simp [args, Term.arity]) fun index lower upper ↦ ?_
      simp only [List.getElem_map, List.getElem_range]
      rw [List.getElem?_eq_getElem upper, Option.getD_some]
    rw [← ((meaning_emit resolved enough default _ _).2 ⟨held, rfl⟩).targets, List.map_map]
    exact List.map_congr_left fun goal _ ↦ target?_eval _ goal
  rw [CompiledRule.goals, CompiledRule.body, targets, zipWith_goalOf resolved]

/-- In a bank whose registers can all be named, the body of a compiled rule resolves to goals, of
which those up to the first that fails are called. -/
theorem goals_tryCompile (respects : signatures.Respects) (named : registers ≤ maxRegister)
    (ended : rule.tryCompile signatures registers = .ok compiled) :
    ∃ goals, List.Forall₂ Resolves rule.body goals ∧ compiled.goals = reached goals := by
  obtain ⟨head, goals, -, resolution, few, rfl⟩ := tryCompile_eq_ok ended
  have resolved := resolves_resolveGoals respects resolution
  exact ⟨goals, resolved, goals_emit resolved (Nat.le_trans few named) head⟩

/-- In a bank whose registers can all be named, the code of a compiled rule says what the rule
says. -/
theorem faithful_tryCompile (respects : signatures.Respects) (named : registers ≤ maxRegister)
    (ended : rule.tryCompile signatures registers = .ok compiled) : compiled.Faithful := by
  obtain ⟨head, goals, found, resolution, few, rfl⟩ := tryCompile_eq_ok ended
  have resolved := resolves_resolveGoals respects resolution
  obtain ⟨count, head_vars⟩ := functor?_eq_some found
  have meaning {D : Type} [Domain D] := meaning_emit (D := D) resolved (Nat.le_trans few named)
  have same {D : Type} [Domain D] (η : Nat → D) {term : Term}
      (known : ∀ v ∈ term.occurrences, v ∈ rule.vars) :
      valueOf (Std.TreeMap.ofList rule.vars.zipIdx) η term =
        term.eval fun v ↦ η (rule.vars.idxOf v) :=
    Term.eval_congr fun v occurs ↦ by rw [slotNumber_vars (known v occurs)]
  refine ⟨found, rfl, by simp [CompiledRule.body, CompiledRule.frameSize, emit_eq],
    fun η ρ called ↦ (meaning η ρ called).trans ?_⟩
  rw [goals_emit resolved (Nat.le_trans few named), ← count]
  have heads : rule.head.args.map (valueOf (Std.TreeMap.ofList rule.vars.zipIdx) η) =
      rule.head.args.map (Term.eval fun v ↦ η (rule.vars.idxOf v)) :=
    List.map_congr_left fun arg member ↦ same η fun v occurs ↦
      mem_vars.2 (.inl ((head_vars v).2 ⟨arg, member, occurs⟩))
  have bodies : (reached goals).map
      (Goal.eval fun v ↦ η (slotNumber (Std.TreeMap.ofList rule.vars.zipIdx) v)) =
      (reached goals).map (Goal.eval fun v ↦ η (rule.vars.idxOf v)) := by
    refine List.map_congr_left fun goal member ↦ ?_
    cases goal with
    | fail => rfl
    | call args target =>
      have known := mem_of_mem_reached member
      refine congrArg (Task.call · target) (List.map_congr_left fun arg inside ↦
        same η fun v occurs ↦ ?_)
      exact mem_vars.2 (.inr ((mem_goalVars_iff resolved).1
        ⟨args, target, known, arg, inside, occurs⟩))
  rw [heads, bodies]
  exact Iff.rfl

end

end Rule
end HornMachine
