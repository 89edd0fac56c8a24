import HornMachine.Proofs.Code.Acceptance
import HornMachine.Proofs.Code.Arguments
import HornMachine.Proofs.Code.Uses

/-!
# Compiled code is well formed

The code of a compiled rule opens a frame, matches the head, builds and calls the goals one after
another, and ends. Main statement: whatever the signatures are, this is its layout, it names only
the registers and the slots that the rule has, and it uses each of them as it should
(`Rule.compile_wellFormed`).
-/

namespace HornMachine

open Code (usesOf putsBelow)

/-- The code of a goal: arguments are built, so that each argument register gets something, and what
the goal calls is called. -/
def Rule.IsBlock (rule : Rule) (signatures : Signatures) (head : Functor) (goal : Term)
    (block : Code) : Prop :=
  ∃ builds target, block = builds ++ [.call target] ∧
    (∀ instruction ∈ builds, instruction.Building) ∧
    Rule.Calls signatures head goal (.call goal.args target) ∧
    putsBelow rule.width builds = List.range goal.args.length

/-- How the code of a rule ends: it fails at the goal `false`, if there is one. -/
def Rule.ending (rule : Rule) (symbols : SymbolTable) : Code :=
  if rule.body.any (isFalse symbols) then [.fail] else [.deallocate, .proceed]

/-- What the code of a rule that is compiled for a bank of `registers` registers is like. -/
structure CompiledRule.WellFormed (compiled : CompiledRule) (rule : Rule) (signatures : Signatures)
    (registers : Nat) : Prop where
  functor : rule.head.functor? = some compiled.head
  /-- A frame is opened, the head is matched, then come the goals before the first `false`, and the
  end. -/
  layout : ∃ heads blocks, compiled.code.toList = .allocate rule.occurrences.toFinset.card ::
      (heads ++ blocks.flatten ++ rule.ending signatures.symbols) ∧
    (∀ instruction ∈ heads, instruction.Matching) ∧
    List.Forall₂ (rule.IsBlock signatures compiled.head)
      (rule.goalsBeforeFalse signatures.symbols) blocks
  bank : compiled.registers ≤ registers
  register_lt : ∀ index, usesOf (.register index) compiled.code.toList ≠ [] →
    index < compiled.registers
  slot_vars : (compiled.slots.map Prod.fst).Nodup ∧ ∀ v, v ∈ compiled.slots.map Prod.fst ↔
    v ∈ rule.occurrences
  slot_numbers : compiled.slots.map Prod.snd = List.range rule.occurrences.toFinset.card
  slot_lt : ∀ index, usesOf (.slot index) compiled.code.toList ≠ [] →
    index < rule.occurrences.toFinset.card
  slot_uses : ∀ index, usesOf (.slot index) compiled.code.toList = [] ∨
    ∃ count, usesOf (.slot index) compiled.code.toList = .fill :: List.replicate count .read
  /-- All slots are named if there is no goal `false`. -/
  slot_named : (∀ goal ∈ rule.body, Rule.isFalse signatures.symbols goal = false) →
    ∀ index < rule.occurrences.toFinset.card, usesOf (.slot index) compiled.code.toList ≠ []
  /-- What is put in a temporary register is read once, and before the register is filled again. -/
  temporary_uses : ∀ index, rule.width ≤ index → ∃ count,
    usesOf (.register index) compiled.code.toList = (List.replicate count [.fill, .read]).flatten
  arguments : ∀ before instruction after count kind, compiled.code.toList = before ++
    instruction :: after →
    instruction.arguments? = some (count, kind) →
      (after.takeWhile Instruction.isArgument).length = count ∧
      ∀ arg ∈ after.takeWhile Instruction.isArgument, kind arg = true

namespace Rule

open Emit

variable {rule : Rule} {signatures : Signatures} {head : Functor} {body : List Term}
    {goals : List Goal}

/-- A call is made for a goal of the body, with its arguments. -/
theorem Calls.exists_goal (resolved : List.Forall₂ (Calls signatures head) body goals)
    {args : List Term} {target : Target} (member : .call args target ∈ goals) :
    ∃ goal ∈ body, args = goal.args ∧ ∀ v, v ∈ goal.occurrences ↔ v ∈ varsOf args := by
  induction resolved with
  | nil => cases member
  | @cons goal _ _ _ first _ ih =>
    rcases List.mem_cons.1 member with here | later
    · obtain ⟨functor, found⟩ := first.exists_functor
      have vars := (functor?_eq_some found).2
      refine ⟨goal, List.mem_cons_self, ?_⟩
      cases first with
      | fail => cases here
      | own possible found =>
        cases here
        exact ⟨rfl, vars⟩
      | known possible found other resolved =>
        cases here
        exact ⟨rfl, vars⟩
    · obtain ⟨goal, inside, same⟩ := ih later
      exact ⟨goal, List.mem_cons_of_mem _ inside, same⟩

/-- If there is no goal `false`, the variables of all goals are met. -/
theorem mem_goalVars_reached (resolved : List.Forall₂ (Calls signatures head) body goals)
    (possible : ∀ goal ∈ body, isFalse signatures.symbols goal = false) {goal : Term}
    (inside : goal ∈ body)
    {v : Var} (occurs : v ∈ goal.occurrences) : v ∈ goalVars (reached goals) := by
  induction resolved with
  | nil => cases inside
  | @cons goal resolved body goals first _ ih =>
    rw [List.forall_mem_cons] at possible
    obtain ⟨functor, called⟩ := first.exists_functor
    have vars := (functor?_eq_some called).2
    have either : v ∈ varsOf goal.args ∨ v ∈ goalVars (reached goals) := by
      rcases List.mem_cons.1 inside with rfl | later
      · exact .inl ((vars v).1 occurs)
      · exact .inr (ih possible.2 later)
    have call {target : Target} (same : resolved = .call goal.args target) :
        v ∈ goalVars (reached (resolved :: goals)) := by
      subst same
      rcases either with here | ⟨args, target, member, later⟩
      · exact ⟨_, _, List.mem_cons_self, here⟩
      · exact ⟨args, target, List.mem_cons_of_mem _ member, later⟩
    cases first with
    | fail is_false => simp [possible.1] at is_false
    | own | known => exact call rfl

/-- The code of a body has a block for each goal before the first `false`. -/
theorem exists_blocks {slots : Slots} (resolved : List.Forall₂ (Calls signatures head) body goals)
    {state : State} (enough : (bodyCode slots rule.width goals state).2.used ≤ maxRegister)
    (narrow : ∀ args target, .call args target ∈ goals → args.length ≤ rule.width) :
    ∃ blocks : List Code, (bodyCode slots rule.width goals state).1 =
        blocks.flatten ++ (if body.any (isFalse signatures.symbols) then [.fail] else [.deallocate,
          .proceed]) ∧
      List.Forall₂ (rule.IsBlock signatures head)
        (body.takeWhile fun goal ↦ !isFalse signatures.symbols goal) blocks := by
  induction resolved generalizing state with
  | nil => exact ⟨[], rfl, .nil⟩
  | @cons goal resolved body goals first _ ih =>
    have call {target : Target} (same : resolved = .call goal.args target)
        (possible : isFalse signatures.symbols goal = false) :
        ∃ blocks : List Code, (bodyCode slots rule.width (resolved :: goals) state).1 =
            blocks.flatten ++ (if (goal :: body).any (isFalse signatures.symbols) then [.fail]
              else [.deallocate, .proceed]) ∧
          List.Forall₂ (rule.IsBlock signatures head)
            ((goal :: body).takeWhile fun goal ↦ !isFalse signatures.symbols goal) blocks := by
      subst same
      rw [bodyCode_call] at enough ⊢
      obtain ⟨blocks, code, forall₂⟩ := ih enough
        fun args target member ↦ narrow args target (List.mem_cons_of_mem _ member)
      have room := narrow _ _ List.mem_cons_self
      have less := used_bodyCode slots rule.width goals
        (goalArgs slots 0 goal.args { state with nextTemp := rule.width }).2
      have puts : putsBelow rule.width
        (goalArgs slots 0 goal.args { state with nextTemp := rule.width }).1 =
          List.range' 0 goal.args.length :=
        putsBelow_goalArgs (Nat.le_trans less enough) (Nat.le_refl _) (by omega)
      refine ⟨((goalArgs slots 0 goal.args { state with nextTemp := rule.width }).1 ++
        [.call target]) :: blocks, ?_, ?_⟩
      · simp only [code, List.any_cons, possible, Bool.false_or, List.flatten_cons,
          List.append_assoc, List.cons_append, List.nil_append]
      · rw [List.takeWhile_cons_of_pos (by simp [possible])]
        refine .cons ⟨_, target, rfl, building_goalArgs 0 goal.args _, first, ?_⟩ forall₂
        rw [puts, List.range_eq_range']
    cases first with
    | fail is_false =>
      refine ⟨[], ?_, ?_⟩
      · rw [List.any_cons, is_false]
        rfl
      · rw [List.takeWhile_cons_of_neg (by simp [is_false])]
        exact .nil
    | own possible found => exact call rfl possible
    | known possible found other known => exact call rfl possible

private theorem mem_foldl_insert {v : Var} {met : List Var} {seen : Std.TreeSet Var} :
    v ∈ met.foldl .insert seen ↔ v ∈ seen ∨ v ∈ met := by
  induction met generalizing seen with
  | nil => simp
  | cons w met ih =>
    rw [List.foldl_cons, ih, Std.TreeSet.mem_insert, Std.LawfulEqCmp.compare_eq_iff_eq,
      List.mem_cons, eq_comm, or_assoc, or_left_comm]

/-- The slots of a rule are used as its variables are met, and if there is no goal `false` all are
met. -/
theorem exists_met (found : rule.head.functor? = some head)
    (resolved : List.Forall₂ (Calls signatures head) rule.body goals) :
    ∃ met : List Var, (∀ v ∈ met, v ∈ rule.vars) ∧
      ((∀ goal ∈ rule.body, isFalse signatures.symbols goal = false) → ∀ v ∈ rule.vars, v ∈ met) ∧
      ∀ index, usesOf (.slot index) (rule.emit rule.vars.zipIdx goals).1 =
        slotUses (Std.TreeMap.ofList rule.vars.zipIdx) index ∅ met := by
  let slots := Std.TreeMap.ofList rule.vars.zipIdx
  let start : State := { nextTemp := rule.argumentCount, used := rule.argumentCount }
  let middle := (headArgs slots rule.argumentCount 0 rule.head.args start).2
  have head_vars := (functor?_eq_some found).2
  obtain ⟨met, seen, uses⟩ :=
    (meets_headArgs slots rule.argumentCount 0 rule.head.args start).append
    (meets_bodyCode slots rule.argumentCount goals middle)
  have covers := (covers_headArgs slots rule.argumentCount 0 rule.head.args start).trans
    (covers_bodyCode slots rule.argumentCount goals middle)
  have mem_met (v : Var) : v ∈ met ↔ v ∈ varsOf rule.head.args ∨ v ∈ goalVars (reached goals) := by
    have both := covers.seen v
    rw [seen, mem_foldl_insert] at both
    simpa [start] using both
  refine ⟨met, ?_, ?_, uses⟩
  · intro v member
    rcases (mem_met v).1 member with occurs | ⟨args, target, called, occurs⟩
    · exact mem_vars.2 (.inl ((head_vars v).2 occurs))
    · obtain ⟨goal, inside, rfl, vars⟩ := Calls.exists_goal resolved (mem_of_mem_reached called)
      exact mem_vars.2 (.inr ⟨goal, inside, (vars v).2 occurs⟩)
  · intro possible v member
    apply (mem_met v).2
    rcases mem_vars.1 member with occurs | ⟨goal, inside, occurs⟩
    · exact .inl ((head_vars v).1 occurs)
    · exact .inr (mem_goalVars_reached resolved possible inside occurs)

/-- The temporary registers of a rule are filled and then read, again and again. -/
theorem visits_emit (enough : (rule.emit rule.vars.zipIdx goals).2 ≤ maxRegister)
    (narrow : ∀ args target, .call args target ∈ goals → args.length ≤ rule.width) :
    Visits rule.width (rule.emit rule.vars.zipIdx goals).2
      (rule.emit rule.vars.zipIdx goals).1 := by
  rw [emit_eq, argumentCount_eq_width] at enough ⊢
  have later := used_bodyCode (Std.TreeMap.ofList rule.vars.zipIdx) rule.width goals
    (headArgs (Std.TreeMap.ofList rule.vars.zipIdx) rule.width 0 rule.head.args
      { nextTemp := rule.width, used := rule.width }).2
  have covers := covers_headArgs (Std.TreeMap.ofList rule.vars.zipIdx) rule.width 0 rule.head.args
    { nextTemp := rule.width, used := rule.width }
  have few : 0 + rule.head.args.length ≤ rule.width := by
    rw [Nat.zero_add, ← argumentCount_eq_width]
    exact (le_argumentCount rule).1
  have heads : Visits rule.width _
    (headArgs (Std.TreeMap.ofList rule.vars.zipIdx) rule.width 0 rule.head.args
      { nextTemp := rule.width, used := rule.width }).1 :=
    visits_headArgs (Nat.le_trans later enough) few (Nat.le_refl _)
  exact (heads.mono later).append (visits_bodyCode enough narrow covers.used)

/-- The code of a rule opens a frame, matches the head and goes through the goals. -/
theorem exists_layout (enough : (rule.emit rule.vars.zipIdx goals).2 ≤ maxRegister)
    (narrow : ∀ args target, .call args target ∈ goals → args.length ≤ rule.width)
    (resolved : List.Forall₂ (Calls signatures head) rule.body goals) :
    ∃ heads blocks, (rule.emit rule.vars.zipIdx goals).1 =
      .allocate rule.occurrences.toFinset.card ::
        (heads ++ blocks.flatten ++ rule.ending signatures.symbols) ∧
      (∀ instruction ∈ heads, instruction.Matching) ∧
      List.Forall₂ (rule.IsBlock signatures head) (rule.goalsBeforeFalse signatures.symbols)
        blocks := by
  rw [emit_eq, argumentCount_eq_width] at enough ⊢
  obtain ⟨blocks, code, forall₂⟩ := exists_blocks resolved enough narrow
  have heads : ∀ instruction ∈ (headArgs (Std.TreeMap.ofList rule.vars.zipIdx) rule.width 0
    rule.head.args
      { nextTemp := rule.width, used := rule.width }).1, instruction.Matching :=
    matching_headArgs rule.width 0 rule.head.args _
  refine ⟨_, blocks, ?_, heads, forall₂⟩
  simp only [List.length_zipIdx, length_vars, code, List.append_assoc]
  rfl

theorem complete_emit (rule : Rule) (goals : List Goal) :
    (rule.emit rule.vars.zipIdx goals).1.Complete := by
  rw [emit_eq]
  exact .plain rfl rfl ((complete_headArgs _ _ _ _ _).append (complete_bodyCode _ _ _ _))

private theorem width_le_used (rule : Rule) (goals : List Goal) :
    rule.width ≤ (rule.emit rule.vars.zipIdx goals).2 := by
  rw [used_emit]
  exact Nat.le_add_right _ _

/-- Whatever the signatures are, the code of a rule compiled for a bank whose registers can all be
named is well formed. -/
theorem compile_wellFormed {registers : Nat} {compiled : CompiledRule} (named : registers ≤ 65535)
    (ended : rule.compile signatures registers = .ok compiled) :
    compiled.WellFormed rule signatures registers := by
  obtain ⟨-, head, goals, found, -, resolved, -, room, rfl⟩ := compile_eq_ok_iff.1 ended
  have count := length_vars rule
  rw [← used_emit_eq_registerNeed resolved rule.vars.zipIdx] at room ⊢
  have enough : (rule.emit rule.vars.zipIdx goals).2 ≤ maxRegister := Nat.le_trans room named
  have narrow : ∀ args target, .call args target ∈ goals → args.length ≤ rule.width := by
    intro args target member
    obtain ⟨goal, inside, rfl, -⟩ := Calls.exists_goal resolved member
    rw [← argumentCount_eq_width]
    exact (le_argumentCount rule).2 goal inside
  have visits := visits_emit enough narrow
  obtain ⟨met, known, complete, uses⟩ := exists_met found resolved
  -- A slot is used if it is that of a variable that is met.
  have unfilled (index : Nat) : ∀ v ∈ (∅ : Std.TreeSet Var),
      slotNumber (Std.TreeMap.ofList rule.vars.zipIdx) v ≠ index := by simp
  have slot_uses (index : Nat) := slotUses_eq slotNumber_injOn known (unfilled index)
  simp only [← uses] at slot_uses
  exact {
    functor := found
    layout := exists_layout enough narrow resolved
    bank := room
    register_lt := by
      intro index used
      by_cases lower : index < rule.width
      · exact Nat.lt_of_lt_of_le lower (width_le_used rule goals)
      · by_contra above
        exact used ((visits index (Nat.le_of_not_lt lower)).2 (Nat.le_of_not_lt above))
    slot_vars := by
      rw [List.zipIdx_map_fst]
      exact ⟨Term.nodup_distinct _, fun v ↦ Term.mem_distinct⟩
    slot_numbers := by
      rw [List.zipIdx_map_snd, count, List.range_eq_range']
    slot_lt := by
      intro index used
      rcases slot_uses index with ⟨nothing, -⟩ | ⟨⟨v, member, rfl⟩, -⟩
      · exact absurd nothing used
      · rw [slotNumber_vars (known v member), ← count]
        exact List.idxOf_lt_length_of_mem (known v member)
    slot_uses := fun index ↦ (slot_uses index).imp And.left And.right
    slot_named := by
      intro possible index lower
      rw [← count] at lower
      have member : rule.vars[index] ∈ rule.vars := List.getElem_mem lower
      have nodup : rule.vars.Nodup := Term.nodup_distinct _
      have slot := slotNumber_vars member
      rw [nodup.idxOf_getElem index lower] at slot
      rcases slot_uses index with ⟨-, others⟩ | ⟨-, uses, same⟩
      · exact absurd slot (others _ (complete possible _ member))
      · intro nothing
        cases same.symm.trans nothing
    temporary_uses := fun index above ↦ (visits index above).1
    arguments := fun before instruction after count kind here begins ↦
      (complete_emit rule goals).arguments here begins }

/-- The code for `p(X, f(g(X), Y))` and a goal `q(h(Y), X)` is well formed. -/
theorem compile_wellFormed_nested :
    let rule : Rule := ⟨.struct ⟨0⟩ [.var 0, .struct ⟨1⟩ [.struct ⟨2⟩ [.var 0], .var 1]],
      [.struct ⟨3⟩ [.struct ⟨4⟩ [.var 1], .var 0]], none⟩
    let signatures : Signatures := ⟨.empty, fun functor ↦ some (.predicate functor)⟩
    ∃ compiled, rule.compile signatures 3 = .ok compiled ∧
      compiled.WellFormed rule signatures 3 := by
  intro rule signatures
  have compilable : rule.Compilable signatures 3 := by
    constructor
    case head => trivial
    case goals => simp [rule, Term.Callable]
    case narrow => simp [rule, Term.AllFunctors, Term.AllFunctorsList]
    case known =>
      intro goal member possible
      cases List.mem_singleton.1 member
      exact ⟨_, rfl, .inr rfl⟩
    case slots => decide
    case room => decide
  obtain ⟨compiled, ended, -⟩ := compilable.exists_compile
  exact ⟨compiled, ended, compile_wellFormed (by decide) ended⟩

end Rule
end HornMachine
