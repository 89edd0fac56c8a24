import HornMachine.Program
import HornMachine.Proofs.Code.Compile

/-!
# Programs built rule by rule

A program comes from one without rules by declaring functors and adding rules, each compiled with
what the program knew then. Main statement: the code of every rule opens a frame and is disciplined,
and it says what the rule says if the registers of the bank can all be named.
-/

namespace HornMachine

/-- A rule whose structures all have functors of the given kind. -/
def Rule.AllFunctors (admits : Functor → Prop) (rule : Rule) : Prop :=
  rule.head.AllFunctors admits ∧ ∀ goal ∈ rule.body, goal.AllFunctors admits

namespace Program

open Code (Disciplined Shape Total)

/-- The program's rules were added one by one, each of the given kind. -/
inductive Built (allowed : Rule → Prop) : Program → Prop
  | new (registers : Nat) : Built allowed (new registers)
  | declare {program : Program} (built : Built allowed program) (functor : Functor) :
    Built allowed (program.declare functor)
  | addRule {program later : Program} (built : Built allowed program) {symbols : SymbolTable}
    {rule : Rule} {id : RuleId} (kind : allowed rule)
    (added : program.addRule symbols rule = .ok (id, later)) : Built allowed later

/-- The program with some rules after the others; a rule that does not compile is left out. -/
def addRules (program : Program) (symbols : SymbolTable) (rules : List Rule) : Program :=
  rules.foldl (fun program rule ↦
    match program.addRule symbols rule with
    | .ok (_, later) => later
    | .error _ => program) program

theorem Built.addRules {allowed : Rule → Prop} {program : Program} (built : program.Built allowed)
    {symbols : SymbolTable} {rules : List Rule} (each : ∀ rule ∈ rules, allowed rule) :
    (program.addRules symbols rules).Built allowed := by
  unfold Program.addRules
  induction rules generalizing program with
  | nil => exact built
  | cons rule rules ih =>
    obtain ⟨first, others⟩ := List.forall_mem_cons.1 each
    rw [List.foldl_cons]
    split
    · next added => exact ih (built.addRule first added) others
    · exact ih built others

/-- A call runs something with as many arguments as its functor has. -/
theorem respects_signatures (program : Program) (symbols : SymbolTable) :
    (program.signatures symbols).Respects := by
  intro functor target found
  simp only [signatures] at found
  split at found
  · cases found
    rfl
  · split at found
    · cases found
      rfl
    · cases found

private theorem addRule_eq_ok {program later : Program} {symbols : SymbolTable} {rule : Rule}
    {id : RuleId} (added : program.addRule symbols rule = .ok (id, later)) :
    ∃ compiled, rule.tryCompile (program.signatures symbols) program.registers = .ok compiled ∧
      later = program.append compiled := by
  obtain ⟨compiled, made, rest⟩ := Except.bind_eq_ok.1 added
  cases rest
  unfold compile Rule.compile at made
  split at made
  · next found tried =>
    cases made
    exact ⟨compiled, tried, rfl⟩
  · cases made

/-- Every rule of a built program was compiled for its bank. -/
theorem Built.tryCompile {allowed : Rule → Prop} {program : Program} (built : program.Built allowed)
    {id : RuleId} {compiled : CompiledRule} (found : program.rule? id = some compiled) :
    ∃ signatures : Signatures, signatures.Respects ∧ allowed compiled.rule ∧
      compiled.rule.tryCompile signatures program.registers = .ok compiled := by
  induction built with
  | new registers => simp [rule?, Program.new] at found
  | declare _ functor ih => exact ih found
  | @addRule program later _ symbols rule id kind added ih =>
    obtain ⟨last, tried, rfl⟩ := addRule_eq_ok added
    simp only [rule?, append, Array.getElem?_push] at found
    split at found
    · cases found
      obtain ⟨head, goals, -, -, -, rfl⟩ := Rule.tryCompile_eq_ok tried
      exact ⟨_, program.respects_signatures symbols, kind, tried⟩
    · exact ih found

/-- What is asked of the code of the program's rules. -/
def shape (program : Program) (admits : Functor → Prop) : Shape :=
  ⟨admits, fun code ↦ program.registers ≤ Emit.maxRegister → Total code⟩

/-- The code of every rule opens a frame and is disciplined. -/
structure Lawful (program : Program) (admits : Functor → Prop) : Prop where
  opens : ∀ {id : RuleId} {compiled : CompiledRule}, program.rule? id = some compiled →
    compiled.code.toList = .allocate compiled.frameSize :: compiled.body
  disciplined : ∀ {id : RuleId} {compiled : CompiledRule}, program.rule? id = some compiled →
    Disciplined (program.shape admits) compiled.frameSize compiled.body
      {index | index < compiled.head.arity} ∅ false 0
  slots : ∀ {id : RuleId} {compiled : CompiledRule}, program.rule? id = some compiled →
    compiled.slots = compiled.rule.vars.zipIdx

theorem Built.lawful {admits : Functor → Prop} {program : Program}
    (built : program.Built (Rule.AllFunctors admits)) : program.Lawful admits where
  opens found := by
    obtain ⟨signatures, -, -, tried⟩ := built.tryCompile found
    obtain ⟨head, goals, -, -, -, same⟩ := Rule.tryCompile_eq_ok tried
    rw [same]
    simp [CompiledRule.body, CompiledRule.frameSize, Rule.emit_eq]
  disciplined found := by
    obtain ⟨signatures, respects, kinds, tried⟩ := built.tryCompile found
    exact Rule.disciplined_tryCompile respects kinds tried
  slots found := by
    obtain ⟨signatures, -, -, tried⟩ := built.tryCompile found
    obtain ⟨head, goals, -, -, -, same⟩ := Rule.tryCompile_eq_ok tried
    rw [same]

/-- The first instruction of a rule opens its frame. -/
theorem Lawful.eq_allocate {admits : Functor → Prop} {program : Program}
    (lawful : program.Lawful admits)
    {id : RuleId} {compiled : CompiledRule} (found : program.rule? id = some compiled)
    {counter : Nat} (start : counter = 0) {instruction : Instruction}
    (here : compiled.code[counter]? = some instruction) :
    instruction = .allocate compiled.frameSize := by
  rw [start, ← Array.getElem?_toList, lawful.opens found] at here
  exact (Option.some.inj here).symm

/-- In a bank whose registers can all be named, every rule's code says what the rule says. -/
theorem Built.faithful {allowed : Rule → Prop} {program : Program} (built : program.Built allowed)
    (named : program.registers ≤ Emit.maxRegister) {id : RuleId} {compiled : CompiledRule}
    (found : program.rule? id = some compiled) : compiled.Faithful := by
  obtain ⟨signatures, respects, -, tried⟩ := built.tryCompile found
  exact Rule.faithful_tryCompile respects named tried

end Program
end HornMachine
