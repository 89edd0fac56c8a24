import HornMachine.Code.Compile
import HornMachine.FactStore

/-!
# Programs

A program is a list of compiled rules with the functors that may be called. The clauses of a functor
are its rules in the order they were added; an index by functor holds them.
-/

namespace HornMachine

/-- Identifiers of the rules whose head has a functor, in order. -/
def Program.clausesAmong (rules : Array CompiledRule) (functor : Functor) : List RuleId :=
  ((List.range rules.size).map RuleId.mk).filter fun id ↦
    rules[id.index]?.any fun compiled ↦ compiled.head = functor

/-- Compiled rules and declared functors, for machines with a given bank of registers. -/
structure Program where
  registers : Nat
  rules : Array CompiledRule
  index : Std.TreeMap Functor (Array RuleId)
  declared : Std.TreeSet Functor
  toList_getD_index : ∀ functor : Functor,
    (index.getD functor #[]).toList = Program.clausesAmong rules functor

namespace Program

/-- A program without rules. -/
def new (registers : Nat) : Program where
  registers
  rules := #[]
  index := ∅
  declared := ∅
  toList_getD_index functor := by simp [clausesAmong]

/-- Number of rules. -/
def size (program : Program) : Nat := program.rules.size

/-- The rule with an identifier. -/
def rule? (program : Program) (id : RuleId) : Option CompiledRule := program.rules[id.index]?

/-- Identifiers of all rules in order. -/
def ruleIds (program : Program) : List RuleId := (List.range program.size).map RuleId.mk

/-- Identifiers of the rules for a functor, in the order they are tried. -/
def clauses (program : Program) (functor : Functor) : Array RuleId :=
  program.index.getD functor #[]

/-- The clauses of a functor are the rules with that head, in the order they were added. -/
theorem toList_clauses (program : Program) (functor : Functor) :
    (program.clauses functor).toList =
      program.ruleIds.filter fun id ↦
        (program.rule? id).any fun compiled ↦ compiled.head = functor :=
  program.toList_getD_index functor

/-- A rule added after the others is the last clause of its functor. -/
theorem clausesAmong_push (rules : Array CompiledRule) (compiled : CompiledRule)
    (functor : Functor) :
    clausesAmong (rules.push compiled) functor =
      clausesAmong rules functor ++ if compiled.head = functor then [⟨rules.size⟩] else [] := by
  have older : ∀ id ∈ (List.range rules.size).map RuleId.mk,
      (rules.push compiled)[id.index]? = rules[id.index]? := by
    intro id member
    obtain ⟨i, inside, rfl⟩ := List.mem_map.1 member
    have bound : i < rules.size := List.mem_range.1 inside
    simp [Array.getElem?_push, Nat.ne_of_lt bound]
  rw [clausesAmong, Array.size_push, List.range_succ, List.map_append, List.filter_append,
    clausesAmong]
  congr 1
  · exact List.filter_congr fun id member ↦ by rw [older id member]
  · by_cases same : compiled.head = functor <;> simp [same]

/-- Let a functor be called. -/
def declare (program : Program) (functor : Functor) : Program :=
  { program with declared := program.declared.insert functor }

/-- Let all functors of a store be called. -/
def declareFacts (program : Program) (store : FactStore) : Program :=
  store.predicates.foldl declare program

/-- A functor calls the builtin of its name, or else the predicate if that is declared or has
rules. -/
def signatures (program : Program) (symbols : SymbolTable) : Signatures where
  symbols
  target? functor :=
    match Builtin.ofFunctor? symbols functor with
    | some builtin => some (.builtin builtin functor.arity)
    | none =>
      if program.declared.contains functor || program.index.contains functor then
        some (.predicate functor)
      else none

/-- Compile a rule without adding it. -/
def compile (program : Program) (symbols : SymbolTable) (rule : Rule) :
    Except CompileError CompiledRule :=
  rule.compile (program.signatures symbols) program.registers

/-- Add a compiled rule after the others. -/
def append (program : Program) (compiled : CompiledRule) : Program where
  registers := program.registers
  rules := program.rules.push compiled
  index := program.index.alter compiled.head fun ids ↦ (ids.getD #[]).push ⟨program.size⟩
  declared := program.declared
  toList_getD_index functor := by
    rw [clausesAmong_push, ← program.toList_getD_index, Std.TreeMap.getD_alter]
    by_cases same : compiled.head = functor
    · subst same
      simp [size, Std.TreeMap.getD_eq_getD_getElem?]
    · simp [same]

/-- Compile a rule and add it after the others. -/
def addRule (program : Program) (symbols : SymbolTable) (rule : Rule) :
    Except CompileError (RuleId × Program) := do
  let compiled ← program.compile symbols rule
  .ok (⟨program.size⟩, program.append compiled)

/-- The rules with their code, an empty line between them. -/
def listing (program : Program) (symbols : SymbolTable) : String :=
  "\n\n".intercalate (program.rules.toList.zipIdx.map fun (compiled, index) ↦
    (RuleId.mk index).text ++ " " ++ compiled.rule.text symbols ++ "\n" ++
      Code.listing compiled.code.toList symbols)

end Program
end HornMachine
