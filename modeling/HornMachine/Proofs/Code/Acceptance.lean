import HornMachine.Proofs.Code.Registers
import Mathlib.Data.Nat.Find

/-!
# When a rule compiles

A rule compiles if its head and goals can be called, no structure in them is too wide, each goal but
`false` calls the rule's own functor or something known, and there are slots and registers enough.
Main statements: this is exactly when it does, and the registers counted are those that the rule
needs (`Rule.compiles_iff_compilable`); and otherwise the error names a true cause, unless it is a
goal that is itself too wide that comes first, of which it is said that it cannot be called
(`Rule.blames_unless_wideGoal`).
-/

namespace HornMachine

/-- A term that can be called: an atom or a structure. -/
def Term.Callable : Term → Prop
  | .atom _ | .struct _ _ => True
  | .var _ | .num _ => False

namespace Term

private theorem functor?_eq_none_iff {term : Term} :
    term.functor? = none ↔ ¬term.Callable ∨ Functor.maxArity < term.args.length := by
  cases term with
  | atom symbol | var v | num value => simp [functor?, Callable, args]
  | struct symbol args => simp [functor?, Callable, Term.args]

/-- A term that can be called has a functor if it is not too wide. -/
theorem Callable.exists_functor {term : Term} (callable : term.Callable) (fits : term.fits = true) :
    ∃ functor, term.functor? = some functor := by
  cases term with
  | atom symbol => exact ⟨_, rfl⟩
  | struct symbol args =>
    have narrow : args.length ≤ Functor.maxArity := (allFunctors_struct.1 (fits_iff.1 fits)).1
    exact ⟨_, if_pos narrow⟩
  | var v | num value => exact callable.elim

private theorem callable_of_functor? {term : Term} {functor : Functor}
    (found : term.functor? = some functor) :
    term.Callable := by
  by_contra other
  have missing := functor?_eq_none_iff.2 (.inl other)
  rw [found] at missing
  cases missing

/-- The first structure that is too wide in a list of terms is the first one in one of them. -/
theorem exists_mem_of_firstTooWide? {terms : List Term} {wide : Term}
    (found : firstTooWide? terms = some wide) :
    ∃ term ∈ terms, term.tooWide? = some wide := by
  induction terms with
  | nil => cases found
  | cons term terms ih =>
    rw [firstTooWide?] at found
    split at found
    · next here =>
      cases found
      exact ⟨term, List.mem_cons_self, here⟩
    · obtain ⟨other, member, inside⟩ := ih found
      exact ⟨other, List.mem_cons_of_mem _ member, inside⟩

/-- A structure that is found too wide has too many arguments and lies inside the term. -/
theorem tooWide?_eq_some {term wide : Term} (found : term.tooWide? = some wide) :
    Functor.maxArity < wide.args.length ∧ Domain.Part wide term := by
  induction term with
  | atom symbol | var v | num value => cases found
  | struct symbol args ih =>
    rw [tooWide?] at found
    split at found
    · next many =>
      cases found
      exact ⟨many, .refl⟩
    · obtain ⟨arg, member, here⟩ := exists_mem_of_firstTooWide? found
      obtain ⟨many, part⟩ := ih arg member here
      exact ⟨many, .arg member part⟩

private theorem exists_tooWide? {term : Term} (wide : term.fits = false) :
    ∃ found, term.tooWide? = some found := by
  cases searched : term.tooWide? with
  | none => simp [Rule.tooWide?_eq_none_iff.1 searched] at wide
  | some found => exact ⟨found, rfl⟩

theorem exists_firstTooWide? {terms : List Term} (unfit : ∃ term ∈ terms, term.fits = false) :
    ∃ wide, firstTooWide? terms = some wide := by
  obtain ⟨term, member, unfit⟩ := unfit
  induction terms with
  | nil => cases member
  | cons other terms ih =>
    rw [firstTooWide?]
    cases searched : other.tooWide? with
    | some wide => exact ⟨wide, rfl⟩
    | none =>
      rcases List.mem_cons.1 member with rfl | later
      · rw [Rule.tooWide?_eq_none_iff.1 searched] at unfit
        cases unfit
      · exact ih later

end Term

namespace Rule

private theorem checkWidth_eq_ok_iff {term : Term} {done : Unit} :
    checkWidth term = .ok done ↔ term.fits = true := by
  rw [← tooWide?_eq_none_iff, checkWidth]
  split
  · next found => simp [found]
  · next found => simp [found]

/-! ### Goals that are taken -/

section Goals

variable {signatures : Signatures} {head : Functor} {index : Nat} {goal : Term} {resolved : Goal}

/-- What is called for a goal of a rule with the given head. -/
inductive Calls (signatures : Signatures) (head : Functor) (goal : Term) : Goal → Prop
  | fail (is_false : isFalse signatures.symbols goal = true) : Calls signatures head goal .fail
  | own (possible : isFalse signatures.symbols goal = false) (found : goal.functor? = some head) :
    Calls signatures head goal (.call goal.args (.predicate head))
  | known {functor : Functor} {target : Target} (possible : isFalse signatures.symbols goal = false)
    (found : goal.functor? = some functor) (other : functor ≠ head)
    (resolved : signatures.target? functor = some target) :
    Calls signatures head goal (.call goal.args target)

private theorem exists_functor_of_isFalse {symbols : SymbolTable}
    (is_false : isFalse symbols goal = true) :
    ∃ functor, goal.functor? = some functor := by
  cases goal with
  | atom symbol => exact ⟨_, rfl⟩
  | var v | struct symbol args | num value => cases is_false

theorem Calls.exists_functor (calls : Calls signatures head goal resolved) :
    ∃ functor, goal.functor? = some functor := by
  cases calls with
  | fail is_false => exact exists_functor_of_isFalse is_false
  | own possible found => exact ⟨head, found⟩
  | known possible found other resolved => exact ⟨_, found⟩

/-- Some call is made for a goal if it is `false`, or has the rule's functor or one that is
known. -/
theorem exists_calls_iff : (∃ resolved, Calls signatures head goal resolved) ↔
    isFalse signatures.symbols goal = true ∨
      ∃ functor, goal.functor? = some functor ∧
      (functor = head ∨ (signatures.target? functor).isSome) := by
  constructor
  · rintro ⟨resolved, calls⟩
    cases calls with
    | fail is_false => exact .inl is_false
    | own possible found => exact .inr ⟨head, found, .inl rfl⟩
    | known possible found other resolved => exact .inr ⟨_, found, .inr (by simp [resolved])⟩
  · intro known
    by_cases is_false : isFalse signatures.symbols goal = true
    · exact ⟨.fail, .fail is_false⟩
    · obtain ⟨functor, found, called⟩ := known.resolve_left is_false
      have possible := Bool.eq_false_of_not_eq_true is_false
      by_cases own : functor = head
      · exact ⟨_, .own possible (own ▸ found)⟩
      · obtain ⟨target, resolved⟩ := Option.isSome_iff_exists.1 (called.resolve_left own)
        exact ⟨_, .known possible found own resolved⟩

/-- A goal is resolved to its call if it is not too wide. -/
theorem resolveGoal_eq_ok_iff : resolveGoal signatures head index goal = .ok resolved ↔
    goal.fits = true ∧ Calls signatures head goal resolved := by
  unfold resolveGoal
  split
  · next missing =>
    refine ⟨nofun, ?_⟩
    rintro ⟨-, calls⟩
    obtain ⟨functor, found⟩ := calls.exists_functor
    rw [missing] at found
    cases found
  · next functor found =>
    rw [Except.bind_eq_ok]
    simp only [checkWidth_eq_ok_iff, exists_and_left, exists_const]
    refine and_congr_right fun _ ↦ ?_
    by_cases is_false : isFalse signatures.symbols goal = true
    · rw [if_pos is_false]
      constructor
      · rintro ⟨⟩
        exact .fail is_false
      · rintro (_ | ⟨possible, -⟩ | ⟨possible, -, -, -⟩)
        · rfl
        · simp [possible] at is_false
        · simp [possible] at is_false
    · have possible := Bool.eq_false_of_not_eq_true is_false
      rw [if_neg is_false]
      by_cases own : functor = head
      · rw [if_pos own]
        constructor
        · rintro ⟨⟩
          exact .own possible (own ▸ found)
        · rintro (here | ⟨-, -⟩ | ⟨-, again, other, -⟩)
          · exact absurd here is_false
          · rfl
          · exact absurd ((Option.some.inj (found.symm.trans again)).symm.trans own) other
      · rw [if_neg own]
        split
        · next target called =>
          constructor
          · rintro ⟨⟩
            exact .known possible found own called
          · rintro (here | ⟨-, again⟩ | ⟨-, again, -, same⟩)
            · exact absurd here is_false
            · exact absurd (Option.some.inj (found.symm.trans again)) own
            · cases found.symm.trans again
              rw [called] at same
              cases same
              rfl
        · next unknown =>
          refine ⟨nofun, ?_⟩
          rintro (here | ⟨-, again⟩ | ⟨-, again, -, same⟩)
          · exact absurd here is_false
          · exact absurd (Option.some.inj (found.symm.trans again)) own
          · cases found.symm.trans again
            rw [unknown] at same
            cases same

private theorem resolveGoals_eq_ok_iff {start : Nat} {body : List Term} {goals : List Goal} :
    resolveGoals signatures head start body = .ok goals ↔
      (∀ goal ∈ body, goal.fits = true) ∧ List.Forall₂ (Calls signatures head) body goals := by
  induction body generalizing start goals with
  | nil =>
    rw [resolveGoals, List.forall₂_nil_left_iff, Except.ok.injEq]
    constructor
    · rintro rfl
      exact ⟨nofun, rfl⟩
    · rintro ⟨-, rfl⟩
      rfl
  | cons goal body ih =>
    rw [resolveGoals, Except.bind_eq_ok, List.forall_mem_cons, List.forall₂_cons_left_iff]
    simp only [resolveGoal_eq_ok_iff, Except.bind_eq_ok, ih, Except.ok.injEq]
    constructor
    · rintro ⟨first, ⟨fits, calls⟩, rest, ⟨others, forall₂⟩, rfl⟩
      exact ⟨⟨fits, others⟩, first, rest, calls, forall₂, rfl⟩
    · rintro ⟨⟨fits, others⟩, first, rest, calls, forall₂, rfl⟩
      exact ⟨first, ⟨fits, calls⟩, rest, ⟨others, forall₂⟩, rfl⟩

end Goals

/-! ### Rules that compile -/

section Compile

variable {rule : Rule} {signatures : Signatures} {registers : Nat}

private theorem largest_reached {head : Functor} {body : List Term} {goals : List Goal}
    (resolved : List.Forall₂ (Calls signatures head) body goals) :
    largest ((reached goals).map Emit.goalInner) =
      largest ((body.takeWhile fun goal ↦ !isFalse signatures.symbols goal).map fun goal ↦
        Term.innerTotal goal.args) := by
  induction resolved with
  | nil => rfl
  | cons first _ ih =>
    cases first with
    | fail is_false => simp [reached, is_false, Emit.goalInner]
    | own possible found => simp [reached, possible, Emit.goalInner, ih]
    | known possible found other resolved => simp [reached, possible, Emit.goalInner, ih]

theorem used_emit_eq_registerNeed {head : Functor} {goals : List Goal}
    (resolved : List.Forall₂ (Calls signatures head) rule.body goals) (slots : List (Var × Nat)) :
    (rule.emit slots goals).2 = rule.registerNeed signatures.symbols := by
  rw [used_emit, largest_reached resolved, registerNeed, temporaries, goalsBeforeFalse]

/-- A rule has as many slots as it has different variables. -/
theorem length_vars (rule : Rule) : rule.vars.length = rule.occurrences.toFinset.card := by
  rw [vars, ← List.toFinset_card_of_nodup (Term.nodup_distinct _)]
  congr 1
  ext v
  rw [List.mem_toFinset, List.mem_toFinset, Term.mem_distinct]

theorem compile_eq_ok_iff {compiled : CompiledRule} :
    rule.compile signatures registers = .ok compiled ↔
      rule.head.fits = true ∧ ∃ head goals, rule.head.functor? = some head ∧
        (∀ goal ∈ rule.body, goal.fits = true) ∧
        List.Forall₂ (Calls signatures head) rule.body goals ∧
        rule.vars.length ≤ Emit.maxRegister ∧ rule.registerNeed signatures.symbols ≤ registers ∧
        compiled = { rule, head, code := (rule.emit rule.vars.zipIdx goals).1.toArray,
                     slots := rule.vars.zipIdx,
                     registers := rule.registerNeed signatures.symbols } := by
  have tried : rule.compile signatures registers = .ok compiled ↔
      rule.tryCompile signatures registers = .ok compiled := by
    rw [compile]
    split
    · next found same => rw [same, Except.ok.injEq, Except.ok.injEq]
    · next issue same => simp [same]
  rw [tried, tryCompile, Except.bind_eq_ok]
  simp only [checkWidth_eq_ok_iff, exists_and_left, exists_const]
  refine and_congr_right fun _ ↦ ?_
  split
  · next missing => simp [missing]
  · next head found =>
    rw [Except.bind_eq_ok]
    simp only [resolveGoals_eq_ok_iff, List.length_zipIdx, found, Option.some.injEq,
      exists_eq_left', and_assoc, exists_and_left]
    refine and_congr_right fun _ ↦ exists_congr fun goals ↦ and_congr_right fun resolved ↦ ?_
    rw [used_emit_eq_registerNeed resolved]
    by_cases many : rule.vars.length > Emit.maxRegister
    · simp [many, Nat.not_le.2 many]
    · by_cases needs : rule.registerNeed signatures.symbols > registers
      · simp [many, needs, Nat.not_le.2 needs]
      · simp [many, needs, Nat.le_of_not_lt many, Nat.le_of_not_lt needs, eq_comm]

/-- What is asked of a rule that compiles for a bank of `registers` registers. -/
structure Compilable (rule : Rule) (signatures : Signatures) (registers : Nat) : Prop where
  head : rule.head.Callable
  goals : ∀ goal ∈ rule.body, goal.Callable
  narrow : ∀ term ∈ rule.head :: rule.body, term.AllFunctors fun functor ↦ functor.arity ≤ 255
  known : ∀ goal ∈ rule.body, isFalse signatures.symbols goal = false → ∃ functor,
    goal.functor? = some functor ∧
      (rule.head.functor? = some functor ∨ (signatures.target? functor).isSome)
  slots : rule.occurrences.toFinset.card ≤ 65535
  room : rule.registerNeed signatures.symbols ≤ registers

private theorem compilable_of_compile {compiled : CompiledRule}
    (ended : rule.compile signatures registers = .ok compiled) :
    rule.Compilable signatures registers ∧
    compiled.registers = rule.registerNeed signatures.symbols := by
  obtain ⟨fits, head, goals, found, narrow, resolved, few, room, rfl⟩ := compile_eq_ok_iff.1 ended
  have each (goal : Term) (member : goal ∈ rule.body) :
    ∃ resolved, Calls signatures head goal resolved := by
    obtain ⟨index, lower, rfl⟩ := List.getElem_of_mem member
    exact ⟨_, (List.forall₂_iff_get.1 resolved).2 index lower (resolved.length_eq ▸ lower)⟩
  refine ⟨⟨Term.callable_of_functor? found, ?_, ?_, ?_, ?_, room⟩, rfl⟩
  · intro goal member
    obtain ⟨resolved, calls⟩ := each goal member
    obtain ⟨functor, called⟩ := calls.exists_functor
    exact Term.callable_of_functor? called
  · intro term member
    apply Term.fits_iff.1
    rcases List.mem_cons.1 member with rfl | member
    · exact fits
    · exact narrow term member
  · intro goal member possible
    rcases exists_calls_iff.1 (each goal member) with is_false | ⟨functor, called, own | known⟩
    · simp [possible] at is_false
    · exact ⟨functor, called, .inl (own ▸ found)⟩
    · exact ⟨functor, called, .inr known⟩
  · rw [← length_vars]
    exact few

theorem Compilable.exists_compile (compilable : rule.Compilable signatures registers) :
    ∃ compiled, rule.compile signatures registers = .ok compiled ∧
      compiled.registers = rule.registerNeed signatures.symbols := by
  have fits := Term.fits_iff.2 (compilable.narrow _ List.mem_cons_self)
  have narrow (goal : Term) (member : goal ∈ rule.body) : goal.fits = true :=
    Term.fits_iff.2 (compilable.narrow goal (List.mem_cons_of_mem _ member))
  obtain ⟨head, found⟩ := compilable.head.exists_functor fits
  have each (goal : Term) (member : goal ∈ rule.body) :
    ∃ resolved, Calls signatures head goal resolved := by
    apply exists_calls_iff.2
    by_cases is_false : isFalse signatures.symbols goal = true
    · exact .inl is_false
    · obtain ⟨functor, called, known⟩ :=
        compilable.known goal member (Bool.eq_false_of_not_eq_true is_false)
      refine .inr ⟨functor, called, known.imp_left fun own ↦ ?_⟩
      exact (Option.some.inj (found.symm.trans own)).symm
  have : Nonempty Goal := ⟨.fail⟩
  choose! resolve calls using each
  have resolved : List.Forall₂ (Calls signatures head) rule.body (rule.body.map resolve) :=
    List.forall₂_map_right_iff.2 (List.forall₂_same.2 calls)
  exact ⟨_, compile_eq_ok_iff.2 ⟨fits, head, _, found, narrow, resolved,
    (length_vars rule).trans_le compilable.slots, compilable.room, rfl⟩, rfl⟩

/-- A rule compiles exactly if it is compilable, and then the registers counted are those that it
needs. -/
theorem compiles_iff_compilable (rule : Rule) (signatures : Signatures) (registers count : Nat) :
    (∃ compiled, rule.compile signatures registers = .ok compiled ∧ compiled.registers = count) ↔
      rule.Compilable signatures registers ∧ count = rule.registerNeed signatures.symbols := by
  constructor
  · rintro ⟨compiled, ended, rfl⟩
    exact compilable_of_compile ended
  · rintro ⟨compilable, rfl⟩
    exact compilable.exists_compile

end Compile

/-! ### Rules that do not compile -/

section Refusals

variable {rule : Rule} {signatures : Signatures} {registers : Nat} {head : Functor}

/-- A goal that a rule can have: no structure in it is too wide, and it is `false` or calls the
rule's own functor or one that is known. -/
def Accepts (rule : Rule) (signatures : Signatures) (goal : Term) : Prop :=
  goal.fits = true ∧ (isFalse signatures.symbols goal = true ∨ ∃ functor,
    goal.functor? = some functor ∧
      (rule.head.functor? = some functor ∨ (signatures.target? functor).isSome))

private theorem accepts_iff (found : rule.head.functor? = some head) {goal : Term} :
    rule.Accepts signatures goal ↔
    goal.fits = true ∧ ∃ resolved, Calls signatures head goal resolved := by
  rw [Accepts, exists_calls_iff, found]
  simp only [Option.some.injEq, eq_comm]

private theorem resolveGoal_of_functor?_eq_none {index : Nat} {goal : Term}
    (missing : goal.functor? = none) :
    resolveGoal signatures head index goal = .error (.invalidGoal index goal) := by
  rw [resolveGoal, missing]

private theorem resolveGoal_of_tooWide? {index : Nat} {goal wide : Term} {functor : Functor}
    (found : goal.functor? = some functor) (inside : goal.tooWide? = some wide) :
    resolveGoal signatures head index goal = .error (.arityOverflow wide) := by
  simp only [resolveGoal, found, checkWidth, inside]
  rfl

/-- A goal is refused because it has no functor, holds something too wide, or calls nothing
known. -/
theorem resolveGoal_eq_error {index : Nat} {goal : Term} {issue : CompileIssue}
    (refused : resolveGoal signatures head index goal = .error issue) :
    (goal.functor? = none ∧ issue = .invalidGoal index goal) ∨
      (∃ wide, goal.tooWide? = some wide ∧ issue = .arityOverflow wide) ∨
      ∃ functor, goal.functor? = some functor ∧ isFalse signatures.symbols goal = false ∧
      functor ≠ head ∧
        signatures.target? functor = none ∧ issue = .unknownPredicate index functor := by
  cases called : goal.functor? with
  | none =>
    rw [resolveGoal_of_functor?_eq_none called] at refused
    cases refused
    exact .inl ⟨rfl, rfl⟩
  | some functor =>
    cases inside : goal.tooWide? with
    | some wide =>
      rw [resolveGoal_of_tooWide? called inside] at refused
      cases refused
      exact .inr (.inl ⟨wide, rfl, rfl⟩)
    | none =>
      right
      right
      have checked : checkWidth goal = .ok () :=
        checkWidth_eq_ok_iff.2 (tooWide?_eq_none_iff.1 inside)
      rw [resolveGoal, called] at refused
      simp only [checked, bind, Except.bind] at refused
      split at refused
      · cases refused
      · next possible =>
        split at refused
        · cases refused
        · next other =>
          split at refused
          · cases refused
          · next unknown =>
            cases refused
            exact ⟨functor, rfl, Bool.eq_false_of_not_eq_true possible, other, unknown, rfl⟩

/-- The first goal that is refused tells why. -/
theorem resolveGoals_eq_error_iff (found : rule.head.functor? = some head) {start : Nat}
    {body : List Term}
    {issue : CompileIssue} : resolveGoals signatures head start body = .error issue ↔
      ∃ index goal, body[index]? = some goal ∧
      (∀ earlier ∈ body.take index, rule.Accepts signatures earlier) ∧
        resolveGoal signatures head (start + index) goal = .error issue := by
  induction body generalizing start with
  | nil => simp [resolveGoals]
  | cons goal body ih =>
    rw [resolveGoals]
    cases first : resolveGoal signatures head start goal with
    | error reason =>
      simp only [bind, Except.bind, Except.error.injEq]
      constructor
      · rintro rfl
        exact ⟨0, goal, rfl, by simp, first⟩
      · rintro ⟨index, other, here, before, refused⟩
        cases index with
        | zero =>
          cases here
          exact Except.error.inj (first.symm.trans refused)
        | succ index =>
          obtain ⟨resolved, taken⟩ := (accepts_iff found).1 (before goal (by simp))
          obtain ⟨call, calls⟩ := taken
          rw [resolveGoal_eq_ok_iff.2 ⟨resolved, calls⟩] at first
          cases first
    | ok call =>
      have accepted : rule.Accepts signatures goal := by
        obtain ⟨fits, calls⟩ := resolveGoal_eq_ok_iff.1 first
        exact (accepts_iff found).2 ⟨fits, call, calls⟩
      have rest : (resolveGoals signatures head (start + 1) body).bind (fun rest ↦
        .ok (call :: rest)) =
          .error issue ↔ resolveGoals signatures head (start + 1) body = .error issue := by
        cases resolveGoals signatures head (start + 1) body <;> simp [Except.bind]
      simp only [bind, Except.bind] at rest ⊢
      rw [rest, ih]
      constructor
      · rintro ⟨index, other, here, before, refused⟩
        refine ⟨index + 1, other, here, ?_, ?_⟩
        · rw [List.take_succ_cons]
          exact List.forall_mem_cons.2 ⟨accepted, before⟩
        · rwa [Nat.add_right_comm, Nat.add_assoc] at refused
      · rintro ⟨index, other, here, before, refused⟩
        cases index with
        | zero =>
          cases here
          rw [Nat.add_zero, first] at refused
          cases refused
        | succ index =>
          rw [List.take_succ_cons] at before
          refine ⟨index, other, here, (List.forall_mem_cons.1 before).2, ?_⟩
          rwa [Nat.add_right_comm, Nat.add_assoc]

/-- Why a rule does not compile. What comes later is only looked at if all before it is in order. -/
inductive Refused (rule : Rule) (signatures : Signatures) (registers : Nat) : CompileIssue → Prop
  | wideHead {wide : Term} (found : rule.head.tooWide? = some wide) :
    Refused rule signatures registers (.arityOverflow wide)
  | head (fits : rule.head.fits = true) (missing : rule.head.functor? = none) :
    Refused rule signatures registers .invalidHead
  | goal {head : Functor} {index : Nat} {goal : Term} {issue : CompileIssue}
    (fits : rule.head.fits = true)
    (found : rule.head.functor? = some head) (here : rule.body[index]? = some goal)
    (before : ∀ earlier ∈ rule.body.take index, rule.Accepts signatures earlier)
    (refused : resolveGoal signatures head index goal = .error issue) :
    Refused rule signatures registers issue
  | slots {head : Functor} (fits : rule.head.fits = true) (found : rule.head.functor? = some head)
    (accepted : ∀ goal ∈ rule.body, rule.Accepts signatures goal)
    (many : Emit.maxRegister < rule.vars.length) :
    Refused rule signatures registers (.registerOverflow rule.vars.length Emit.maxRegister)
  | registers {head : Functor} (fits : rule.head.fits = true)
    (found : rule.head.functor? = some head)
    (accepted : ∀ goal ∈ rule.body, rule.Accepts signatures goal)
    (few : rule.vars.length ≤ Emit.maxRegister)
    (needs : registers < rule.registerNeed signatures.symbols) :
    Refused rule signatures registers
    (.registerOverflow (rule.registerNeed signatures.symbols) registers)

/-- Goals that are all accepted are resolved. -/
theorem exists_resolveGoals (found : rule.head.functor? = some head)
    (accepted : ∀ goal ∈ rule.body, rule.Accepts signatures goal) :
    ∃ goals, resolveGoals signatures head 0 rule.body = .ok goals := by
  cases resolved : resolveGoals signatures head 0 rule.body with
  | ok goals => exact ⟨goals, rfl⟩
  | error issue =>
    obtain ⟨index, goal, here, -, refused⟩ := (resolveGoals_eq_error_iff found).1 resolved
    obtain ⟨fits, call, calls⟩ := (accepts_iff found).1 (accepted goal (List.mem_of_getElem? here))
    rw [resolveGoal_eq_ok_iff.2 ⟨fits, calls⟩] at refused
    cases refused

private theorem accepts_of_resolveGoals (found : rule.head.functor? = some head) {goals : List Goal}
    (resolved : resolveGoals signatures head 0 rule.body = .ok goals) :
    ∀ goal ∈ rule.body, rule.Accepts signatures goal := by
  intro goal member
  obtain ⟨fits, calls⟩ := resolveGoals_eq_ok_iff.1 resolved
  obtain ⟨index, lower, rfl⟩ := List.getElem_of_mem member
  exact (accepts_iff found).2
    ⟨fits _ member, _, (List.forall₂_iff_get.1 calls).2 index lower (calls.length_eq ▸ lower)⟩

private theorem tryCompile_of_tooWide? {wide : Term} (found : rule.head.tooWide? = some wide) :
    rule.tryCompile signatures registers = .error (.arityOverflow wide) := by
  simp only [tryCompile, checkWidth, found]
  rfl

private theorem tryCompile_of_functor?_eq_none (fits : rule.head.fits = true)
    (missing : rule.head.functor? = none) :
    rule.tryCompile signatures registers = .error .invalidHead := by
  have checked : checkWidth rule.head = .ok () := checkWidth_eq_ok_iff.2 fits
  simp only [tryCompile, checked, missing]
  rfl

/-- Once the head is in order, the goals are resolved, and then slots and registers are counted. -/
theorem tryCompile_of_functor? (fits : rule.head.fits = true)
    (found : rule.head.functor? = some head) :
    rule.tryCompile signatures registers =
      (resolveGoals signatures head 0 rule.body).bind fun goals ↦
        if Emit.maxRegister < rule.vars.length then
          .error (.registerOverflow rule.vars.length Emit.maxRegister)
        else if registers < (rule.emit rule.vars.zipIdx goals).2 then
          .error (.registerOverflow (rule.emit rule.vars.zipIdx goals).2 registers)
        else .ok { rule, head, code := (rule.emit rule.vars.zipIdx goals).1.toArray,
                   slots := rule.vars.zipIdx,
                   registers := (rule.emit rule.vars.zipIdx goals).2 } := by
  have checked : checkWidth rule.head = .ok () := checkWidth_eq_ok_iff.2 fits
  simp only [tryCompile, checked, found, List.length_zipIdx]
  rfl

private theorem refused_of_tryCompile {issue : CompileIssue}
    (failed : rule.tryCompile signatures registers = .error issue) :
    Refused rule signatures registers issue := by
  cases wide : rule.head.tooWide? with
  | some found =>
    rw [tryCompile_of_tooWide? wide] at failed
    cases failed
    exact .wideHead wide
  | none =>
    have fits : rule.head.fits = true := tooWide?_eq_none_iff.1 wide
    cases found : rule.head.functor? with
    | none =>
      rw [tryCompile_of_functor?_eq_none fits found] at failed
      cases failed
      exact .head fits found
    | some head =>
      rw [tryCompile_of_functor? fits found] at failed
      cases resolved : resolveGoals signatures head 0 rule.body with
      | error reason =>
        rw [resolved] at failed
        cases failed
        obtain ⟨index, goal, here, before, refused⟩ := (resolveGoals_eq_error_iff found).1 resolved
        exact .goal fits found here before (Nat.zero_add index ▸ refused)
      | ok goals =>
        have accepted := accepts_of_resolveGoals found resolved
        rw [resolved, Except.bind, used_emit_eq_registerNeed (resolveGoals_eq_ok_iff.1 resolved).2]
          at failed
        split at failed
        · next many =>
          cases failed
          exact .slots fits found accepted many
        · next few =>
          split at failed
          · next needs =>
            cases failed
            exact .registers fits found accepted (Nat.le_of_not_lt few) needs
          · cases failed

private theorem tryCompile_of_refused {issue : CompileIssue}
    (refused : Refused rule signatures registers issue) :
    rule.tryCompile signatures registers = .error issue := by
  cases refused with
  | wideHead found => exact tryCompile_of_tooWide? found
  | head fits missing => exact tryCompile_of_functor?_eq_none fits missing
  | goal fits found here before refused =>
    have failed := (resolveGoals_eq_error_iff found).2
      ⟨_, _, here, before, by rwa [Nat.zero_add]⟩
    rw [tryCompile_of_functor? fits found, failed]
    rfl
  | slots fits found accepted many =>
    obtain ⟨goals, resolved⟩ := exists_resolveGoals found accepted
    rw [tryCompile_of_functor? fits found, resolved, Except.bind, if_pos many]
  | registers fits found accepted few needs =>
    obtain ⟨goals, resolved⟩ := exists_resolveGoals found accepted
    rw [tryCompile_of_functor? fits found, resolved, Except.bind, if_neg (Nat.not_lt.2 few),
      used_emit_eq_registerNeed (resolveGoals_eq_ok_iff.1 resolved).2, if_pos needs]

/-- The error of a rule that does not compile is the reason why it does not. -/
theorem compile_eq_error_iff {error : CompileError} :
    rule.compile signatures registers = .error error ↔
    error.rule = rule ∧ Refused rule signatures registers error.issue := by
  obtain ⟨other, reason⟩ := error
  rw [compile]
  split
  · next compiled same =>
    refine ⟨nofun, ?_⟩
    rintro ⟨-, refused⟩
    cases same.symm.trans (tryCompile_of_refused refused)
  · next issue same =>
    simp only [Except.error.injEq, CompileError.mk.injEq]
    constructor
    · rintro ⟨rfl, rfl⟩
      exact ⟨rfl, refused_of_tryCompile same⟩
    · rintro ⟨rfl, refused⟩
      exact ⟨rfl, Except.error.inj (same.symm.trans (tryCompile_of_refused refused))⟩

/-- What an issue says of a rule is so. -/
def Holds (rule : Rule) (signatures : Signatures) (registers : Nat) : CompileIssue → Prop
  | .invalidHead => ¬rule.head.Callable
  | .invalidGoal index goal => rule.body[index]? = some goal ∧ ¬goal.Callable
  | .arityOverflow wide =>
    255 < wide.args.length ∧ ∃ term ∈ rule.head :: rule.body, Domain.Part wide term
  | .unknownPredicate index functor => ∃ goal, rule.body[index]? = some goal ∧
      isFalse signatures.symbols goal = false ∧ goal.functor? = some functor ∧
      rule.head.functor? ≠ some functor ∧ signatures.target? functor = none
  | .registerOverflow needed available => available < needed ∧
      ((needed = rule.occurrences.toFinset.card ∧ available = 65535) ∨
        (needed = rule.registerNeed signatures.symbols ∧ available = registers))

/-- A goal that is itself too wide, where all that is looked at before it is in order. -/
structure WideGoal (rule : Rule) (signatures : Signatures) (index : Nat) : Prop where
  head : rule.head.Callable
  fits : rule.head.fits = true
  before : ∀ earlier ∈ rule.body.take index, rule.Accepts signatures earlier
  wide : ∃ symbol args, rule.body[index]? = some (.struct symbol args) ∧ 255 < args.length

/-- The only defect of a rule, as far as its head and goals tell, is that some structure is too
wide. -/
structure OnlyTooWide (rule : Rule) (signatures : Signatures) : Prop where
  head : rule.head.Callable
  goals : ∀ goal ∈ rule.body, goal.Callable
  wide : ∃ term ∈ rule.head :: rule.body, term.fits = false
  accepted : ∀ goal ∈ rule.body, goal.fits = true → rule.Accepts signatures goal

/-- A goal that is itself too wide has no functor, and that is found out before its width. -/
theorem WideGoal.compile {index : Nat} (wideGoal : rule.WideGoal signatures index)
    (registers : Nat) :
    ∃ goal, rule.body[index]? = some goal ∧ goal.Callable ∧
      rule.compile signatures registers = .error ⟨rule, .invalidGoal index goal⟩ := by
  obtain ⟨head, found⟩ := wideGoal.head.exists_functor wideGoal.fits
  obtain ⟨symbol, args, here, many⟩ := wideGoal.wide
  have missing : (Term.struct symbol args).functor? = none :=
    Term.functor?_eq_none_iff.2 (.inr many)
  refine ⟨_, here, trivial, compile_eq_error_iff.2 ⟨rfl, ?_⟩⟩
  exact .goal wideGoal.fits found here wideGoal.before (resolveGoal_of_functor?_eq_none missing)

/-- A reason of refusal is a true one unless a goal is itself too wide. -/
theorem Refused.holds {issue : CompileIssue} (refused : Refused rule signatures registers issue)
    (absent : ¬∃ index, rule.WideGoal signatures index) :
    Holds rule signatures registers issue := by
  cases refused with
  | wideHead found =>
    obtain ⟨many, part⟩ := Term.tooWide?_eq_some found
    exact ⟨many, _, List.mem_cons_self, part⟩
  | head fits missing =>
    intro callable
    obtain ⟨functor, found⟩ := callable.exists_functor fits
    rw [missing] at found
    cases found
  | @goal head index goal _ fits found here before refused =>
    rcases resolveGoal_eq_error refused with ⟨missing, rfl⟩ | ⟨wide, inside, rfl⟩ |
      ⟨functor, called, possible, other, unknown, rfl⟩
    · refine ⟨here, fun callable ↦ absent ⟨index, ?_⟩⟩
      have many := (Term.functor?_eq_none_iff.1 missing).resolve_left (not_not_intro callable)
      refine ⟨Term.callable_of_functor? found, fits, before, ?_⟩
      cases goal with
      | struct symbol args => exact ⟨symbol, args, here, many⟩
      | atom symbol | var v | num value => cases many
    · obtain ⟨many, part⟩ := Term.tooWide?_eq_some inside
      exact ⟨many, goal, List.mem_cons_of_mem _ (List.mem_of_getElem? here), part⟩
    · refine ⟨goal, here, possible, called, ?_, unknown⟩
      rw [found]
      exact fun same ↦ other (Option.some.inj same).symm
  | slots fits found accepted many =>
    rw [length_vars] at many ⊢
    exact ⟨many, .inl ⟨rfl, rfl⟩⟩
  | registers fits found accepted few needs => exact ⟨needs, .inr ⟨rfl, rfl⟩⟩

/-- If what is too wide is the only defect, it is found, unless a goal is itself too wide. -/
theorem OnlyTooWide.refused (only : rule.OnlyTooWide signatures) (registers : Nat)
    (absent : ¬∃ index, rule.WideGoal signatures index) :
    ∃ wide, Refused rule signatures registers (.arityOverflow wide) := by
  by_cases fits : rule.head.fits = true
  · obtain ⟨head, found⟩ := only.head.exists_functor fits
    have exists_wide : ∃ index : Nat, ∃ goal : Term, rule.body[index]? = some goal ∧
      goal.fits = false := by
      obtain ⟨term, member, wide⟩ := only.wide
      rcases List.mem_cons.1 member with rfl | member
      · rw [fits] at wide
        cases wide
      · obtain ⟨index, here⟩ := List.getElem?_of_mem member
        exact ⟨index, term, here, wide⟩
    classical
    -- Only the first goal that holds something too wide is looked at; those before it are accepted.
    obtain ⟨goal, here, wide⟩ := Nat.find_spec exists_wide
    have before : ∀ earlier ∈ rule.body.take (Nat.find exists_wide),
      rule.Accepts signatures earlier := by
      intro earlier member
      obtain ⟨index, lower, same⟩ := List.mem_take_iff_getElem.1 member
      have narrow := Nat.find_min exists_wide (lower.trans_le (Nat.min_le_left _ _))
      have inside := List.mem_of_mem_take member
      apply only.accepted earlier inside
      by_contra other
      exact narrow ⟨earlier, List.getElem?_eq_some_iff.2 ⟨_, same⟩,
        Bool.eq_false_of_not_eq_true other⟩
    have callable := only.goals goal (List.mem_of_getElem? here)
    obtain ⟨inner, inside⟩ := Term.exists_tooWide? wide
    cases called : goal.functor? with
    | some functor =>
      exact ⟨inner, .goal fits found here before (resolveGoal_of_tooWide? called inside)⟩
    | none =>
      have many := (Term.functor?_eq_none_iff.1 called).resolve_left (not_not_intro callable)
      cases goal with
      | struct symbol args =>
        exact absurd ⟨_, only.head, fits, before, symbol, args, here, many⟩ absent
      | atom symbol | var v | num value => cases many
  · obtain ⟨wide, found⟩ := Term.exists_tooWide? (Bool.eq_false_of_not_eq_true fits)
    exact ⟨wide, .wideHead found⟩

/-- The error of a rule that does not compile names a true cause, unless the first thing that is not
in order is a goal that is itself too wide, of which it is said that it cannot be called. A rule
with no other defect than structures that are too wide is rejected for one of them, with the same
exception. -/
theorem blames_unless_wideGoal (rule : Rule) (signatures : Signatures) (registers : Nat) :
    (∀ error, rule.compile signatures registers = .error error → error.rule = rule ∧
      (Holds rule signatures registers error.issue ↔ ¬∃ index, rule.WideGoal signatures index)) ∧
    (∀ index, rule.WideGoal signatures index → ∃ goal, rule.body[index]? = some goal ∧
      goal.Callable ∧
      rule.compile signatures registers = .error ⟨rule, .invalidGoal index goal⟩) ∧
    (rule.OnlyTooWide signatures →
      ((∃ wide, rule.compile signatures registers = .error ⟨rule, .arityOverflow wide⟩) ↔
        ¬∃ index, rule.WideGoal signatures index)) := by
  refine ⟨?_, fun index wideGoal ↦ wideGoal.compile registers, ?_⟩
  · intro error failed
    obtain ⟨same, refused⟩ := compile_eq_error_iff.1 failed
    refine ⟨same, ?_, refused.holds⟩
    rintro holds ⟨index, wideGoal⟩
    obtain ⟨goal, here, callable, blamed⟩ := wideGoal.compile registers
    rw [blamed] at failed
    cases failed
    exact holds.2 callable
  · intro only
    constructor
    · rintro ⟨wide, failed⟩ ⟨index, wideGoal⟩
      obtain ⟨goal, here, callable, blamed⟩ := wideGoal.compile registers
      rw [blamed] at failed
      cases failed
    · intro absent
      obtain ⟨wide, refused⟩ := only.refused registers absent
      exact ⟨wide, compile_eq_error_iff.2 ⟨rfl, refused⟩⟩

/-- A goal with 256 arguments is said to be no atom or structure, though it is one. -/
theorem blames_wide_goal :
    let rule : Rule := ⟨.atom ⟨0⟩, [.struct ⟨1⟩ (List.replicate 256 (.num 1))], none⟩
    rule.OnlyTooWide ⟨.empty, fun _ ↦ none⟩ ∧ rule.WideGoal ⟨.empty, fun _ ↦ none⟩ 0 ∧
      (∃ goal, rule.body[0]? = some goal ∧ goal.Callable ∧
        rule.compile ⟨.empty, fun _ ↦ none⟩ 8 = .error ⟨rule, .invalidGoal 0 goal⟩ ∧
        ¬Holds rule ⟨.empty, fun _ ↦ none⟩ 8 (.invalidGoal 0 goal)) ∧
      ¬∃ wide, rule.compile ⟨.empty, fun _ ↦ none⟩ 8 = .error ⟨rule, .arityOverflow wide⟩ := by
  intro rule
  have wide : (Term.struct ⟨1⟩ (List.replicate 256 (.num 1))).fits = false := by
    by_contra fits
    have narrow :=
      (Term.allFunctors_struct.1 (Term.fits_iff.1 (Bool.eq_true_of_not_eq_false fits))).1
    rw [List.length_replicate] at narrow
    exact absurd narrow (by decide)
  have only : rule.OnlyTooWide ⟨.empty, fun _ ↦ none⟩ := by
    refine ⟨trivial, ?_, ?_, ?_⟩
    · intro goal member
      cases List.mem_singleton.1 member
      trivial
    · exact ⟨_, List.mem_cons_of_mem _ List.mem_cons_self, wide⟩
    · intro goal member fits
      cases List.mem_singleton.1 member
      rw [wide] at fits
      cases fits
  have wideGoal : rule.WideGoal ⟨.empty, fun _ ↦ none⟩ 0 := by
    refine ⟨trivial, rfl, nofun, ⟨1⟩, _, rfl, ?_⟩
    rw [List.length_replicate]
    decide
  obtain ⟨blame, blamed, overflow⟩ := blames_unless_wideGoal rule ⟨.empty, fun _ ↦ none⟩ 8
  obtain ⟨goal, here, callable, failed⟩ := blamed 0 wideGoal
  refine ⟨only, wideGoal, ⟨goal, here, callable, failed, fun holds ↦ ?_⟩, fun found ↦ ?_⟩
  · exact (blame _ failed).2.1 holds ⟨0, wideGoal⟩
  · exact (overflow only).1 found ⟨0, wideGoal⟩

end Refusals

end Rule
end HornMachine
