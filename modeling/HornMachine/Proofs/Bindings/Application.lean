import HornMachine.Proofs.Bindings.Solution
import Mathlib.Logic.Function.Iterate

/-!
# Bindings substituted until none is left

Substituting bindings goes down terms and follows the bindings of the variables it meets, from left
to right. Nothing bounds this but the path of variables that are being replaced, which breaks it off
at a variable met below itself; `Gives` is this recursion. On the other side stand passes over the
whole term that each replace all its bound variables by what they are bound to.

Main statement: for all bindings and terms the recursion ends. It breaks off exactly if a bound
variable that is reached reaches itself, and otherwise gives the one term without bound variables
that passes lead to, in which nothing is left to substitute (`apply_exact`).
-/

namespace HornMachine.Bindings

open Relation (TransGen ReflTransGen)

variable {bindings : Bindings}

/-! ### The recursion ends -/

mutual

/-- What comes of a term below the variables on a path. -/
inductive Gives (bindings : Bindings) : List Var → Term → Except CyclicBinding Term → Prop
  | atom {path : List Var} (symbol : Symbol) :
    Gives bindings path (.atom symbol) (.ok (.atom symbol))
  | num {path : List Var} (value : Int) : Gives bindings path (.num value) (.ok (.num value))
  | unbound {path : List Var} {v : Var} (free : bindings.lookup? v = none) :
    Gives bindings path (.var v) (.ok (.var v))
  | met {path : List Var} {v : Var} {bound : Term} (found : bindings.lookup? v = some bound)
    (passed : v ∈ path) : Gives bindings path (.var v) (.error ⟨v⟩)
  | entered {path : List Var} {v : Var} {bound : Term} {answer : Except CyclicBinding Term}
    (found : bindings.lookup? v = some bound) (fresh : v ∉ path)
    (below : Gives bindings (v :: path) bound answer) : Gives bindings path (.var v) answer
  /-- A structure gives a structure, if its arguments give terms. -/
  | struct {path : List Var} {symbol : Symbol} {args : List Term}
    {answers : Except CyclicBinding (List Term)} (each : GivesAll bindings path args answers) :
    Gives bindings path (.struct symbol args) (answers.map (.struct symbol))

/-- What comes of a list of terms: the terms they give, up to the first cycle. -/
inductive GivesAll (bindings : Bindings) :
    List Var → List Term → Except CyclicBinding (List Term) → Prop
  | nil {path : List Var} : GivesAll bindings path [] (.ok [])
  | cons {path : List Var} {term result : Term} {terms : List Term}
    {answers : Except CyclicBinding (List Term)} (first : Gives bindings path term (.ok result))
    (rest : GivesAll bindings path terms answers) :
    GivesAll bindings path (term :: terms) (answers.map (result :: ·))
  | broken {path : List Var} {term : Term} {terms : List Term} {error : CyclicBinding}
    (first : Gives bindings path term (.error error)) :
    GivesAll bindings path (term :: terms) (.error error)

end

/-- The recursion over a list of terms is the one over each of them. -/
theorem givesAll_iff {path : List Var} {terms : List Term} {f : Var → Except CyclicBinding Term}
    (each : ∀ term ∈ terms, ∀ answer, bindings.Gives path term answer ↔ term.substM f = answer)
    (answers : Except CyclicBinding (List Term)) :
    bindings.GivesAll path terms answers ↔ Term.substListM f terms = answers := by
  induction terms generalizing answers with
  | nil =>
    rw [Term.substListM]
    constructor
    · rintro ⟨⟩
      rfl
    · rintro rfl
      exact .nil
  | cons term terms ih =>
    obtain ⟨here, others⟩ := List.forall_mem_cons.1 each
    rw [Term.substListM]
    constructor
    · intro gives
      cases gives with
      | broken first =>
        rw [(here _).1 first]
        rfl
      | @cons _ _ result _ rest first gives =>
        rw [(here _).1 first, ← (ih others rest).1 gives]
        cases Term.substListM f terms <;> rfl
    · rintro rfl
      cases first : term.substM f with
      | error error => exact .broken ((here _).2 first)
      | ok result =>
        have rest := GivesAll.cons ((here _).2 first) ((ih others _).2 rfl)
        cases ended : Term.substListM f terms with
        | error error => rwa [ended] at rest
        | ok results => rwa [ended] at rest

/-- The recursion over a term is the one over each of its variables. -/
theorem gives_iff_substM {path : List Var} {term : Term} {f : Var → Except CyclicBinding Term}
    (each : ∀ v ∈ term.occurrences, ∀ answer, bindings.Gives path (.var v) answer ↔ f v = answer)
    (answer : Except CyclicBinding Term) :
    bindings.Gives path term answer ↔ term.substM f = answer := by
  induction term generalizing answer with
  | atom symbol =>
    constructor
    · rintro ⟨⟩
      rfl
    · rintro rfl
      exact .atom symbol
  | num value =>
    constructor
    · rintro ⟨⟩
      rfl
    · rintro rfl
      exact .num value
  | var v => exact each v (by simp) answer
  | struct symbol args ih =>
    have inner := givesAll_iff fun arg member ↦ ih arg member fun v occurs ↦
      each v (Term.mem_occurrences_struct.2 ⟨arg, member, occurs⟩)
    rw [Term.substM]
    constructor
    · rintro ⟨⟩
      rename_i answers gives
      rw [← (inner answers).1 gives]
      cases Term.substListM f args <;> rfl
    · rintro rfl
      have gives : bindings.Gives path (.struct symbol args) _ := .struct ((inner _).2 rfl)
      cases ended : Term.substListM f args with
      | error error => rwa [ended] at gives
      | ok results => rwa [ended] at gives

/-- As long as there is a step for each bound variable that is not on the path, the number of steps
is never the reason to stop. -/
theorem gives_iff_applyWithin {steps : Nat} {path : Std.TreeSet Var} {passed : List Var}
    (way : bindings.Passed passed steps) (same : ∀ v, v ∈ path ↔ v ∈ passed) (term : Term)
    (answer : Except CyclicBinding Term) :
    bindings.Gives passed term answer ↔ bindings.applyWithin steps path term = answer := by
  induction steps using Nat.strongRecOn generalizing path passed term answer with
  | _ steps ih =>
    rw [applyWithin_eq]
    refine gives_iff_substM (fun v _ answer ↦ ?_) answer
    unfold applyVar
    cases found : bindings.lookup? v with
    | none =>
      constructor
      · intro gives
        cases gives with
        | unbound => rfl
        | met bound | entered bound => cases found.symm.trans bound
      · rintro rfl
        exact .unbound found
    | some bound =>
      dsimp only
      by_cases member : v ∈ passed
      · rw [if_pos ((same v).2 member)]
        constructor
        · intro gives
          cases gives with
          | unbound free => cases found.symm.trans free
          | met => rfl
          | entered _ fresh => exact absurd member fresh
        · rintro rfl
          exact .met found member
      · rw [if_neg (mt (same v).1 member)]
        obtain ⟨rest, rfl, further⟩ := way.next found member
        have below :=
          @ih rest (Nat.lt_succ_self rest) (path.insert v) (v :: passed) further (fun w ↦ by
          rw [Std.TreeSet.mem_insert, List.mem_cons, same, Std.LawfulEqCmp.compare_eq_iff_eq,
            eq_comm])
          bound answer
        constructor
        · intro gives
          cases gives with
          | unbound free => cases found.symm.trans free
          | met _ passed => exact absurd passed member
          | entered own _ gives =>
            cases found.symm.trans own
            exact below.1 gives
        · exact fun ended ↦ .entered found member (below.2 ended)

/-! ### Cycles are what breaks it off -/

/-- On the way from a cyclic term to its cycle, or on the cycle, comes a variable bound to a cyclic
term. -/
theorem Cyclic.exists_bound {term : Term} (cyclic : bindings.Cyclic term) :
    ∃ v ∈ term.occurrences, ∃ bound, bindings.lookup? v = some bound ∧ bindings.Cyclic bound := by
  obtain ⟨v, occurs, w, reaches, loop⟩ := cyclic
  obtain ⟨x, ⟨bound, found, inside⟩, further⟩ := TransGen.head'_iff.1 (loop.trans_right reaches)
  exact ⟨v, occurs, bound, found, x, inside, w, further, loop⟩

/-- Bindings cannot be substituted in a cyclic term. -/
theorem not_cyclic_of_applyWithin {steps : Nat} {path : Std.TreeSet Var} {term result : Term}
    (ended : bindings.applyWithin steps path term = .ok result) : ¬bindings.Cyclic term := by
  induction steps using Nat.strongRecOn generalizing path term result with
  | _ steps ih =>
    intro cyclic
    obtain ⟨v, occurs, bound, found, below⟩ := cyclic.exists_bound
    rw [applyWithin_eq] at ended
    have made := (Term.substM_ok ended).1 v occurs
    simp only [applyVar, found] at made
    split at made
    · cases made
    · cases steps with
      | zero => cases made
      | succ steps => exact ih steps (Nat.lt_succ_self steps) made below

/-! ### Passes over the whole term -/

/-- Replace all bound variables of a term by what they are bound to, once. -/
def substOnce (bindings : Bindings) (term : Term) : Term :=
  term.subst fun v ↦ (bindings.lookup? v).getD (.var v)

/-- No variable of the term is bound. -/
def Settled (bindings : Bindings) (term : Term) : Prop :=
  ∀ v ∈ term.occurrences, bindings.lookup? v = none

private theorem Settled.substOnce {term : Term} (settled : bindings.Settled term) :
    bindings.substOnce term = term := by
  refine (Term.subst_congr fun v occurs ↦ ?_).trans term.subst_self
  rw [settled v occurs, Option.getD_none]

/-- A cyclic term stays cyclic when its bound variables are replaced. -/
theorem Cyclic.substOnce {term : Term} (cyclic : bindings.Cyclic term) :
    bindings.Cyclic (bindings.substOnce term) := by
  obtain ⟨v, occurs, bound, found, x, inside, w, reaches⟩ := cyclic.exists_bound
  exact ⟨x, Term.mem_occurrences_subst.2 ⟨v, occurs, by simpa [found] using inside⟩, w, reaches⟩

private theorem Cyclic.not_settled {term : Term} (cyclic : bindings.Cyclic term) :
    ¬bindings.Settled term := by
  intro settled
  obtain ⟨v, occurs, bound, found, -⟩ := cyclic.exists_bound
  cases (settled v occurs).symm.trans found

/-- Passes over a term are passes over what was put for its variables. -/
theorem iterate_substOnce_subst (passes : Nat) (σ : Var → Term) (term : Term) :
    bindings.substOnce^[passes] (term.subst σ) = term.subst fun v ↦
      bindings.substOnce^[passes] (σ v) := by
  induction passes generalizing σ with
  | zero => rfl
  | succ passes ih =>
    rw [Function.iterate_succ_apply, substOnce, Term.subst_subst, ih]
    rfl

/-- With a pass for each step that may be taken, passes come to the term that the recursion
gives. -/
theorem iterate_substOnce_of_applyWithin {steps passes : Nat} (enough : steps ≤ passes)
    {path : Std.TreeSet Var} {term result : Term}
    (ended : bindings.applyWithin steps path term = .ok result) :
    bindings.substOnce^[passes] term = result := by
  induction steps using Nat.strongRecOn generalizing passes path term result with
  | _ steps ih =>
    rw [applyWithin_eq] at ended
    obtain ⟨made, rfl⟩ := Term.substM_ok ended
    rw [← term.subst_self, iterate_substOnce_subst, Term.subst_self]
    refine Term.subst_congr fun v occurs ↦ ?_
    have here := made v occurs
    generalize Term.computed _ v = result at here ⊢
    unfold applyVar at here
    split at here
    · next unbound =>
      cases here
      exact Function.iterate_fixed (Settled.substOnce (by simpa [Settled] using unbound)) passes
    · next bound found =>
      split at here
      · cases here
      · cases steps with
        | zero => cases here
        | succ steps =>
          obtain ⟨passes, rfl⟩ :=
            Nat.exists_eq_add_of_le' (Nat.lt_of_lt_of_le (Nat.succ_pos steps) enough)
          have once : bindings.substOnce (.var v) = bound := by
            rw [Bindings.substOnce, Term.subst_var, found, Option.getD_some]
          rw [Function.iterate_succ_apply, once]
          exact ih steps (Nat.lt_succ_self steps) (Nat.le_of_succ_le_succ enough) here

/-- The term that bindings give is the term without bound variables that passes lead to. -/
theorem apply_eq_ok_iff {term result : Term} :
    bindings.apply term = .ok result ↔
      bindings.Settled result ∧ ∃ passes, bindings.substOnce^[passes] term = result := by
  constructor
  · intro ended
    exact ⟨(substituted_apply ended).unbound, _,
      iterate_substOnce_of_applyWithin (Nat.le_refl _) ended⟩
  · rintro ⟨settled, passes, reached⟩
    cases ended : bindings.apply term with
    | error error =>
      have cyclic : bindings.Cyclic (bindings.substOnce^[passes] term) :=
        Function.Iterate.rec bindings.Cyclic (cyclic_of_apply ended) (fun _ ↦
          Cyclic.substOnce) passes
      rw [reached] at cyclic
      exact absurd settled cyclic.not_settled
    | ok found =>
      -- neither of the two changes in further passes
      have more : bindings.substOnce^[passes + bindings.size] term = found :=
        iterate_substOnce_of_applyWithin (Nat.le_add_left _ _) ended
      rw [Nat.add_comm, Function.iterate_add_apply, reached,
        Function.iterate_fixed settled.substOnce] at more
      rw [more]

/-- Substituting bindings ends with the term that is left when no bound variable is, or breaks off
where a bound variable is reached from itself. -/
theorem apply_exact (bindings : Bindings) (term : Term) :
    (∀ answer, bindings.Gives [] term answer ↔ bindings.apply term = answer) ∧
    ((∃ error, bindings.apply term = .error error) ↔ bindings.Cyclic term) ∧
    (∀ error, bindings.apply term = .error error →
      ∃ v ∈ term.occurrences, ReflTransGen bindings.Mentions v error.var ∧
        TransGen bindings.Mentions error.var error.var) ∧
    (∀ result, bindings.apply term = .ok result ↔
      bindings.Settled result ∧ ∃ passes, bindings.substOnce^[passes] term = result) ∧
    ∀ result, bindings.apply term = .ok result → bindings.apply result = .ok result := by
  refine ⟨gives_iff_applyWithin (passed_nil bindings) (by simp) term, ⟨?_, fun cyclic ↦ ?_⟩,
    fun _ ↦ loop_of_apply, fun _ ↦ apply_eq_ok_iff, fun result ended ↦ ?_⟩
  · rintro ⟨error, failed⟩
    exact cyclic_of_apply failed
  · cases ended : bindings.apply term with
    | ok result => exact absurd cyclic (not_cyclic_of_applyWithin ended)
    | error error => exact ⟨error, rfl⟩
  · exact apply_eq_ok_iff.2 ⟨(apply_eq_ok_iff.1 ended).1, 0, rfl⟩

/-- A variable that is met twice is no cycle, and a cycle is found below other bindings. -/
theorem apply_exact_shared :
    (ofEntries [(1, .atom ⟨0⟩), (0, .struct ⟨1⟩ [.var 1, .var 1])]).apply
    (.struct ⟨2⟩ [.var 0, .var 1, .var 3]) =
        .ok (.struct ⟨2⟩ [.struct ⟨1⟩ [.atom ⟨0⟩, .atom ⟨0⟩], .atom ⟨0⟩, .var 3]) ∧
      ∃ error, (ofEntries [(1, .struct ⟨1⟩ [.var 1]), (0, .var 1)]).apply (.var 0) =
        .error error := by
  constructor
  · obtain ⟨-, -, -, gives, -⟩ :=
      apply_exact (ofEntries [(1, .atom ⟨0⟩), (0, .struct ⟨1⟩ [.var 1, .var 1])])
      (.struct ⟨2⟩ [.var 0, .var 1, .var 3])
    refine (gives _).2 ⟨fun v occurs ↦ ?_, 2, by simp [substOnce, lookup?_eq, ofEntries,
      List.lookup_cons]⟩
    obtain rfl : v = 3 := by simpa [Term.occurrences, Term.occurrencesList] using occurs
    simp [lookup?_eq, ofEntries, List.lookup_cons]
  · obtain ⟨-, breaks, -⟩ :=
      apply_exact (ofEntries [(1, .struct ⟨1⟩ [.var 1]), (0, .var 1)]) (.var 0)
    have first : (ofEntries [(1, .struct ⟨1⟩ [.var 1]), (0, .var 1)]).Mentions 0 1 :=
      ⟨.var 1, by simp [lookup?_eq, ofEntries, List.lookup_cons], by simp⟩
    have loop : (ofEntries [(1, .struct ⟨1⟩ [.var 1]), (0, .var 1)]).Mentions 1 1 :=
      ⟨.struct ⟨1⟩ [.var 1], by simp [lookup?_eq, ofEntries],
        by simp [Term.occurrences, Term.occurrencesList]⟩
    exact breaks.2 ⟨0, by simp, 1, .single first, .single loop⟩

end HornMachine.Bindings
