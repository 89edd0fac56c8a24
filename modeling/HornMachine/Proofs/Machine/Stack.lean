import HornMachine.Proofs.Machine.Point
import HornMachine.Proofs.Program

/-!
# Rules that wait for a call

While a rule runs, the rules that called it wait: each will go on at an instruction with its own
frame. Frames are not changed while their rules wait, but they may hold more than counts, since
slots filled in branches that were given up are not emptied. The frames that count are kept beside
the machine's; the machine's hold at least as much.

An instance is what is still to be done, with values for the arguments of the attempt and for the
variables of the attempted rule. Main statement: a situation and a later one that say the same have
the same instances.
-/

namespace HornMachine

open Code (Meaning Disciplined Shape Total)

/-! ### Frames -/

/-- A later array of frames: no frame is lost, and each holds at least what it held. -/
structure Frame.Grown (later earlier : Array Frame) : Prop where
  size : earlier.size ≤ later.size
  kept : ∀ (number : Nat) (frame : Frame), earlier[number]? = some frame →
    ∃ slots, Bank.Extends slots frame.slots ∧ later[number]? = some { frame with slots }

namespace Frame.Grown

variable {first second third frames : Array Frame} {number : Nat} {frame : Frame}

theorem refl (frames : Array Frame) : Grown frames frames :=
  ⟨Nat.le_refl _, fun _ frame here ↦ ⟨frame.slots, .refl _, here⟩⟩

theorem trans (one : Grown third second) (two : Grown second first) : Grown third first := by
  refine ⟨Nat.le_trans two.size one.size, fun number frame here ↦ ?_⟩
  obtain ⟨middle, wider, there⟩ := two.kept number frame here
  obtain ⟨slots, widest, last⟩ := one.kept number { frame with slots := middle } there
  exact ⟨slots, widest.trans wider, last⟩

theorem push (frames : Array Frame) (frame : Frame) : Grown (frames.push frame) frames := by
  refine ⟨by simp, fun number found here ↦ ⟨found.slots, .refl _, ?_⟩⟩
  obtain ⟨inside, -⟩ := Array.getElem?_eq_some_iff.1 here
  rw [Array.getElem?_push_lt inside, ← Array.getElem?_eq_getElem inside, here]

/-- Both arrays are given one more frame. -/
theorem push_push (grown : Grown frames first) (sizes : frames.size = first.size) (frame : Frame) :
    Grown (frames.push frame) (first.push frame) := by
  refine ⟨by simp [sizes], fun number found here ↦ ?_⟩
  rw [Array.getElem?_push] at here ⊢
  split at here
  · next last =>
    cases here
    exact ⟨frame.slots, .refl _, by rw [if_pos (last.trans sizes.symm)]⟩
  · next older =>
    obtain ⟨slots, wider, there⟩ := grown.kept number found here
    exact ⟨slots, wider, by rw [if_neg (sizes ▸ older), there]⟩

/-- Frames cut off at the end leave those below as they are. -/
theorem shrink {count : Nat} (grown : Grown frames first) (few : first.size ≤ count) :
    Grown (frames.shrink count) first := by
  refine ⟨?_, fun number frame here ↦ ?_⟩
  · have := grown.size
    simp only [Array.shrink_eq_take, Array.take_eq_extract, Array.size_extract]
    omega
  · obtain ⟨slots, wider, there⟩ := grown.kept number frame here
    refine ⟨slots, wider, ?_⟩
    obtain ⟨inside, -⟩ := Array.getElem?_eq_some_iff.1 here
    have := grown.size
    rw [Array.shrink_eq_take, Array.take_eq_extract, Array.getElem?_extract, if_pos (by omega),
      Nat.zero_add, there]

/-- A frame is given other slots that hold at least as much. -/
theorem set (grown : Grown frames first) (here : first[number]? = some frame) {slots : Bank}
    (wider : slots.Extends frame.slots) :
    Grown (frames.setIfInBounds number { frame with slots }) first := by
  refine ⟨by simpa using grown.size, fun other found there ↦ ?_⟩
  by_cases same : number = other
  · subst same
    cases here.symm.trans there
    obtain ⟨inside, -⟩ := Array.getElem?_eq_some_iff.1 here
    have room : number < frames.size := Nat.lt_of_lt_of_le inside grown.size
    exact ⟨slots, wider, by simp [room]⟩
  · rw [Array.getElem?_setIfInBounds_ne same]
    exact grown.kept other found there

/-- Both arrays are given other slots in one frame. -/
theorem set_set (grown : Grown frames first) (here : first[number]? = some frame)
    {slots smaller : Bank} (wider : slots.Extends smaller) :
    Grown (frames.setIfInBounds number { frame with slots })
      (first.setIfInBounds number { frame with slots := smaller }) := by
  obtain ⟨inside, -⟩ := Array.getElem?_eq_some_iff.1 here
  have room : number < frames.size := Nat.lt_of_lt_of_le inside grown.size
  refine ⟨by simpa using grown.size, fun other found there ↦ ?_⟩
  by_cases same : number = other
  · subst same
    simp only [Array.getElem?_setIfInBounds_self, inside, if_true, Option.some.injEq] at there
    subst there
    exact ⟨slots, wider, by simp [room]⟩
  · rw [Array.getElem?_setIfInBounds_ne same] at there ⊢
    exact grown.kept other found there

end Frame.Grown

/-! ### Waiting rules -/

/-- The slots that a rule's code fills before an offset are filled. -/
def CompiledRule.Passed (compiled : CompiledRule) (offset : Nat) (slots : Bank) : Prop :=
  ∀ index < offset, ∀ instruction ∈ compiled.code[index]?, ∀ slot ∈ instruction.slot?,
    slot ∈ slots.filled

/-- A rule that waits: the code it goes on with, and what its slots hold. -/
structure Layer where
  code : Code
  slots : Bank

/-- What stays fixed during an attempt. -/
structure Trial where
  program : Program
  admits : Functor → Prop
  entry : Entry
  compiled : CompiledRule

namespace Trial

/-- What is asked of the code of rules. -/
def shape (trial : Trial) : Shape := trial.program.shape trial.admits

/-- The rules that wait for a rule to be done, given where it goes on and the frame that is current
then. The attempted rule is the one nothing waits for, and its frame is the first. Frames of waiting
rules are below `bound`, and what they hold lies on a heap of the given size. -/
inductive Stack (trial : Trial) (frames : Array Frame) (size : Nat) :
    Nat → RuleId → Continuation → Option Nat → List Layer → Prop
  | halt {environment : Option Nat} :
    Stack trial frames size 0 trial.entry.rule .halt environment []
  | goTo {bound number offset : Nat} {rule caller : RuleId} {compiled : CompiledRule}
    {frame : Frame} {layers : List Layer} (lower : number < bound)
    (found : trial.program.rule? caller = some compiled) (here : frames[number]? = some frame)
    (sized : frame.slots.size = compiled.frameSize)
    (disciplined : Disciplined trial.shape frame.slots.size (compiled.code.toList.drop offset) ∅
      (Bank.filled frame.slots) false 0)
    (resumes : trial.shape.resumes (compiled.code.toList.drop offset))
    (passed : compiled.Passed offset frame.slots) (bounded : Bank.Bounded frame.slots size)
    (below : Stack trial frames size number caller frame.continuation frame.previous layers) :
    Stack trial frames size bound rule (.goTo caller offset) (some number)
      (⟨compiled.code.toList.drop offset, frame.slots⟩ :: layers)

namespace Stack

variable {trial : Trial} {frames later : Array Frame} {size larger bound : Nat} {rule : RuleId}
  {continuation : Continuation} {environment : Option Nat} {layers : List Layer}

/-- Frames from the bound on do not matter. -/
theorem congr (stack : trial.Stack frames size bound rule continuation environment layers)
    (grown : size ≤ larger) (same : ∀ number < bound, later[number]? = frames[number]?) :
    trial.Stack later larger bound rule continuation environment layers := by
  induction stack with
  | halt => exact .halt
  | goTo lower found here sized disciplined resumes passed bounded _ ih =>
    refine .goTo lower found ((same _ lower).trans here) sized disciplined resumes passed
      (bounded.mono grown) (ih fun number below ↦ same number (Nat.lt_trans below lower))

theorem grow (stack : trial.Stack frames size bound rule continuation environment layers)
    (grown : size ≤ larger) :
    trial.Stack frames larger bound rule continuation environment layers :=
  stack.congr grown fun _ _ ↦ rfl

/-- Below the frame of the attempted rule there is none. -/
theorem bound_eq_zero (stack : trial.Stack frames size bound rule continuation environment layers)
    (halts : continuation = .halt) : bound = 0 := by
  cases stack with
  | halt => rfl
  | goTo => cases halts

theorem bounded (stack : trial.Stack frames size bound rule continuation environment layers) :
    ∀ layer ∈ layers, layer.slots.Bounded size := by
  induction stack with
  | halt => simp
  | goTo _ _ _ _ _ _ _ bounded _ ih => exact List.forall_mem_cons.2 ⟨bounded, ih⟩

/-- In a bank whose registers can all be named, waiting rules can go on. -/
theorem total (stack : trial.Stack frames size bound rule continuation environment layers)
    (named : trial.program.registers ≤ Emit.maxRegister) : ∀ layer ∈ layers, Total layer.code := by
  induction stack with
  | halt => simp
  | goTo _ _ _ _ _ resumes _ _ _ ih => exact List.forall_mem_cons.2 ⟨resumes named, ih⟩

end Stack

end Trial

/-! ### Instances -/

variable {D : Type} [Domain D]

/-- Slots give the variables values. -/
theorem Bank.exists_agrees (bank : Bank) (θ : Valuation D) : ∃ η, bank.Agrees θ η :=
  ⟨bank.values θ, fun _ _ here ↦ Bank.values_of_getElem? here⟩

namespace Layer

/-- What waiting rules still call, and the values of the attempted rule's variables, given a
valuation of the heap and the values of the running rule's variables. -/
def Rest : List Layer → Valuation D → (Nat → D) → List (Task D) → (Nat → D) → Prop
  | [], _, η, goals, values => goals = [] ∧ values = η
  | layer :: layers, θ, _, goals, values => ∃ η ρ first later, layer.slots.Agrees θ η ∧
      Meaning η layer.code ρ [] first ∧ Rest layers θ η later values ∧ goals = first ++ later

/-- What waiting rules call depends on the cells that their slots hold. -/
theorem Rest.congr {layers : List Layer} {size : Nat} {θ θ' : Valuation D} {η : Nat → D}
    {goals : List (Task D)} {values : Nat → D}
    (bounded : ∀ layer ∈ layers, layer.slots.Bounded size)
    (same : ∀ address : Nat, address < size → θ' address = θ address)
    (rest : Rest layers θ η goals values) : Rest layers θ' η goals values := by
  induction layers generalizing η goals with
  | nil => exact rest
  | cons layer layers ih =>
    obtain ⟨inside, others⟩ := List.forall_mem_cons.1 bounded
    obtain ⟨η, ρ, first, later, agrees, meaning, rest, rfl⟩ := rest
    exact ⟨η, ρ, first, later, agrees.congr inside same, meaning, ih others rest, rfl⟩

theorem exists_rest {layers : List Layer} (total : ∀ layer ∈ layers, Total layer.code)
    (θ : Valuation D) (η : Nat → D) : ∃ goals values, Rest layers θ η goals values := by
  induction layers generalizing η with
  | nil => exact ⟨[], η, rfl, rfl⟩
  | cons layer layers ih =>
    obtain ⟨goes_on, others⟩ := List.forall_mem_cons.1 total
    obtain ⟨η, agrees⟩ := layer.slots.exists_agrees θ
    obtain ⟨first, meaning⟩ := goes_on η
    obtain ⟨later, values, rest⟩ := ih others η
    exact ⟨first ++ later, values, η, default, first, later, agrees, meaning default, rest, rfl⟩

end Layer

/-- Tasks still to be done, with values for the attempt's arguments and for the variables of the
attempted rule. -/
structure Instance (D : Type) where
  goals : List (Task D)
  head : List D
  values : List D

namespace Trial

/-- The instances of what is said about a valuation, the variables of the running rule and the tasks
it has, with rules that wait. -/
def instances (trial : Trial) (told : Valuation D → (Nat → D) → List (Task D) → Prop)
    (layers : List Layer) : Set (Instance D) :=
  {an | ∃ θ η first later values, told θ η first ∧ Layer.Rest layers θ η later values ∧
    an = ⟨first ++ later, trial.entry.arguments.map θ,
      (List.range trial.compiled.frameSize).map values⟩}

variable {trial : Trial} {told later : Valuation D → (Nat → D) → List (Task D) → Prop}
  {layers : List Layer}

/-- What is said of more cells, with the same values for the older ones, has the same instances. -/
theorem instances_congr {size : Nat} (bounded : ∀ layer ∈ layers, layer.slots.Bounded size)
    (inside : ∀ address ∈ trial.entry.arguments, address < size)
    (back : ∀ θ η goals, later θ η goals → told θ η goals)
    (forth : ∀ θ η goals, told θ η goals → ∃ θ',
      (∀ address : Nat, address < size → θ' address = θ address) ∧ later θ' η goals) :
    trial.instances later layers = trial.instances told layers := by
  ext an
  constructor
  · rintro ⟨θ, η, first, others, values, said, rest, rfl⟩
    exact ⟨θ, η, first, others, values, back θ η first said, rest, rfl⟩
  · rintro ⟨θ, η, first, others, values, said, rest, rfl⟩
    obtain ⟨θ', same, said⟩ := forth θ η first said
    refine ⟨θ', η, first, others, values, said, rest.congr bounded same, ?_⟩
    rw [List.map_congr_left fun address member ↦ same address (inside address member)]

end Trial
end HornMachine
