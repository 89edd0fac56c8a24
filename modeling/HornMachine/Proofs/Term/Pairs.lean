import HornMachine.Proofs.Term.Domain
import Mathlib.Data.Finset.Prod
import Std.Data.TreeSet

/-!
# Pairs that are to be equal

Unification takes up pairs of things that are to stand for one value, be they terms or addresses of
a heap, and goes on with their arguments. A pair met a second time is left alone. Main statements:
if every pair that was met leads to pairs that were met, all of them are equal (`Equated.eq`); and
since no pair is met twice, counting pairs bounds how deep unification goes (`seenCount_lt`).
-/

namespace HornMachine

variable {D : Type} [Domain D] {ι : Type} [Ord ι] {value : ι → D}

/-- Things that are to stand for one value, given that the pairs `seen` do: because they do, since
they stand for such a pair, or argument by argument. -/
inductive Equated (value : ι → D) (seen : Std.TreeSet (ι × ι) lexOrd.compare) : ι → ι → Prop
  | same {a b : ι} (equal : value a = value b) : Equated value seen a b
  | met {a b left right : ι} (member : (left, right) ∈ seen) (to_left : value a = value left)
    (to_right : value b = value right) : Equated value seen a b
  | args {a b : ι} {symbol : Symbol} {xs ys : List ι} (length : xs.length = ys.length)
    (to_left : value a = Domain.struct symbol (xs.map value))
    (to_right : value b = Domain.struct symbol (ys.map value))
    (below : ∀ pair ∈ xs.zip ys, Equated value seen pair.1 pair.2) : Equated value seen a b

/-- A pair of structures whose arguments are to stand for the same values. -/
def Expanded (value : ι → D) (seen : Std.TreeSet (ι × ι) lexOrd.compare) (left right : ι) : Prop :=
  ∃ (symbol : Symbol) (xs ys : List ι), xs.length = ys.length ∧
    value left = Domain.struct symbol (xs.map value) ∧
    value right = Domain.struct symbol (ys.map value) ∧
    ∀ pair ∈ xs.zip ys, Equated value seen pair.1 pair.2

variable {seen later : Std.TreeSet (ι × ι) lexOrd.compare} {a b left right : ι}

theorem Equated.mono (kept : ∀ pair ∈ seen, pair ∈ later) (equated : Equated value seen a b) :
    Equated value later a b := by
  induction equated with
  | same equal => exact .same equal
  | met member to_left to_right => exact .met (kept _ member) to_left to_right
  | args length to_left to_right _ ih => exact .args length to_left to_right ih

theorem Expanded.mono (kept : ∀ pair ∈ seen, pair ∈ later)
    (expanded : Expanded value seen left right) :
    Expanded value later left right := by
  obtain ⟨symbol, xs, ys, length, to_left, to_right, below⟩ := expanded
  exact ⟨symbol, xs, ys, length, to_left, to_right, fun pair member ↦ (below pair member).mono kept⟩

/-- If every pair met leads to pairs met, all of them stand for one value: whatever is to be equal
cannot be told apart. -/
theorem Equated.eq (expanded : ∀ left right, (left, right) ∈ seen → Expanded value seen left right)
    (equated : Equated value seen a b) : value a = value b := by
  have pairs {xs ys : List ι} (length : xs.length = ys.length)
      (below : ∀ pair ∈ xs.zip ys, Equated value seen pair.1 pair.2) :
      List.Forall₂ (fun x y ↦ ∃ a b, Equated value seen a b ∧ x = value a ∧ y = value b)
        (xs.map value) (ys.map value) := by
    rw [List.forall₂_map_left_iff, List.forall₂_map_right_iff, List.forall₂_iff_zip]
    exact ⟨length, fun member ↦ ⟨_, _, below _ member, rfl, rfl⟩⟩
  refine Domain.eq_of_bisim (fun x y ↦ ∃ a b, Equated value seen a b ∧ x = value a ∧
    y = value b) ?_ _ _
    ⟨a, b, equated, rfl, rfl⟩
  rintro _ _ ⟨a, b, equated, rfl, rfl⟩
  cases equated with
  | same equal => exact .inl equal
  | met member to_left to_right =>
    obtain ⟨symbol, xs, ys, length, at_left, at_right, below⟩ := expanded _ _ member
    exact .inr ⟨_, _, _, to_left.trans at_left, to_right.trans at_right, pairs length below⟩
  | args length to_left to_right below =>
    exact .inr ⟨_, _, _, to_left, to_right, pairs length below⟩

/-! ### Counting pairs -/

section Count

variable {ι : Type} [Ord ι] {members : Finset ι} {seen later : Std.TreeSet (ι × ι) lexOrd.compare}
  {left right : ι}

/-- Number of pairs of members that were taken up. -/
def seenCount (members : Finset ι) (seen : Std.TreeSet (ι × ι) lexOrd.compare) : Nat :=
  ((members ×ˢ members).filter fun pair ↦ pair ∈ seen).card

theorem seenCount_le (members : Finset ι) (seen : Std.TreeSet (ι × ι) lexOrd.compare) :
    seenCount members seen ≤ members.card * members.card := by
  have filtered := Finset.card_filter_le (members ×ˢ members) fun pair ↦ pair ∈ seen
  rwa [Finset.card_product] at filtered

/-- A pair that is taken up for the first time is one more. -/
theorem seenCount_lt (kept : ∀ pair ∈ seen, pair ∈ later) (fresh : (left, right) ∉ seen)
    (taken : (left, right) ∈ later) (left_inside : left ∈ members)
    (right_inside : right ∈ members) :
    seenCount members seen < seenCount members later := by
  apply Finset.card_lt_card
  rw [Finset.ssubset_iff_of_subset]
  · refine ⟨(left, right), ?_, ?_⟩
    · simp [left_inside, right_inside, taken]
    · simp [fresh]
  · intro pair member
    simp only [Finset.mem_filter] at member ⊢
    exact ⟨member.1, kept pair member.2⟩

end Count
end HornMachine
