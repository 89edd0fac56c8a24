import HornMachine.Text.Nesting
import Mathlib.Data.List.TakeWhile

/-!
# What cutting text does

Text is trimmed of blanks and cut at commas, arrows and closing parentheses, always outside
parentheses. Trimming takes off blanks and nothing else. Text is closed when its parentheses match;
each way of cutting passes closed text as a whole, provided that the mark it looks for does not
stand outside its parentheses.

Main statements: `trim_pad` and `exists_pad` for trimming, and for cutting `piecesFrom_intercalate`,
`splitClosing?_closed` and `splitArrow?_closed`.
-/

namespace HornMachine.Text

/-! ### Trimming -/

/-- Text of nothing but blanks. -/
def Blank (text : List Char) : Prop := ∀ c ∈ text, isBlank c = true

theorem blank_nil : Blank [] := nofun

theorem Blank.append {left right : List Char} (hl : Blank left) (hr : Blank right) :
    Blank (left ++ right) := by
  intro c hc
  rcases List.mem_append.1 hc with h | h
  · exact hl c h
  · exact hr c h

theorem Blank.reverse {text : List Char} (h : Blank text) : Blank text.reverse :=
  fun c hc ↦ h c (List.mem_reverse.1 hc)

theorem Blank.dropWhile {left : List Char} (h : Blank left) (text : List Char) :
    (left ++ text).dropWhile isBlank = text.dropWhile isBlank := by
  rw [List.dropWhile_append, List.dropWhile_eq_nil_iff.2 h]
  rfl

private theorem blank_takeWhile (text : List Char) : Blank (text.takeWhile isBlank) :=
  fun _ hc ↦ List.mem_takeWhile_imp hc

private theorem head?_dropWhile_isBlank {text : List Char} {c : Char}
    (h : (text.dropWhile isBlank).head? = some c) : isBlank c = false := by
  have first := List.head?_dropWhile_not isBlank text
  rw [h] at first
  simpa using first

/-- Blanks at the end are cut off, whatever stands in front of them. -/
theorem trimEnd_append {right : List Char} (h : Blank right) (text : List Char) :
    trimEnd (text ++ right) = trimEnd text := by
  rw [trimEnd_eq, trimEnd_eq, List.reverse_append, h.reverse.dropWhile]

/-- Text is its part without blanks at the end, followed by blanks. -/
theorem exists_trimEnd (text : List Char) :
    ∃ right, Blank right ∧ text = trimEnd text ++ right := by
  refine ⟨(text.reverse.takeWhile isBlank).reverse, (blank_takeWhile _).reverse, ?_⟩
  rw [trimEnd_eq, ← List.reverse_append, List.takeWhile_append_dropWhile, List.reverse_reverse]

/-- Text is its trimmed part with blanks on both sides. -/
theorem exists_pad (text : List Char) :
    ∃ left right, Blank left ∧ Blank right ∧ text = left ++ trim text ++ right := by
  obtain ⟨right, blank, eq⟩ := exists_trimEnd text
  refine ⟨(trimEnd text).takeWhile isBlank, right, blank_takeWhile _, blank, ?_⟩
  rw [trim, List.takeWhile_append_dropWhile]
  exact eq

theorem trim_eq_nil_iff {text : List Char} : trim text = [] ↔ Blank text := by
  constructor
  · intro h
    obtain ⟨left, right, hl, hr, eq⟩ := exists_pad text
    rw [eq, h, List.append_nil]
    exact hl.append hr
  · intro h
    have end_nil : trimEnd text = [] := by
      rw [trimEnd_eq, List.dropWhile_eq_nil_iff.2 h.reverse, List.reverse_nil]
    rw [trim, end_nil, List.dropWhile_nil]

/-- Trimmed text does not start with a blank. -/
theorem isBlank_head_trim {text : List Char} {c : Char} (h : (trim text).head? = some c) :
    isBlank c = false :=
  head?_dropWhile_isBlank h

/-- Trimmed text does not end in a blank. -/
theorem isBlank_last_trim {text : List Char} {c : Char} (h : (trim text).getLast? = some c) :
    isBlank c = false := by
  have last : (trimEnd text).getLast? = some c := by
    rw [← List.takeWhile_append_dropWhile (l := trimEnd text) (p := isBlank),
      List.getLast?_append]
    rw [trim] at h
    rw [h]
    rfl
  rw [trimEnd_eq, List.getLast?_reverse] at last
  exact head?_dropWhile_isBlank last

/-- Text that neither starts with a blank nor ends in one is trimmed already. -/
theorem trim_eq_self {text : List Char} (first : ∀ c ∈ text.head?, isBlank c = false)
    (last : ∀ c ∈ text.getLast?, isBlank c = false) : trim text = text := by
  obtain ⟨left, right, hl, hr, eq⟩ := exists_pad text
  cases left with
  | cons c left =>
    have blank := hl c List.mem_cons_self
    rw [first c (by rw [eq]; rfl)] at blank
    cases blank
  | nil =>
    rcases List.eq_nil_or_concat right with rfl | ⟨rest, c, rfl⟩
    · simpa using eq.symm
    · have blank := hr c (by simp)
      rw [last c (by rw [eq]; simp)] at blank
      cases blank

theorem trim_trim (text : List Char) : trim (trim text) = trim text :=
  trim_eq_self (fun _ ↦ isBlank_head_trim) fun _ ↦ isBlank_last_trim

/-- Blanks around a text do not matter. -/
theorem trim_pad {left right : List Char} (hl : Blank left) (hr : Blank right) (text : List Char) :
    trim (left ++ text ++ right) = trim text := by
  rw [trim, trimEnd_append hr]
  by_cases blank : Blank text
  · have nothing := trim_eq_nil_iff.2 (hl.append blank)
    rw [trim] at nothing
    rw [nothing, trim_eq_nil_iff.2 blank]
  · have kept : trimEnd (left ++ text) = left ++ trimEnd text := by
      rw [trimEnd_eq, trimEnd_eq, List.reverse_append, List.dropWhile_append, if_neg]
      · rw [List.reverse_append, List.reverse_reverse]
      · rw [List.isEmpty_iff, List.dropWhile_eq_nil_iff]
        exact fun all ↦ blank fun c hc ↦ all c (List.mem_reverse.2 hc)
    rw [kept, hl.dropWhile, trim]

/-- What holds of the characters of some texts and of those between them holds of the whole. -/
theorem forall_mem_intercalate {holds : Char → Prop} {between : List Char}
    {texts : List (List Char)} (sep : ∀ c ∈ between, holds c)
    (each : ∀ text ∈ texts, ∀ c ∈ text, holds c) : ∀ c ∈ between.intercalate texts, holds c := by
  induction texts with
  | nil => nofun
  | cons text texts ih =>
    obtain ⟨here, later⟩ := List.forall_mem_cons.1 each
    cases texts with
    | nil => simpa using here
    | cons next texts =>
      intro c hc
      rw [List.intercalate_cons_cons] at hc
      rcases List.mem_append.1 hc with h | h
      · rcases List.mem_append.1 h with h | h
        · exact here c h
        · exact sep c h
      · exact ih later c h

/-! ### Closed text -/

/-- Text whose parentheses match and outside of whose parentheses none of the marks stands. -/
inductive Closed : (Char → Prop) → List Char → Prop
  | nil {marks : Char → Prop} : Closed marks []
  | char {marks : Char → Prop} {c : Char} {rest : List Char} (opening : c ≠ '(')
      (closing : c ≠ ')') (plain : ¬ marks c) (closed : Closed marks rest) :
      Closed marks (c :: rest)
  | group {marks : Char → Prop} {inside rest : List Char} (inner : Closed (fun _ ↦ False) inside)
      (closed : Closed marks rest) : Closed marks ('(' :: (inside ++ ')' :: rest))

variable {marks : Char → Prop} {text : List Char}

theorem Closed.append (first : Closed marks text) {other : List Char}
    (second : Closed marks other) : Closed marks (text ++ other) := by
  induction first with
  | nil => exact second
  | char opening closing plain _ ih => exact .char opening closing plain (ih second)
  | @group marks inside rest inner _ _ ih =>
    have joined := Closed.group inner (ih second)
    simpa using joined

theorem Closed.mono (closed : Closed marks text) {fewer : Char → Prop}
    (sub : ∀ c, fewer c → marks c) : Closed fewer text := by
  induction closed with
  | nil => exact .nil
  | char opening closing plain _ ih =>
    exact .char opening closing (fun mark ↦ plain (sub _ mark)) (ih sub)
  | group inner _ _ ih => exact .group inner (ih sub)

theorem closed_of_plain (plain : ∀ c ∈ text, c ≠ '(' ∧ c ≠ ')' ∧ ¬ marks c) :
    Closed marks text := by
  induction text with
  | nil => exact .nil
  | cons c rest ih =>
    obtain ⟨opening, closing, unmarked⟩ := plain c List.mem_cons_self
    exact .char opening closing unmarked (ih fun d hd ↦ plain d (List.mem_cons_of_mem _ hd))

/-- Closed texts with marks between them are closed for the other marks. -/
theorem closed_intercalate {mark : Char} {texts : List (List Char)} (opening : mark ≠ '(')
    (closing : mark ≠ ')') (unmarked : ¬ marks mark) (each : ∀ text ∈ texts, Closed marks text) :
    Closed marks ([mark].intercalate texts) := by
  induction texts with
  | nil => exact .nil
  | cons text texts ih =>
    have here := each text List.mem_cons_self
    cases texts with
    | nil => simpa using here
    | cons next texts =>
      rw [List.intercalate_cons_cons]
      have later := ih fun other member ↦ each other (List.mem_cons_of_mem _ member)
      have marked : Closed marks ([mark] ++ [mark].intercalate (next :: texts)) :=
        .char opening closing unmarked later
      rw [List.append_assoc]
      exact here.append marked

/-! ### Cutting passes closed text -/

private theorem piecesFrom_closed (closed : Closed marks text) {depth : Int} (nonneg : 0 ≤ depth)
    (outside : depth = 0 → marks ',') (piece rest : List Char) :
    piecesFrom piece depth (text ++ rest) = piecesFrom (text.reverse ++ piece) depth rest := by
  induction closed generalizing depth piece rest with
  | nil => rfl
  | @char marks c later opening closing plain _ ih =>
    have stay : ¬ (c = ',' ∧ depth = 0) := by
      rintro ⟨rfl, zero⟩
      exact plain (outside zero)
    have same : depthAfter depth c = depth := by simp [depthAfter, opening, closing]
    rw [List.cons_append, piecesFrom, if_neg stay, same, ih nonneg outside]
    simp
  | @group marks inside later _ _ inner ih =>
    have deeper : depth + 1 ≠ 0 := by omega
    rw [List.cons_append, piecesFrom, if_neg (by simp), List.append_assoc]
    simp only [depthAfter, if_pos]
    rw [inner (by omega) fun zero ↦ absurd zero deeper, List.cons_append, piecesFrom,
      if_neg (by simp)]
    have back : depthAfter (depth + 1) ')' = depth := by simp [depthAfter]
    rw [back, ih nonneg outside]
    simp

/-- Texts without commas of their own are the pieces of the text with commas between them. -/
theorem piecesFrom_intercalate {texts : List (List Char)} (nonempty : texts ≠ [])
    (each : ∀ text ∈ texts, Closed (· = ',') text) :
    piecesFrom [] 0 ([','].intercalate texts) = texts := by
  induction texts with
  | nil => exact absurd rfl nonempty
  | cons text texts ih =>
    have here := each text List.mem_cons_self
    have passed (rest) := piecesFrom_closed here (Int.le_refl 0) (fun _ ↦ rfl) [] rest
    cases texts with
    | nil =>
      have alone := passed []
      simpa [piecesFrom] using alone
    | cons next texts =>
      rw [List.intercalate_cons_cons, List.append_assoc, passed, List.singleton_append, piecesFrom,
        if_pos ⟨rfl, rfl⟩, ih (by simp) fun other member ↦
          each other (List.mem_cons_of_mem _ member)]
      simp

theorem piecesFrom_ne_nil (piece : List Char) (depth : Int) (text : List Char) :
    piecesFrom piece depth text ≠ [] := by
  induction text generalizing piece depth with
  | nil => simp [piecesFrom]
  | cons c rest ih =>
    rw [piecesFrom]
    split
    · simp
    · exact ih _ _

/-- Pieces with commas between them are the text they were cut from. -/
theorem intercalate_piecesFrom (piece : List Char) (depth : Int) (text : List Char) :
    [','].intercalate (piecesFrom piece depth text) = piece.reverse ++ text := by
  induction text generalizing piece depth with
  | nil => simp [piecesFrom]
  | cons c rest ih =>
    rw [piecesFrom]
    split
    · next cut =>
      obtain ⟨next, later, eq⟩ := List.exists_cons_of_ne_nil (piecesFrom_ne_nil [] 0 rest)
      have joined := ih [] 0
      rw [eq] at joined
      rw [eq, List.intercalate_cons_cons, joined, cut.1]
      simp
    · rw [ih]
      simp

private theorem splitClosingFrom?_closed (closed : Closed marks text) (inside : List Char)
    (depth : Nat) (rest : List Char) :
    splitClosingFrom? inside depth (text ++ rest) =
      splitClosingFrom? (text.reverse ++ inside) depth rest := by
  induction closed generalizing depth inside rest with
  | nil => rfl
  | char opening closing _ _ ih =>
    rw [List.cons_append, splitClosingFrom?, if_neg (by simp [closing])]
    simp only [opening, closing, if_false]
    rw [ih]
    simp
  | @group marks inner later _ _ ihInner ih =>
    rw [List.cons_append, splitClosingFrom?, if_neg (by simp), List.append_assoc]
    simp only [if_true]
    rw [ihInner, List.cons_append, splitClosingFrom?, if_neg (by simp)]
    simp only [Char.reduceEq, if_false, if_true, Nat.add_sub_cancel]
    rw [ih]
    simp

/-- The parenthesis after closed text closes the one in front of it. -/
theorem splitClosing?_closed (closed : Closed marks text) (after : List Char) :
    splitClosing? (text ++ ')' :: after) = some (text, after) := by
  rw [splitClosing?, splitClosingFrom?_closed closed, splitClosingFrom?, if_pos ⟨rfl, rfl⟩]
  simp

private theorem splitArrowFrom?_closed (closed : Closed marks text) {depth : Int}
    (nonneg : 0 ≤ depth) (outside : depth = 0 → marks ':') (rest : List Char) :
    splitArrowFrom? depth (text ++ rest) =
      (splitArrowFrom? depth rest).map fun (before, after) ↦ (text ++ before, after) := by
  induction closed generalizing depth rest with
  | nil => simp
  | @char marks c later opening closing plain _ ih =>
    have stay : ¬ (c = ':' ∧ depth = 0 ∧ (later ++ rest).head? = some '-') := by
      rintro ⟨rfl, zero, -⟩
      exact plain (outside zero)
    have same : depthAfter depth c = depth := by simp [depthAfter, opening, closing]
    rw [List.cons_append, splitArrowFrom?, if_neg stay, same, ih nonneg outside, Option.map_map]
    rfl
  | @group marks inside later _ _ inner ih =>
    have deeper : depth + 1 ≠ 0 := by omega
    have back : depthAfter (depth + 1) ')' = depth := by simp [depthAfter]
    rw [List.cons_append, splitArrowFrom?, if_neg (by simp), List.append_assoc]
    simp only [depthAfter, if_pos]
    rw [inner (by omega) fun zero ↦ absurd zero deeper, List.cons_append, splitArrowFrom?,
      if_neg (by simp), back, ih nonneg outside]
    simp [Option.map_map, Function.comp_def]

/-- The first arrow after closed text without colons of its own divides the text. -/
theorem splitArrow?_closed (closed : Closed (· = ':') text) (after : List Char) :
    splitArrow? (text ++ ':' :: '-' :: after) = some (text, after) := by
  rw [splitArrow?, splitArrowFrom?_closed closed (Int.le_refl 0) fun _ ↦ rfl, splitArrowFrom?,
    if_pos ⟨rfl, rfl, rfl⟩]
  simp

/-- Closed text without colons of its own has no arrow. -/
theorem splitArrow?_none (closed : Closed (· = ':') text) : splitArrow? text = none := by
  have passed := splitArrowFrom?_closed closed (Int.le_refl 0) (fun _ ↦ rfl) []
  rw [List.append_nil] at passed
  rw [splitArrow?, passed]
  rfl

end HornMachine.Text
