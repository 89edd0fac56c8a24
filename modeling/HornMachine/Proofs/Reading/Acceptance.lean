import HornMachine.Proofs.Reading.Grammar
import Mathlib.Data.List.Chain

/-!
# The texts accepted as terms

A term may be ended by a period. Main statements: a text is read as a term exactly when it spells a
phrase of the grammar in which lists of commas alone are empty argument lists, and then as the term
that phrase denotes (`run_readSingleTerm_iff`); and the grammar proper, in which only blank lists
are empty, leaves out of those texts exactly the ones in which a comma follows an opening
parenthesis (`spellsEnded_blank_iff`).
-/

namespace HornMachine.Reading

open HornMachine.Text

/-! ### Terms ended by a period -/

/-- The texts of a phrase that a period may end. -/
inductive SpellsEnded (vacant : List Char → Prop) (phrase : Phrase) : List Char → Prop
  | plain {text : List Char} (spells : Spells vacant phrase text) : SpellsEnded vacant phrase text
  | period {text right : List Char} (spells : Spells vacant phrase text) (after : Blank right) :
      SpellsEnded vacant phrase (text ++ '.' :: right)

/-- Text that does not end in a period keeps its end. -/
theorem dropPeriod_of_spells {vacant : List Char → Prop} {phrase : Phrase} {text : List Char}
    (spells : Spells vacant phrase text) : dropPeriod text = trim text := by
  obtain ⟨c, last, good⟩ := spells.last_trim
  refine if_neg ?_
  rw [last]
  rintro ⟨⟩
  rcases good with word | same
  · exact (ne_of_isWordChar word).2.2.2.2.1 rfl
  · cases same

private theorem trim_dropPeriod {text right : List Char} (said : trim text ≠ [])
    (after : Blank right) :
    trim (dropPeriod (text ++ '.' :: right)) = trim text := by
  obtain ⟨left, gap, before, blank, eq⟩ := exists_pad text
  -- what stands before the period keeps the blanks in front of it
  have body : trim (text ++ '.' :: right) = trim text ++ gap ++ ['.'] := by
    have around : text ++ '.' :: right = left ++ (trim text ++ gap ++ ['.']) ++ right := by
      rw [List.append_assoc _ _ right]
      nth_rewrite 1 [eq]
      simp
    rw [around, trim_pad before after]
    refine trim_eq_self (fun c hc ↦ ?_) fun c hc ↦ ?_
    · refine @isBlank_head_trim text c ?_
      rw [List.append_assoc] at hc
      rwa [Option.mem_def, List.head?_append_of_ne_nil _ said] at hc
    · rw [Option.mem_def, List.getLast?_concat] at hc
      cases hc
      decide
  have dropped : dropPeriod (text ++ '.' :: right) = trim text ++ gap := by
    rw [dropPeriod, body]
    simp
  rw [dropped]
  have padded := trim_pad blank_nil blank (trim text)
  rwa [List.nil_append, trim_trim] at padded

private theorem exists_spellsEnded {vacant : List Char → Prop} {phrase : Phrase} {text : List Char}
    (spells : Spells vacant phrase (dropPeriod text)) : SpellsEnded vacant phrase text := by
  obtain ⟨left, right, before, after, eq⟩ := exists_pad text
  unfold dropPeriod at spells
  dsimp only at spells
  split at spells
  · next last =>
    obtain ⟨front, stop⟩ := List.getLast?_eq_some_iff.1 last
    rw [stop, List.dropLast_concat] at spells
    rw [eq, stop]
    have ended := SpellsEnded.period (spells.blanks before blank_nil) after
    simpa using ended
  · exact .plain spells.of_trim

/-- A text ended by a period is read as the phrase in front of it. -/
theorem readTerm_of_spellsEnded {phrase : Phrase} {text : List Char}
    (spells : SpellsEnded Vacant phrase text) : readTerm (dropPeriod text) = phrase.read := by
  cases spells with
  | plain spells => rw [dropPeriod_of_spells spells, readTerm_trim, readTerm_of_spells spells]
  | period spells after =>
    rw [← readTerm_trim, trim_dropPeriod spells.trim_ne_nil after, readTerm_trim,
      readTerm_of_spells spells]

private theorem run_readSingleTerm {text : List Char} {symbols later : SymbolTable} {term : Term} :
    (readSingleTerm text).run symbols = (.ok term, later) ↔
      ∃ scope, readTerm (dropPeriod text) ⟨symbols, {}⟩ = .ok term ⟨later, scope⟩ := by
  have started : readSingleTerm text ⟨symbols, {}⟩ = readTerm (dropPeriod text) ⟨symbols, {}⟩ := rfl
  unfold Reading.run EStateM.run
  rw [started]
  cases readTerm (dropPeriod text) ⟨symbols, {}⟩ with
  | ok value session =>
    obtain ⟨table, scope⟩ := session
    simp
  | error error session => simp

/-- A text is read as a term exactly when it spells a phrase, and then as the term that the phrase
denotes, its names registered and its variables numbered in the order of the text. -/
theorem run_readSingleTerm_iff (text : List Char) (symbols later : SymbolTable) (term : Term) :
    (readSingleTerm text).run symbols = (.ok term, later) ↔
      ∃ phrase, SpellsEnded Vacant phrase text ∧ later = symbols.registerAll phrase.names ∧
        phrase.Denotes later term ∧ Numbering phrase.vars term.occurrences := by
  rw [run_readSingleTerm]
  constructor
  · rintro ⟨scope, read⟩
    obtain ⟨phrase, spells⟩ := exists_spells read
    refine ⟨phrase, exists_spellsEnded spells, ?_⟩
    rw [readTerm_of_spells spells] at read
    obtain ⟨value, made, denotes, numbered⟩ := phrase.reads ⟨symbols, {}⟩
    rw [made] at read
    cases read
    exact ⟨rfl, denotes, numbered ▸ Scope.numbering_numbers _⟩
  · rintro ⟨phrase, spells, rfl, denotes, numbering⟩
    obtain ⟨value, made, denotes', numbered⟩ := phrase.reads ⟨symbols, {}⟩
    have same : term = value := by
      refine denotes.unique denotes' (numbering.unique ?_)
      rw [numbered]
      exact Scope.numbering_numbers _
    rw [readTerm_of_spellsEnded spells, same]
    exact ⟨_, made⟩

/-! ### The grammar proper -/

/-- Text without its blanks. -/
def dark (text : List Char) : List Char := text.filter fun c ↦ !isBlank c

/-- No comma follows an opening parenthesis, blanks between them aside. -/
def NoBareCommas (text : List Char) : Prop :=
  (dark text).IsChain fun c d ↦ ¬ (c = '(' ∧ d = ',')

instance (text : List Char) : Decidable (NoBareCommas text) :=
  inferInstanceAs (Decidable (List.IsChain _ _))

private theorem dark_append (left right : List Char) :
    dark (left ++ right) = dark left ++ dark right :=
  List.filter_append ..

private theorem dark_of_blank {text : List Char} (blank : Blank text) : dark text = [] :=
  List.filter_eq_nil_iff.2 fun c hc ↦ by simp [blank c hc]

private theorem dark_of_isWordChar {text : List Char} (word : ∀ c ∈ text, isWordChar c = true) :
    dark text = text :=
  List.filter_eq_self.2 fun c hc ↦ by simp [isBlank_of_isWordChar (word c hc)]

private theorem dark_compound {name gap : List Char} (named : isAtomName name = true)
    (blank : Blank gap) (inside : List Char) :
    dark (name ++ gap ++ '(' :: (inside ++ [')'])) = name ++ '(' :: (dark inside ++ [')']) := by
  have opening : dark ['('] = ['('] := by decide
  have closing : dark [')'] = [')'] := by decide
  rw [← List.singleton_append, dark_append, dark_append, dark_append, dark_append,
    dark_of_isWordChar (isWordChar_of_isAtomName named).2, dark_of_blank blank, opening, closing]
  simp

/-- Text without blanks in which no comma follows an opening parenthesis, at its ends or inside. -/
structure Tidy (text : List Char) : Prop where
  nonempty : text ≠ []
  chain : text.IsChain fun c d ↦ ¬ (c = '(' ∧ d = ',')
  first : ∀ c ∈ text.head?, c ≠ ','
  last : ∀ c ∈ text.getLast?, c ≠ '('

private theorem isChain_of_isWordChar {text : List Char} (word : ∀ c ∈ text, isWordChar c = true) :
    text.IsChain fun c d ↦ ¬ (c = '(' ∧ d = ',') := by
  refine List.Pairwise.isChain (List.pairwise_of_forall_mem_list fun c hc d _ ↦ ?_)
  exact fun both ↦ (ne_of_isWordChar (word c hc)).1 both.1

private theorem tidy_word {text : List Char} (made : text ≠ [] ∧ ∀ c ∈ text, isWordChar c = true) :
    Tidy text where
  nonempty := made.1
  chain := isChain_of_isWordChar made.2
  first c hc := (ne_of_isWordChar (made.2 c (List.mem_of_mem_head? hc))).2.2.1
  last c hc := (ne_of_isWordChar (made.2 c (List.mem_of_mem_getLast? hc))).1

private theorem tidy_intercalate {texts : List (List Char)} (nonempty : texts ≠ [])
    (each : ∀ text ∈ texts, Tidy (dark text)) : Tidy (dark ([','].intercalate texts)) := by
  induction texts with
  | nil => exact absurd rfl nonempty
  | cons text texts ih =>
    obtain ⟨here, later⟩ := List.forall_mem_cons.1 each
    cases texts with
    | nil => simpa using here
    | cons next texts =>
      have rest := ih (by simp) later
      have comma : dark [','] = [','] := by decide
      rw [List.intercalate_cons_cons, dark_append, dark_append, comma, List.append_assoc]
      refine ⟨by simp, ?_, ?_, ?_⟩
      · refine List.isChain_append.2 ⟨here.chain, ?_, ?_⟩
        · refine List.isChain_append.2 ⟨by simp, rest.chain, ?_⟩
          simp
        · intro c hc d _ both
          exact here.last c hc both.1
      · rw [List.head?_append_of_ne_nil _ here.nonempty]
        exact here.first
      · rw [← List.append_assoc, List.getLast?_append_of_ne_nil _ rest.nonempty]
        exact rest.last

private theorem tidy_compound {name gap inside : List Char} (named : isAtomName name = true)
    (blank : Blank gap) (inner : dark inside = [] ∨ Tidy (dark inside)) :
    Tidy (dark (name ++ gap ++ '(' :: (inside ++ [')']))) := by
  have made := isWordChar_of_isAtomName named
  rw [dark_compound named blank]
  refine ⟨by simp, ?_, ?_, ?_⟩
  · refine List.isChain_append.2 ⟨isChain_of_isWordChar made.2, ?_, ?_⟩
    · rcases inner with nothing | tidy
      · simp [nothing]
      · rw [← List.singleton_append]
        refine List.isChain_append.2 ⟨by simp, ?_, ?_⟩
        · refine List.isChain_append.2 ⟨tidy.chain, by simp, ?_⟩
          simp
        · rw [List.head?_append_of_ne_nil _ tidy.nonempty]
          exact fun c _ d hd both ↦ tidy.first d hd both.2
    · intro c hc d _ both
      exact (ne_of_isWordChar (made.2 c (List.mem_of_mem_getLast? hc))).1 both.1
  · rw [List.head?_append_of_ne_nil _ made.1]
    exact fun c hc ↦ (ne_of_isWordChar (made.2 c (List.mem_of_mem_head? hc))).2.2.1
  · rw [getLast?_compound]
    rintro c ⟨⟩
    decide

/-- In the grammar proper no comma follows an opening parenthesis. -/
theorem Spells.tidy {phrase : Phrase} {text : List Char} (spells : Spells Blank phrase text) :
    Tidy (dark text) := by
  have word {text : List Char} (made : text ≠ [] ∧ ∀ c ∈ text, isWordChar c = true) :
      Tidy (dark text) := by
    rw [dark_of_isWordChar made.2]
    exact tidy_word made
  induction spells with
  | blanks before after _ ih =>
    rw [dark_append, dark_append, dark_of_blank before, dark_of_blank after]
    simpa using ih
  | var named => exact word (isWordChar_of_isVariableName named)
  | num numeral _ => exact word (isWordChar_of_numeral numeral)
  | atom named => exact word (isWordChar_of_isAtomName named)
  | empty named blank nothing => exact tidy_compound named blank (.inl (dark_of_blank nothing))
  | compound named blank some_args _ paired _ ih =>
    refine tidy_compound named blank (.inr (tidy_intercalate ?_ fun text member ↦ ?_))
    · rintro rfl
      exact some_args (List.eq_nil_of_length_eq_zero paired)
    · obtain ⟨arg, pair⟩ := mem_of_mem_zip paired member
      exact ih _ pair

theorem Spells.mono {fewer more : List Char → Prop} {phrase : Phrase} {text : List Char}
    (spells : Spells fewer phrase text) (sub : ∀ text, fewer text → more text) :
    Spells more phrase text := by
  induction spells with
  | blanks before after _ ih => exact .blanks before after ih
  | var named => exact .var named
  | num numeral fits => exact .num numeral fits
  | atom named => exact .atom named
  | empty named blank nothing => exact .empty named blank (sub _ nothing)
  | compound named blank some_args few paired _ ih =>
    exact .compound named blank some_args few paired ih

private theorem infix_intercalate {texts : List (List Char)} {text : List Char}
    (member : text ∈ texts) :
    text <:+: [','].intercalate texts := by
  induction texts with
  | nil => cases member
  | cons first texts ih =>
    cases texts with
    | nil =>
      rw [List.mem_singleton.1 member]
      simp
    | cons next texts =>
      rw [List.intercalate_cons_cons]
      rcases List.mem_cons.1 member with rfl | later
      · exact ⟨[], [','] ++ [','].intercalate (next :: texts), by simp⟩
      · exact (ih later).trans (List.suffix_append _ _).isInfix

private theorem vacant_of_blank {text : List Char} (blank : Blank text) : Vacant text :=
  fun c hc ↦ .inl (blank c hc)

/-- Without such a comma, lists of commas do not occur. -/
theorem Spells.proper {phrase : Phrase} {text : List Char} (spells : Spells Vacant phrase text)
    (proper : NoBareCommas text) : Spells Blank phrase text := by
  induction spells with
  | @blanks phrase left text right before after _ ih =>
    refine .blanks before after (ih ?_)
    rwa [NoBareCommas, dark_append, dark_append, dark_of_blank before, dark_of_blank after,
      List.nil_append, List.append_nil] at proper
  | var named => exact .var named
  | num numeral fits => exact .num numeral fits
  | atom named => exact .atom named
  | @empty name gap inside named blank nothing =>
    refine .empty named blank ?_
    rw [NoBareCommas, dark_compound named blank] at proper
    have opened := (List.isChain_append.1 proper).2.1
    have nothing_dark : dark inside = [] := by
      cases shape : dark inside with
      | nil => rfl
      | cons c rest =>
        have there : c ∈ dark inside := by simp [shape]
        obtain ⟨member, isDark⟩ := List.mem_filter.1 there
        have comma : c = ',' := (nothing c member).resolve_left (by simpa using isDark)
        rw [shape, List.cons_append, List.isChain_cons_cons] at opened
        exact absurd ⟨rfl, comma⟩ opened.1
    intro c hc
    simpa using List.filter_eq_nil_iff.1 nothing_dark c hc
  | @compound name gap args texts named blank some_args few paired _ ih =>
    refine .compound named blank some_args few paired fun pair member ↦ ih pair member ?_
    have among : pair.2 ∈ texts := (List.of_mem_zip member).2
    have inside : pair.2 <:+: name ++ gap ++ '(' :: ([','].intercalate texts ++ [')']) := by
      obtain ⟨before, after, eq⟩ := infix_intercalate among
      exact ⟨name ++ gap ++ '(' :: before, after ++ [')'], by rw [← eq]; simp⟩
    exact List.IsChain.infix proper (inside.filter _)

private theorem noBareCommas_period {text right : List Char} (after : Blank right) :
    NoBareCommas (text ++ '.' :: right) ↔ NoBareCommas text := by
  have period : dark ['.'] = ['.'] := by decide
  rw [NoBareCommas, ← List.singleton_append, dark_append, dark_append, period, dark_of_blank after,
    List.append_nil, List.isChain_append]
  simp [NoBareCommas]

/-- The grammar proper leaves out the texts in which a comma follows an opening parenthesis. -/
theorem spellsEnded_blank_iff {phrase : Phrase} {text : List Char} :
    SpellsEnded Blank phrase text ↔ SpellsEnded Vacant phrase text ∧ NoBareCommas text := by
  constructor
  · rintro (spells | ⟨spells, after⟩)
    · exact ⟨.plain (spells.mono fun _ ↦ vacant_of_blank), spells.tidy.chain⟩
    · exact ⟨.period (spells.mono fun _ ↦ vacant_of_blank) after,
        (noBareCommas_period after).2 spells.tidy.chain⟩
  · rintro ⟨spells | ⟨spells, after⟩, proper⟩
    · exact .plain (spells.proper proper)
    · exact .period (spells.proper ((noBareCommas_period after).1 proper)) after

/-- A list of nothing but a comma is taken for an empty one. -/
example : SpellsEnded Vacant (.compound "f" []) "f(,)".toList ∧ ¬ NoBareCommas "f(,)".toList := by
  refine ⟨.plain (@Spells.empty Vacant ['f'] [] [','] rfl blank_nil ?_), by decide⟩
  exact fun c hc ↦ .inr (List.mem_singleton.1 hc)

/-- Reading accepts the texts of the grammar with the terms it gives them, and beyond those the
texts in which a list of commas alone stands for an empty one: the grammar proper has exactly the
texts accepted in which no comma follows an opening parenthesis. -/
theorem accepts_grammar (text : List Char) (symbols later : SymbolTable) (term : Term) :
    ((readSingleTerm text).run symbols = (.ok term, later) ↔
      ∃ phrase, SpellsEnded Vacant phrase text ∧ later = symbols.registerAll phrase.names ∧
        phrase.Denotes later term ∧ Numbering phrase.vars term.occurrences) ∧
    ∀ phrase, SpellsEnded Blank phrase text ↔
      SpellsEnded Vacant phrase text ∧ NoBareCommas text :=
  ⟨run_readSingleTerm_iff text symbols later term, fun _ ↦ spellsEnded_blank_iff⟩

end HornMachine.Reading
