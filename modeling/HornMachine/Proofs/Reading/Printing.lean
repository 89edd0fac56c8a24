import HornMachine.Proofs.FactStore
import HornMachine.Proofs.Reading.Acceptance
import HornMachine.Reading.Source

/-!
# Printed terms, rules and facts are read back

A term is printed with the names of its symbols, and its variables as `_G` and their number. Reading
the text gives the term back with its variables numbered anew, in the order in which they first
occur; the same holds of a rule, with one numbering for its head and body, and of the facts of a
store printed one on a line.

Main statements: the text of a term spells a phrase that denotes the term (`Writable.spells`,
`Writable.denotes`), and hence printing and reading are inverse (`printed_reads_back`).
-/

namespace HornMachine

open Text Reading

/-! ### Terms that can be written -/

namespace Term

/-- A term whose symbols have atom names, whose numbers fit a word and whose structures have
between one and 255 arguments. -/
inductive Writable (symbols : SymbolTable) : Term → Prop
  | atom {symbol : Symbol} {name : String} (issued : symbols.name? symbol = some name)
      (named : isAtomName name.toList = true) : Writable symbols (.atom symbol)
  | var {v : Var} : Writable symbols (.var v)
  | num {value : Int} (fits : fitsWord value = true) : Writable symbols (.num value)
  | struct {symbol : Symbol} {name : String} {args : List Term}
      (issued : symbols.name? symbol = some name) (named : isAtomName name.toList = true)
      (some_args : args ≠ []) (few : args.length ≤ Functor.maxArity)
      (each : ∀ arg ∈ args, Writable symbols arg) : Writable symbols (.struct symbol args)

/-- How a variable is written. -/
def varName (v : Var) : String := "_G" ++ toString v

mutual

/-- What the text of a term says. -/
def phrase (symbols : SymbolTable) : Term → Phrase
  | .atom symbol => .compound (symbols.nameOf symbol) []
  | .var v => .var (varName v)
  | .num value => .num value
  | .struct symbol args => .compound (symbols.nameOf symbol) (phrases symbols args)

/-- What the texts of some terms say. -/
def phrases (symbols : SymbolTable) : List Term → List Phrase
  | [] => []
  | term :: terms => phrase symbols term :: phrases symbols terms

end

private theorem phrases_eq_map (symbols : SymbolTable) (terms : List Term) :
    phrases symbols terms = terms.map (phrase symbols) := by
  induction terms with
  | nil => rfl
  | cons term terms ih => rw [phrases, List.map_cons, ih]

variable {symbols : SymbolTable}

private theorem nameOf_eq {symbol : Symbol} {name : String}
    (issued : symbols.name? symbol = some name) :
    symbols.nameOf symbol = name := by
  rw [SymbolTable.nameOf, issued, Option.getD_some]

/-! ### The text of a term spells its phrase -/

private theorem digits_repr (n : Nat) : Digits n.repr.toList := by
  rw [Nat.toList_repr]
  exact ⟨Nat.toDigits_ne_nil, fun c hc ↦ Nat.isDigit_of_mem_toDigits (by decide) (by decide) hc⟩

private theorem numeral_toString (value : Int) : Numeral (toString value).toList value := by
  cases value with
  | ofNat n =>
    have numeral := Numeral.unsigned (digits_repr n)
    rw [Nat.toList_repr, Nat.ofDigitChars_ten_toDigits, ← Nat.toList_repr] at numeral
    exact numeral
  | negSucc n =>
    have numeral := Numeral.minus (digits_repr (n + 1))
    rw [Nat.toList_repr, Nat.ofDigitChars_ten_toDigits, ← Nat.toList_repr] at numeral
    have eq : (toString (Int.negSucc n)).toList = '-' :: (n + 1).repr.toList := by
      change ("-" ++ (n + 1).repr).toList = _
      rw [String.toList_append]
      rfl
    rw [eq]
    exact numeral

private theorem toList_varName (v : Var) :
    (varName v).toList = '_' :: 'G' :: Nat.toDigits 10 v := by
  change ("_G" ++ v.repr).toList = _
  rw [String.toList_append, Nat.toList_repr]
  rfl

private theorem isVariableName_varName (v : Var) : isVariableName (varName v).toList = true := by
  rw [toList_varName, isVariableName]
  have digits : (Nat.toDigits 10 v).all isNameChar = true := List.all_eq_true.2 fun c hc ↦ by
    have digit := Nat.isDigit_of_mem_toDigits (by decide) (by decide) hc
    simp [isNameChar, Char.isAlphanum, digit]
  rw [List.all_cons, digits]
  decide

private theorem varName_injective {v w : Var} (same : varName v = varName w) : v = w := by
  have digits : Nat.toDigits 10 v = Nat.toDigits 10 w := by
    have lists := congrArg String.toList same
    rw [toList_varName, toList_varName] at lists
    exact (List.cons.inj (List.cons.inj lists).2).2
  rw [← @Nat.ofDigitChars_ten_toDigits v, digits, Nat.ofDigitChars_ten_toDigits]

private theorem varName_ne_blank (v : Var) : varName v ≠ "_" := by
  intro same
  have lists := congrArg String.toList same
  rw [toList_varName] at lists
  cases lists

/-- A separator with a blank in it is a separator in front of a blank. -/
theorem intercalate_comma_blank (text : List Char) (texts : List (List Char)) :
    [',', ' '].intercalate (text :: texts) = [','].intercalate (text :: texts.map (' ' :: ·)) := by
  induction texts generalizing text with
  | nil => simp
  | cons next texts ih =>
    rw [List.map_cons, List.intercalate_cons_cons, List.intercalate_cons_cons, ih]
    cases texts with
    | nil => simp
    | cons last texts => simp [List.intercalate_cons_cons]

private theorem toList_texts_intercalate (arg : Term) (args : List Term) :
    (", ".intercalate (texts symbols (arg :: args))).toList =
      [','].intercalate ((arg.text symbols).toList ::
        args.map fun other ↦ ' ' :: (other.text symbols).toList) := by
  rw [String.toList_intercalate, texts_eq_map, List.map_map, List.map_cons]
  have comma : ", ".toList = [',', ' '] := rfl
  rw [comma, intercalate_comma_blank, List.map_map]
  rfl

private theorem blank_space : Blank [' '] := by
  intro c hc
  rw [List.mem_singleton.1 hc]
  decide

/-- Texts of terms, each after a blank, spell the phrases of the terms. -/
theorem spells_padded {vacant : List Char → Prop} {terms : List Term}
    (each : ∀ term ∈ terms, Spells vacant (term.phrase symbols) (term.text symbols).toList) :
    ∀ pair ∈ (phrases symbols terms).zip (terms.map fun term ↦ ' ' :: (term.text symbols).toList),
      Spells vacant pair.1 pair.2 := by
  intro pair member
  rw [phrases_eq_map, List.zip_map', List.mem_map] at member
  obtain ⟨term, among, rfl⟩ := member
  have padded := Spells.blanks blank_space blank_nil (each term among)
  simpa using padded

private theorem toList_text_struct {symbol : Symbol} {name : String}
    (issued : symbols.name? symbol = some name) (arg : Term) (args : List Term) :
    ((Term.struct symbol (arg :: args)).text symbols).toList =
      name.toList ++ [] ++ '(' :: ([','].intercalate ((arg.text symbols).toList ::
        args.map fun other ↦ ' ' :: (other.text symbols).toList) ++ [')']) := by
  rw [text, nameOf_eq issued, String.toList_append, String.toList_append, String.toList_append,
    toList_texts_intercalate, List.append_nil, List.append_assoc, List.append_assoc]
  rfl

theorem Writable.spells {vacant : List Char → Prop} {term : Term}
    (writable : term.Writable symbols) :
    Spells vacant (term.phrase symbols) (term.text symbols).toList := by
  induction writable with
  | @atom symbol name issued named =>
    rw [phrase, text, nameOf_eq issued]
    have spells : Spells vacant _ name.toList := .atom named
    rwa [String.ofList_toList] at spells
  | @var v =>
    have spells : Spells vacant _ (varName v).toList := .var (isVariableName_varName v)
    rw [String.ofList_toList] at spells
    rw [phrase, text]
    exact spells
  | @num value fits =>
    rw [phrase, text]
    exact .num (numeral_toString value) fits
  | @struct symbol name args issued named some_args few each ih =>
    obtain ⟨arg, args, rfl⟩ := List.exists_cons_of_ne_nil some_args
    obtain ⟨here, later⟩ := List.forall_mem_cons.1 ih
    have zipped : ∀ pair ∈ (phrases symbols (arg :: args)).zip ((arg.text symbols).toList ::
        args.map fun other ↦ ' ' :: (other.text symbols).toList), Spells vacant pair.1 pair.2 := by
      rw [phrases, List.zip_cons_cons]
      exact List.forall_mem_cons.2 ⟨here, spells_padded later⟩
    have spells := @Spells.compound vacant name.toList [] (phrases symbols (arg :: args)) _ named
      blank_nil (by simp [phrases]) (by simpa [phrases_eq_map] using few)
      (by simp [phrases_eq_map]) zipped
    rw [phrase, nameOf_eq issued, toList_text_struct issued]
    rwa [String.ofList_toList] at spells

/-! ### The phrase denotes the term with its variables renumbered -/

private theorem vars_phrase (term : Term) :
    (term.phrase symbols).vars = term.occurrences.map varName := by
  induction term with
  | atom | var | num => rfl
  | struct symbol args ih =>
    rw [phrase, Phrase.vars, occurrences]
    induction args with
    | nil => rfl
    | cons arg args later =>
      obtain ⟨here, rest⟩ := List.forall_mem_cons.1 ih
      rw [phrases, Phrase.varsList, occurrencesList, List.map_append, here, later rest]

private theorem varsList_phrases (terms : List Term) :
    Phrase.varsList (phrases symbols terms) = (occurrencesList terms).map varName := by
  induction terms with
  | nil => rfl
  | cons term terms ih =>
    rw [phrases, Phrase.varsList, occurrencesList, List.map_append, vars_phrase, ih]

private theorem mem_namesList_phrases {terms : List Term} {name : String} :
    name ∈ Phrase.namesList (phrases symbols terms) ↔
      ∃ term ∈ terms, name ∈ (term.phrase symbols).names := by
  induction terms with
  | nil => simp [phrases, Phrase.namesList]
  | cons term terms ih => simp [phrases, Phrase.namesList, ih]

/-- The names in the text of a term are registered. -/
theorem Writable.known {term : Term} (writable : term.Writable symbols) :
    ∀ name ∈ (term.phrase symbols).names, ∃ symbol, symbols.name? symbol = some name := by
  induction writable with
  | @atom symbol name issued =>
    intro other member
    rw [phrase, nameOf_eq issued] at member
    obtain rfl : other = name := by simpa [Phrase.names, Phrase.namesList] using member
    exact ⟨symbol, issued⟩
  | var | num => simp [phrase, Phrase.names]
  | @struct symbol name args issued _ _ _ _ ih =>
    intro other member
    rw [phrase, nameOf_eq issued, Phrase.names] at member
    rcases List.mem_append.1 member with inner | last
    · obtain ⟨arg, among, there⟩ := mem_namesList_phrases.1 inner
      exact ih arg among other there
    · rw [List.mem_singleton.1 last]
      exact ⟨symbol, issued⟩

/-- The term with each variable replaced by its place in a list. -/
def renumber (order : List Var) (term : Term) : Term :=
  term.subst fun v ↦ .var (order.idxOf v)

private theorem renumber_of_isGround {term : Term} (ground : term.isGround = true)
    (order : List Var) :
    term.renumber order = term :=
  subst_of_isGround ground _

private theorem occurrences_renumber (order : List Var) (term : Term) :
    (term.renumber order).occurrences = term.occurrences.map (order.idxOf ·) := by
  induction term with
  | atom | var | num => rfl
  | struct symbol args ih =>
    rw [renumber, subst_struct, occurrences, occurrences, occurrencesList_eq_flatMap,
      occurrencesList_eq_flatMap, List.flatMap_map, List.map_flatMap]
    exact List.flatMap_congr ih

private theorem occurrencesList_renumber (order : List Var) (terms : List Term) :
    occurrencesList (terms.map (renumber order)) =
      (occurrencesList terms).map (order.idxOf ·) := by
  rw [occurrencesList_eq_flatMap, occurrencesList_eq_flatMap, List.flatMap_map, List.map_flatMap]
  exact List.flatMap_congr fun term _ ↦ occurrences_renumber order term

private theorem zip_phrases_renumber {order : List Var} {terms : List Term}
    (each : ∀ term ∈ terms, (term.phrase symbols).Denotes symbols (term.renumber order)) :
    ∀ pair ∈ (phrases symbols terms).zip (terms.map (renumber order)),
      pair.1.Denotes symbols pair.2 := by
  intro pair member
  rw [phrases_eq_map, List.zip_map', List.mem_map] at member
  obtain ⟨term, among, rfl⟩ := member
  exact each term among

theorem Writable.denotes {term : Term} (writable : term.Writable symbols) (order : List Var) :
    (term.phrase symbols).Denotes symbols (term.renumber order) := by
  induction writable with
  | @atom symbol name issued =>
    rw [phrase, nameOf_eq issued]
    exact @Phrase.Denotes.compound symbols name symbol [] [] issued rfl nofun
  | var => exact .var
  | num => exact .num
  | @struct symbol name args issued _ some_args _ _ ih =>
    rw [phrase, nameOf_eq issued, renumber, subst_struct]
    obtain ⟨arg, args, rfl⟩ := List.exists_cons_of_ne_nil some_args
    exact @Phrase.Denotes.compound symbols name symbol _ ((arg :: args).map (renumber order)) issued
      (by simp [phrases_eq_map]) (zip_phrases_renumber ih)

/-- A list of distinct variables has its places in order. -/
theorem map_idxOf_self {order : List Var} (distinct : order.Nodup) :
    order.map (order.idxOf ·) = List.range order.length := by
  apply List.ext_getElem
  · simp
  · intro i inside _
    rw [List.length_map] at inside
    simp [distinct.idxOf_getElem]

private theorem eraseDups_map {f : Var → Var} {list : List Var}
    (inj : ∀ v ∈ list, ∀ w ∈ list, f v = f w → v = w) :
    (list.map f).eraseDups = list.eraseDups.map f := by
  induction list using List.reverseRecOn with
  | nil => rfl
  | append_singleton list last ih =>
    have old := ih fun v hv w hw ↦
      inj v (List.mem_append_left _ hv) w (List.mem_append_left _ hw)
    have again : f last ∈ list.map f ↔ last ∈ list := by
      constructor
      · intro image
        obtain ⟨v, member, same⟩ := List.mem_map.1 image
        rw [← inj v (by simp [member]) last (by simp) same]
        exact member
      · exact List.mem_map_of_mem
    rw [List.map_append, List.map_singleton, eraseDups_concat, eraseDups_concat, old,
      List.map_append]
    by_cases member : last ∈ list
    · rw [if_pos member, if_pos (again.2 member), List.map_nil]
    · rw [if_neg member, if_neg fun image ↦ member (again.1 image), List.map_singleton]

private theorem idxOf_distinct_inj {vars : List Var} {v : Var} (member : v ∈ vars) {w : Var}
    (same : (distinct vars).idxOf v = (distinct vars).idxOf w) : v = w :=
  (List.idxOf_inj (mem_distinct.2 member)).1 same

/-- Variables numbered by their first occurrence have the numbers from zero on. -/
theorem distinct_map_idxOf (vars : List Var) :
    distinct (vars.map ((distinct vars).idxOf ·)) = List.range (distinct vars).length := by
  rw [distinct_eq_eraseDups, eraseDups_map fun v hv w _ ↦ idxOf_distinct_inj hv,
    ← distinct_eq_eraseDups, map_idxOf_self (nodup_distinct vars)]

/-- Numbering variables by their first occurrence is how their names are numbered. -/
theorem numbering_renumber (vars : List Var) :
    Numbering (vars.map varName) (vars.map ((distinct vars).idxOf ·)) := by
  refine ⟨by simp, fun i j inside inside' ↦ ?_, ?_⟩
  · rw [List.length_map] at inside inside'
    simp only [List.getElem?_map, List.getElem?_eq_getElem inside,
      List.getElem?_eq_getElem inside', Option.map_some, Option.some.injEq]
    constructor
    · intro same
      have one := idxOf_distinct_inj (List.getElem_mem inside) same
      rw [one]
      exact .inr ⟨rfl, fun blank ↦ varName_ne_blank _ (Option.some.inj blank)⟩
    · rintro (rfl | ⟨same, -⟩)
      · rfl
      · rw [varName_injective same]
  · rw [← distinct_eq_eraseDups, distinct_map_idxOf, List.length_range]

/-- Reading what the texts of some terms say gives the terms with one numbering for all. -/
theorem exists_readAll_phrases {terms : List Term} (each : ∀ term ∈ terms, term.Writable symbols) :
    ∃ scope, Phrase.readAll (phrases symbols terms) ⟨symbols, {}⟩ =
      .ok (terms.map (renumber (distinct (occurrencesList terms)))) ⟨symbols, scope⟩ := by
  obtain ⟨others, read, paired, denote, numbered⟩ :=
    Phrase.exists_readAll (fun phrase _ ↦ phrase.reads) ⟨symbols, {}⟩
  have table : symbols.registerAll (Phrase.namesList (phrases symbols terms)) = symbols := by
    refine SymbolTable.registerAll_of_lookup? fun name member ↦ ?_
    obtain ⟨term, among, there⟩ := mem_namesList_phrases.1 member
    exact (each term among).known name there
  dsimp only at read denote numbered
  rw [table] at read denote
  suffices same : others = terms.map (renumber (distinct (occurrencesList terms))) from
    ⟨_, same ▸ read⟩
  refine Phrase.eq_of_denote paired (by simp [phrases_eq_map]) denote
    (zip_phrases_renumber fun term among ↦ (each term among).denotes _)
    (fun pair member other ↦ (denote pair member).unique) ?_
  have given := Scope.numbering_numbers (Phrase.varsList (phrases symbols terms))
  rw [varsList_phrases] at given numbered
  rw [numbered, occurrencesList_renumber]
  exact given.unique (numbering_renumber _)

private theorem exists_read_phrase {term : Term} (writable : term.Writable symbols) :
    ∃ scope, (term.phrase symbols).read ⟨symbols, {}⟩ =
      .ok (term.renumber term.vars) ⟨symbols, scope⟩ := by
  obtain ⟨scope, all⟩ := @exists_readAll_phrases symbols [term] (by simpa using writable)
  rw [phrases, phrases, Phrase.readAll, Phrase.readAll] at all
  obtain ⟨value, session, read, last⟩ := bind_eq_ok.1 all
  have alone : EStateM.Result.ok [value] session =
      .ok [term.renumber (distinct (occurrencesList [term]))] ⟨symbols, scope⟩ := last
  cases alone
  refine ⟨scope, ?_⟩
  rw [read, vars, occurrencesList, occurrencesList, List.append_nil]

/-! ### What the texts of terms look like -/

/-- A character of the texts of terms. -/
def isTextChar (c : Char) : Bool := isWordChar c || "(), ".toList.contains c

private theorem isTextChar_of_isWordChar {c : Char} (word : isWordChar c = true) :
    isTextChar c = true := by
  rw [isTextChar, word, Bool.true_or]

/-- The text of a term holds characters of words, parentheses, commas and spaces only. -/
theorem Writable.forall_isTextChar {term : Term} (writable : term.Writable symbols) :
    ∀ c ∈ (term.text symbols).toList, isTextChar c = true := by
  induction writable with
  | atom issued named =>
    rw [text, nameOf_eq issued]
    exact fun c hc ↦ isTextChar_of_isWordChar ((isWordChar_of_isAtomName named).2 c hc)
  | @var v =>
    have named := isVariableName_varName v
    exact fun c hc ↦ isTextChar_of_isWordChar ((isWordChar_of_isVariableName named).2 c hc)
  | @num value =>
    have numeral := numeral_toString value
    exact fun c hc ↦ isTextChar_of_isWordChar ((isWordChar_of_numeral numeral).2 c hc)
  | @struct symbol name args issued named _ _ _ ih =>
    have inside : ∀ c ∈ [',', ' '].intercalate (args.map fun arg ↦ (arg.text symbols).toList),
        isTextChar c = true := by
      refine forall_mem_intercalate (by simp [isTextChar]) fun part among ↦ ?_
      obtain ⟨arg, member, rfl⟩ := List.mem_map.1 among
      exact ih arg member
    intro c hc
    rw [text, nameOf_eq issued, texts_eq_map] at hc
    simp only [String.toList_append, String.toList_intercalate, List.map_map, List.mem_append] at hc
    rcases hc with ((name | opening) | inner) | closing
    · exact isTextChar_of_isWordChar ((isWordChar_of_isAtomName named).2 c name)
    · obtain rfl : c = '(' := by simpa using opening
      decide
    · exact inside c inner
    · obtain rfl : c = ')' := by simpa using closing
      decide

/-- The text of a term has no blanks around it. -/
theorem Writable.trim_text {term : Term} (writable : term.Writable symbols) :
    trim (term.text symbols).toList = (term.text symbols).toList := by
  cases writable with
  | atom issued named =>
    rw [text, nameOf_eq issued, trim_of_isWordChar (isWordChar_of_isAtomName named).2]
  | @var v =>
    exact trim_of_isWordChar (isWordChar_of_isVariableName (isVariableName_varName v)).2
  | @num value => exact trim_of_isWordChar (isWordChar_of_numeral (numeral_toString value)).2
  | struct issued named some_args =>
    obtain ⟨arg, args, rfl⟩ := List.exists_cons_of_ne_nil some_args
    rw [toList_text_struct issued, trim_compound named]

private theorem Writable.toList_text_ne_nil {term : Term} (writable : term.Writable symbols) :
    (term.text symbols).toList ≠ [] := by
  rw [← writable.trim_text]
  exact (@Writable.spells symbols Vacant term writable).trim_ne_nil

/-- What starts with the text of a term does not start with a blank. -/
theorem Writable.dark_head {term : Term} (writable : term.Writable symbols) (more : List Char) :
    ∀ c ∈ ((term.text symbols).toList ++ more).head?, isBlank c = false := by
  intro c hc
  rw [List.head?_append_of_ne_nil _ writable.toList_text_ne_nil, ← writable.trim_text] at hc
  exact isBlank_head_trim hc

end Term

namespace Reading

open Term

variable {symbols : SymbolTable}

/-! ### Reading a printed rule -/

/-- A period at the end of a text that does not start with a blank is dropped. -/
theorem dropPeriod_concat {text : List Char}
    (dark : ∀ c ∈ (text ++ ['.']).head?, isBlank c = false) :
    dropPeriod (text ++ ['.']) = text := by
  have trimmed : trim (text ++ ['.']) = text ++ ['.'] := by
    refine trim_eq_self dark fun c hc ↦ ?_
    rw [List.getLast?_concat] at hc
    cases hc
    decide
  simp [dropPeriod, trimmed]

private theorem dropPeriod_text {term : Term} (writable : term.Writable symbols) :
    dropPeriod (term.text symbols).toList = (term.text symbols).toList := by
  rw [dropPeriod_of_spells (@Writable.spells symbols Vacant term writable), writable.trim_text]

/-- The goals of a body are printed with commas between them, each after a blank. -/
theorem toList_moreGoalsText (goal : Term) (goals : List Term) :
    ' ' :: (goal.text symbols ++ Rule.moreGoalsText symbols goals).toList =
      [','].intercalate ((goal :: goals).map fun goal ↦ ' ' :: (goal.text symbols).toList) := by
  induction goals generalizing goal with
  | nil => simp [Rule.moreGoalsText]
  | cons next goals ih =>
    have rest := ih next
    simp only [List.map_cons, List.intercalate_cons_cons] at rest ⊢
    rw [← rest]
    simp [Rule.moreGoalsText]

private theorem closed_text {term : Term} (writable : term.Writable symbols) :
    Closed (· = ':') (term.text symbols).toList :=
  (@Writable.spells symbols Vacant term writable).closed.mono fun _ colon ↦ .inr (.inl colon)

/-- The printed goals of a body are read one after another. -/
theorem mapM_readTerm_goals {goals : List Term} (nonempty : goals ≠ [])
    (each : ∀ goal ∈ goals, goal.Writable symbols) :
    let after := [','].intercalate (goals.map fun goal ↦ ' ' :: (goal.text symbols).toList)
    pieces after ≠ [] ∧ (pieces after).mapM readTerm = Phrase.readAll (phrases symbols goals) := by
  have paired : (phrases symbols goals).length =
      (goals.map fun goal ↦ ' ' :: (goal.text symbols).toList).length := by simp [phrases_eq_map]
  have spelled := @spells_padded symbols Vacant goals fun goal member ↦ (each goal member).spells
  have cut := @pieces_intercalate (goals.map fun goal ↦ ' ' :: (goal.text symbols).toList)
    (by simpa using nonempty)
    (fun text member ↦ by
      obtain ⟨arg, pair⟩ := mem_of_mem_zip paired member
      exact (spelled _ pair).closed)
    (fun text member ↦ by
      obtain ⟨arg, pair⟩ := mem_of_mem_zip paired member
      exact (spelled _ pair).trim_ne_nil)
  refine ⟨by simpa [cut] using nonempty, ?_⟩
  rw [cut]
  exact mapM_readTerm paired fun pair member ↦ readTerm_of_spells (spelled pair member)

/-- A printed term is read as a rule without a body. -/
theorem readRule_text {head : Term} (writable : head.Writable symbols) {text : List Char}
    (bare : dropPeriod text = (head.text symbols).toList) :
    readRule text = (do
      newScope
      let term ← (head.phrase symbols).read
      pure { head := term, body := [] }) := by
  rw [readRule, bare, splitArrow?_none (closed_text writable),
    readTerm_of_spells (@Writable.spells symbols Vacant head writable)]

/-- A printed rule is read as what the texts of its head and goals say. -/
theorem readRule_rule {rule : Rule} (head : rule.head.Writable symbols)
    (body : ∀ goal ∈ rule.body, goal.Writable symbols) :
    readRule (rule.text symbols).toList = (do
      newScope
      let term ← (rule.head.phrase symbols).read
      let terms ← Phrase.readAll (phrases symbols rule.body)
      pure { head := term, body := terms }) := by
  have shape : (rule.text symbols).toList =
      ((rule.head.text symbols).toList ++ (Rule.bodyText symbols rule.body).toList) ++ ['.'] := by
    simp [Rule.text]
  have dropped : dropPeriod (rule.text symbols).toList =
      (rule.head.text symbols).toList ++ (Rule.bodyText symbols rule.body).toList := by
    rw [shape, dropPeriod_concat]
    rw [List.append_assoc]
    exact head.dark_head _
  cases goals : rule.body with
  | nil =>
    rw [goals] at dropped
    rw [readRule_text head (by simpa [Rule.bodyText] using dropped)]
    rfl
  | cons goal more =>
    obtain ⟨nonempty, read⟩ := mapM_readTerm_goals (by simp [goals]) body
    rw [goals] at dropped nonempty read
    have arrow : (Rule.bodyText symbols (goal :: more)).toList =
        ' ' :: ':' :: '-' :: [','].intercalate
          ((goal :: more).map fun goal ↦ ' ' :: (goal.text symbols).toList) := by
      rw [← toList_moreGoalsText]
      simp [Rule.bodyText]
    have closed : Closed (· = ':') ((rule.head.text symbols).toList ++ [' ']) :=
      (closed_text head).append (.char (by decide) (by decide) (by decide) .nil)
    have split : splitArrow? (dropPeriod (rule.text symbols).toList) =
        some ((rule.head.text symbols).toList ++ [' '], [','].intercalate
          ((goal :: more).map fun goal ↦ ' ' :: (goal.text symbols).toList)) := by
      rw [dropped, arrow, ← splitArrow?_closed closed]
      simp
    have padded : Spells Vacant (rule.head.phrase symbols) ((rule.head.text symbols).toList ++
      [' ']) := by
      simpa using Spells.blanks blank_nil blank_space (@Writable.spells symbols Vacant _ head)
    rw [readRule, split]
    dsimp only
    rw [readTerm_of_spells padded, read, List.isEmpty_eq_false_iff.2 nonempty]
    rfl

/-! ### Reading printed facts -/

/-- Text without line ends is the first of the lines of a longer text. -/
theorem lines_append {line : List Char} (plain : ∀ c ∈ line, c ≠ '\n' ∧ c ≠ '\r')
    (rest : List Char) : lines (line ++ '\n' :: rest) = line :: lines rest := by
  induction line with
  | nil => rw [List.nil_append, lines]
  | cons c line ih =>
    obtain ⟨⟨feed, carriage⟩, later⟩ := List.forall_mem_cons.1 plain
    rw [List.cons_append, lines, ih later]
    · exact fun same ↦ absurd same feed
    · exact fun _ same ↦ absurd same carriage

private theorem lines_single {line : List Char} (nonempty : line ≠ [])
    (plain : ∀ c ∈ line, c ≠ '\n' ∧ c ≠ '\r') : lines line = [line] := by
  induction line with
  | nil => exact absurd rfl nonempty
  | cons c line ih =>
    obtain ⟨⟨feed, carriage⟩, later⟩ := List.forall_mem_cons.1 plain
    cases line with
    | nil => simp [lines]
    | cons next line =>
      rw [lines, ih (by simp) later]
      · exact fun same ↦ absurd same feed
      · exact fun _ same ↦ absurd same carriage

/-- Texts without line ends, one on a line, are the lines of the whole. -/
theorem lines_intercalate {texts : List (List Char)} (nonempty : ∀ text ∈ texts, text ≠ [])
    (plain : ∀ text ∈ texts, ∀ c ∈ text, c ≠ '\n' ∧ c ≠ '\r') :
    lines (['\n'].intercalate texts) = texts := by
  induction texts with
  | nil => simp [lines]
  | cons text texts ih =>
    obtain ⟨here, later⟩ := List.forall_mem_cons.1 plain
    obtain ⟨some_text, some_texts⟩ := List.forall_mem_cons.1 nonempty
    cases texts with
    | nil => simpa using lines_single some_text here
    | cons next texts =>
      rw [List.intercalate_cons_cons, List.append_assoc, List.singleton_append, lines_append here,
        ih some_texts later]

namespace Cutting

/-- Parentheses are balanced in closed text. -/
theorem foldl_depthAfter {marks : Char → Prop} {text : List Char} (closed : Closed marks text)
    (depth : Int) : text.foldl depthAfter depth = depth := by
  induction closed generalizing depth with
  | nil => rfl
  | char opening closing _ _ ih =>
    rw [List.foldl_cons, ih]
    simp [depthAfter, opening, closing]
  | group _ _ inner ih =>
    rw [List.foldl_cons, List.foldl_append, inner, List.foldl_cons, ih]
    simp [depthAfter]

/-- Characters other than periods are taken into a statement that was begun. -/
theorem addLine_append {cut : Cutting} {text : List Char} (begun : cut.buffer ≠ [])
    (plain : '.' ∉ text) (line : Nat) (rest : List Char) :
    addLine line (text ++ rest) cut = addLine line rest
      { cut with
        buffer := text.reverse ++ cut.buffer
        depth := text.foldl depthAfter cut.depth } := by
  induction text generalizing cut with
  | nil => rfl
  | cons c text ih =>
    obtain ⟨other, later⟩ := not_or.1 (mt List.mem_cons.2 plain)
    have entered : cut.enter line = cut := if_neg (by simpa using begun)
    have taken : cut.push c =
        { cut with buffer := c :: cut.buffer, depth := depthAfter cut.depth c } :=
      if_neg (by simp [begun])
    rw [List.cons_append, addLine, entered, taken]
    rw [if_neg (by simp [Ne.symm other]), ih (by simp) later]
    simp

/-- Text that makes one statement when a period ends it. -/
structure OneStatement (text : List Char) : Prop where
  nonempty : text ≠ []
  dark : ∀ c ∈ text.head?, isBlank c = false
  plain : ∀ c ∈ text, c ≠ '.' ∧ c ≠ '%' ∧ c ≠ '\n' ∧ c ≠ '\r'
  closed : Closed IsMark text

/-- A line with one statement and a period adds the statement. -/
theorem addLine_statement {cut : Cutting} {text : List Char} (nothing : cut.buffer = [])
    (outside : cut.depth = 0) (one : OneStatement text) (line : Nat) :
    addLine line (text ++ ['.']) cut =
      { done := (line, text) :: cut.done, buffer := [], start := line, depth := 0 } := by
  obtain ⟨c, rest, rfl⟩ := List.exists_cons_of_ne_nil one.nonempty
  obtain ⟨here, later⟩ := List.forall_mem_cons.1 one.plain
  have balanced := foldl_depthAfter one.closed 0
  rw [List.foldl_cons] at balanced
  have begun : (cut.enter line).push c =
      { done := cut.done, buffer := [c], start := line, depth := depthAfter 0 c } := by
    simp [enter, push, nothing, outside, one.dark c rfl]
  rw [List.cons_append, addLine, begun, if_neg (by simp [here.1]),
    addLine_append (by simp) fun period ↦ (later _ period).1 rfl]
  simp only [balanced]
  rw [addLine]
  simp [enter, endsBefore, close, addLine, push, show isBlank ' ' = true by decide]

/-- Lines with one statement and a period each add the statements. -/
theorem addLines_statements {texts : List (List Char)} {cut : Cutting} (nothing : cut.buffer = [])
    (outside : cut.depth = 0) (each : ∀ text ∈ texts, OneStatement text) (line : Nat) :
    (addLines line (texts.map (· ++ ['.'])) cut).buffer = [] ∧
    (addLines line (texts.map (· ++ ['.'])) cut).done.reverse.map Prod.snd =
      cut.done.reverse.map Prod.snd ++ texts := by
  induction texts generalizing cut line with
  | nil => simp [addLines, nothing]
  | cons text texts ih =>
    obtain ⟨one, others⟩ := List.forall_mem_cons.1 each
    have kept : dropComment (text ++ ['.']) = text ++ ['.'] := by
      rw [dropComment, List.takeWhile_eq_self_iff]
      intro c hc
      rcases List.mem_append.1 hc with h | h
      · simpa using (one.plain c h).2.1
      · rw [List.mem_singleton.1 h]
        decide
    rw [List.map_cons, addLines, kept, addLine_statement nothing outside one line]
    have rest := @ih ⟨(line, text) :: cut.done, [], line, 0⟩ rfl rfl others (line + 1)
    simpa using rest

end Cutting

/-- Texts that make one statement each, with a period and one on a line, are the statements of the
whole. -/
theorem exists_cutStatements {texts : List (List Char)}
    (each : ∀ text ∈ texts, Cutting.OneStatement text) :
    ∃ parts, cutStatements (['\n'].intercalate (texts.map (· ++ ['.']))) = .ok parts ∧
      parts.map Prod.snd = texts := by
  have cut : lines (['\n'].intercalate (texts.map (· ++ ['.']))) = texts.map (· ++ ['.']) := by
    apply lines_intercalate
    · simp
    · intro line member c hc
      obtain ⟨text, among, rfl⟩ := List.mem_map.1 member
      rcases List.mem_append.1 hc with h | h
      · exact ((each text among).plain c h).2.2
      · rw [List.mem_singleton.1 h]
        decide
  obtain ⟨ended, done⟩ := @Cutting.addLines_statements texts {} rfl rfl each 1
  refine ⟨_, ?_, done⟩
  rw [cutStatements, cut, ended]
  rfl

private theorem ne_of_isTextChar {c : Char} (char : isTextChar c = true) :
    c ≠ '.' ∧ c ≠ '%' ∧ c ≠ '\n' ∧ c ≠ '\r' := by
  refine ⟨?_, ?_, ?_, ?_⟩ <;> rintro rfl <;> revert char <;> decide

private theorem oneStatement_text {term : Term} (writable : term.Writable symbols) :
    Cutting.OneStatement (term.text symbols).toList where
  nonempty := writable.toList_text_ne_nil
  dark := by simpa using writable.dark_head []
  plain c hc := ne_of_isTextChar (writable.forall_isTextChar c hc)
  closed := (@Writable.spells symbols Vacant term writable).closed

/-- The text of a term is neither a goal nor a directive. -/
theorem afterStart?_text {term : Term} (writable : term.Writable symbols) {mark : Char}
    (marked : isTextChar mark = false) (start : List Char) :
    afterStart? (mark :: start) (term.text symbols).toList = none := by
  obtain ⟨c, rest, eq⟩ := List.exists_cons_of_ne_nil writable.toList_text_ne_nil
  have char := writable.forall_isTextChar c (by simp [eq])
  have other : mark ≠ c := by
    rintro rfl
    rw [marked] at char
    cases char
  rw [afterStart?, eq, List.isPrefixOf_cons_cons]
  simp [other]

/-- A printed fact is read as a fact, whatever was read before. -/
theorem exists_readStatement {fact : Fact} (writable : fact.term.Writable symbols) (scope : Scope) :
    ∃ after, readStatement (fact.text symbols).toList ⟨symbols, scope⟩ =
      .ok (.fact fact) ⟨symbols, after⟩ := by
  obtain ⟨after, read⟩ := exists_read_phrase writable
  rw [renumber_of_isGround fact.ground] at read
  have goal : afterStart? "?-".toList (fact.text symbols).toList = none :=
    afterStart?_text writable (by decide) ['-']
  have directive : afterStart? ":-".toList (fact.text symbols).toList = none :=
    afterStart?_text writable (by decide) ['-']
  have trimmed : trim (fact.text symbols).toList = (fact.text symbols).toList := writable.trim_text
  have bare : dropPeriod (fact.text symbols).toList = (fact.term.text symbols).toList :=
    dropPeriod_text writable
  refine ⟨after, ?_⟩
  rw [readStatement, trimmed, goal, directive, readRule_text writable bare]
  simp only [bind_apply, newScope, modify_apply, read, pure_apply,
    Fact.ofTerm?_eq_some_iff.2 (rfl : fact.term = fact.term)]

private theorem exists_mapM_readStatement {facts : List Fact} {parts : List (Nat × List Char)}
    (texts : parts.map Prod.snd = facts.map fun fact ↦ (fact.text symbols).toList)
    (each : ∀ fact ∈ facts, fact.term.Writable symbols) (scope : Scope) :
    ∃ after, parts.mapM (fun part ↦ onLine part.1 (readStatement part.2)) ⟨symbols, scope⟩ =
      .ok (facts.map .fact) ⟨symbols, after⟩ := by
  induction facts generalizing parts scope with
  | nil =>
    rw [List.map_nil, List.map_eq_nil_iff] at texts
    rw [texts]
    exact ⟨scope, rfl⟩
  | cons fact facts ih =>
    obtain ⟨part, parts, rfl, here, later⟩ := List.map_eq_cons_iff.1 texts
    obtain ⟨writable, others⟩ := List.forall_mem_cons.1 each
    obtain ⟨middle, one⟩ := exists_readStatement writable scope
    obtain ⟨after, rest⟩ := ih later others middle
    refine ⟨after, ?_⟩
    have first : onLine part.1 (readStatement part.2) ⟨symbols, scope⟩ =
        .ok (.fact fact) ⟨symbols, middle⟩ := by
      rw [onLine, EStateM.adaptExcept, here, one]
    rw [List.mapM_cons, bind_apply, first]
    dsimp only
    rw [bind_apply, rest]
    rfl

end Reading

open Reading

/-- A rule with its variables numbered in the order of first occurrence, and without its label. -/
def Rule.renumbered (rule : Rule) : Rule :=
  { head := rule.head.renumber rule.vars
    body := rule.body.map (Term.renumber rule.vars) }

private theorem Rule.vars_renumbered (rule : Rule) :
    rule.renumbered.vars = List.range rule.vars.length := by
  have numbers : rule.renumbered.occurrences = rule.occurrences.map (rule.vars.idxOf ·) := by
    rw [occurrences, occurrences, renumbered, Term.occurrences_renumber,
      Term.occurrencesList_renumber, List.map_append]
  rw [vars, numbers]
  exact Term.distinct_map_idxOf _

variable {symbols : SymbolTable}

private theorem run_of_ok {α : Type} {reading : Reading α} {value : α} {scope : Scope}
    (read : reading ⟨symbols, {}⟩ = .ok value ⟨symbols, scope⟩) :
    reading.run symbols = (.ok value, symbols) := by
  unfold Reading.run EStateM.run
  rw [read]

private theorem Term.Writable.read_text {term : Term} (writable : term.Writable symbols) :
    (readSingleTerm (term.text symbols).toList).run symbols =
      (.ok (term.renumber term.vars), symbols) := by
  obtain ⟨scope, read⟩ := exists_read_phrase writable
  apply @run_of_ok symbols _ _ _ scope
  have started : readSingleTerm (term.text symbols).toList ⟨symbols, {}⟩ =
      readTerm (dropPeriod (term.text symbols).toList) ⟨symbols, {}⟩ := rfl
  rw [started, dropPeriod_text writable, readTerm_of_spells writable.spells, read]

private theorem Rule.read_text (rule : Rule) (head : rule.head.Writable symbols)
    (body : ∀ goal ∈ rule.body, goal.Writable symbols) :
    (readRule (rule.text symbols).toList).run symbols = (.ok rule.renumbered, symbols) := by
  obtain ⟨scope, all⟩ := @Term.exists_readAll_phrases symbols (rule.head :: rule.body)
    (List.forall_mem_cons.2 ⟨head, body⟩)
  apply @run_of_ok symbols _ _ _ scope
  rw [readRule_rule head body]
  rw [Term.phrases, Phrase.readAll] at all
  obtain ⟨term, session, readHead, rest⟩ := bind_eq_ok.1 all
  obtain ⟨terms, last, readBody, made⟩ := bind_eq_ok.1 rest
  have both : EStateM.Result.ok (term :: terms) last = .ok _ _ := made
  cases both
  rw [bind_apply, newScope, modify_apply]
  dsimp only
  rw [bind_apply, readHead]
  dsimp only
  rw [bind_apply, readBody]
  rfl

private theorem FactStore.read_dump (store : FactStore)
    (each : ∀ fact ∈ store.snapshot, fact.term.Writable symbols) :
    (readSource (store.dump symbols).toList).run symbols =
      (.ok ⟨store.snapshot.map .fact⟩, symbols) := by
  have shape : (store.dump symbols).toList = ['\n'].intercalate
      ((store.snapshot.map fun fact ↦ (fact.text symbols).toList).map (· ++ ['.'])) := by
    rw [FactStore.dump, String.toList_intercalate, List.map_map, List.map_map]
    simp [Function.comp_def]
  obtain ⟨parts, cut, texts⟩ := @exists_cutStatements
    (store.snapshot.map fun fact ↦ (fact.text symbols).toList) (by
      intro text member
      obtain ⟨fact, among, rfl⟩ := List.mem_map.1 member
      exact oneStatement_text (each fact among))
  obtain ⟨after, read⟩ := exists_mapM_readStatement texts each {}
  apply @run_of_ok symbols _ _ _ after
  rw [readSource, shape, cut]
  dsimp only
  rw [bind_apply, read]
  rfl

/-- Printed terms, rules and stores are read back, and no name is registered for it: a term with its
variables renumbered, so a ground one as it is, a rule with one numbering for its head and body, and
the facts of a store as facts in the order they were printed. -/
theorem printed_reads_back (symbols : SymbolTable) :
    (∀ term : Term, term.Writable symbols →
      (readSingleTerm (term.text symbols).toList).run symbols =
        (.ok (term.renumber term.vars), symbols) ∧
      (term.isGround = true → term.renumber term.vars = term)) ∧
    (∀ rule : Rule, rule.head.Writable symbols → (∀ goal ∈ rule.body, goal.Writable symbols) →
      (readRule (rule.text symbols).toList).run symbols = (.ok rule.renumbered, symbols) ∧
      rule.renumbered.vars = List.range rule.vars.length) ∧
    ∀ store : FactStore, (∀ fact ∈ store.snapshot, fact.term.Writable symbols) →
      (readSource (store.dump symbols).toList).run symbols =
        (.ok ⟨store.snapshot.map .fact⟩, symbols) := by
  refine ⟨fun term writable ↦ ⟨writable.read_text, fun ground ↦ ?_⟩, fun rule head body ↦ ?_, ?_⟩
  · exact Term.renumber_of_isGround ground _
  · exact ⟨rule.read_text head body, rule.vars_renumbered⟩
  · exact fun store each ↦ store.read_dump each

/-- A table with one name. -/
def soleName : SymbolTable := SymbolTable.empty.register "p" (by simp [SymbolTable.empty])

/-- A fact of that name. -/
def soleFact : Fact := ⟨.struct ⟨0⟩ [.num (-3), .atom ⟨0⟩], rfl, rfl, rfl⟩

private theorem writable_soleName {args : List Term} (some_args : args ≠ [])
    (few : args.length ≤ Functor.maxArity) (each : ∀ arg ∈ args, arg.Writable soleName) :
    (Term.struct ⟨0⟩ args).Writable soleName :=
  @Term.Writable.struct soleName ⟨0⟩ "p" args rfl rfl some_args few each

theorem printed_reads_back_soleName :
    (let term : Term := .struct ⟨0⟩ [.var 7, .struct ⟨0⟩ [.num (-3), .var 4], .var 7];
      (readSingleTerm (term.text soleName).toList).run soleName =
        (.ok (.struct ⟨0⟩ [.var 0, .struct ⟨0⟩ [.num (-3), .var 1], .var 0]), soleName)) ∧
    (let rule : Rule := ⟨.struct ⟨0⟩ [.var 7], [.struct ⟨0⟩ [.var 4, .var 7]], none⟩;
      (readRule (rule.text soleName).toList).run soleName =
        (.ok ⟨.struct ⟨0⟩ [.var 0], [.struct ⟨0⟩ [.var 1, .var 0]], none⟩, soleName)) ∧
    (let store := FactStore.empty.append soleFact;
      (readSource (store.dump soleName).toList).run soleName =
        (.ok ⟨store.snapshot.map .fact⟩, soleName)) := by
  obtain ⟨terms, rules, stores⟩ := printed_reads_back soleName
  have var (v : Var) : (Term.var v).Writable soleName := .var
  have number : (Term.num (-3)).Writable soleName := .num (by decide)
  have atom : (Term.atom ⟨0⟩).Writable soleName := @Term.Writable.atom soleName ⟨0⟩ "p" rfl rfl
  refine ⟨?_, ?_, stores _ fun fact member ↦ ?_⟩
  · have inner :=
      @writable_soleName [.num (-3), .var 4] (by simp) (by decide) (by simp [number, var])
    have read := (terms (.struct ⟨0⟩ [.var 7, .struct ⟨0⟩ [.num (-3), .var 4], .var 7])
      (writable_soleName (by simp) (by decide) (by simp [var, inner]))).1
    have renumbered : Term.renumber [7, 4]
        (.struct ⟨0⟩ [.var 7, .struct ⟨0⟩ [.num (-3), .var 4], .var 7]) =
        .struct ⟨0⟩ [.var 0, .struct ⟨0⟩ [.num (-3), .var 1], .var 0] := by decide
    have order : Term.vars (.struct ⟨0⟩ [.var 7, .struct ⟨0⟩ [.num (-3), .var 4], .var 7]) =
        [7, 4] := by
      rw [Term.vars, Term.distinct_eq_eraseDups]
      decide
    rw [order, renumbered] at read
    exact read
  · have goal := @writable_soleName [.var 4, .var 7] (by simp) (by decide) (by simp [var])
    have read := (rules ⟨.struct ⟨0⟩ [.var 7], [.struct ⟨0⟩ [.var 4, .var 7]], none⟩
      (writable_soleName (by simp) (by decide) (by simp [var])) (by simp [goal])).1
    have order : Rule.vars ⟨.struct ⟨0⟩ [.var 7], [.struct ⟨0⟩ [.var 4, .var 7]], none⟩ =
      [7, 4] := by
      rw [Rule.vars, Term.distinct_eq_eraseDups]
      decide
    rw [Rule.renumbered, order] at read
    exact read
  · obtain ⟨functor, -, among⟩ := List.mem_flatMap.1 member
    have sole : fact = soleFact := by
      rw [FactStore.factsOf_append] at among
      split at among
      · simpa [FactStore.factsOf, FactStore.empty] using among
      · simp [FactStore.factsOf, FactStore.empty] at among
    rw [sole]
    exact writable_soleName (by simp) (by decide) (by simp [number, atom])

end HornMachine
