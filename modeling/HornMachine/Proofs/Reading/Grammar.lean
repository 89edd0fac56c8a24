import HornMachine.Proofs.Reading.Phrase
import HornMachine.Proofs.Text.Cutting
import HornMachine.Reading.Term

/-!
# The grammar of terms

The grammar says which texts spell which phrase. It leaves open which texts count as an empty
argument list: in the grammar proper those are the blank ones, but reading takes any list of blanks
and commas alone for an empty one.

Main statements: a text that spells a phrase is read as that phrase is (`readTerm_of_spells`), and a
text that can be read spells a phrase (`exists_spells`).
-/

namespace HornMachine

namespace Text

/-- One or more decimal digits. -/
def Digits (text : List Char) : Prop := text ≠ [] ∧ ∀ c ∈ text, c.isDigit = true

/-- Decimal digits, perhaps after a sign, and the number they write. -/
inductive Numeral : List Char → Int → Prop
  | unsigned {digits : List Char} (made : Digits digits) :
      Numeral digits (Nat.ofDigitChars 10 digits 0 : Nat)
  | plus {digits : List Char} (made : Digits digits) :
      Numeral ('+' :: digits) (Nat.ofDigitChars 10 digits 0 : Nat)
  | minus {digits : List Char} (made : Digits digits) :
      Numeral ('-' :: digits) (-(Nat.ofDigitChars 10 digits 0 : Nat))

end Text

namespace Reading

open HornMachine.Text

/-- The texts of a phrase, where `vacant` says which texts are an empty argument list. -/
inductive Spells (vacant : List Char → Prop) : Phrase → List Char → Prop
  | blanks {phrase : Phrase} {left text right : List Char} (before : Blank left)
      (after : Blank right) (spells : Spells vacant phrase text) :
      Spells vacant phrase (left ++ text ++ right)
  | var {name : List Char} (named : isVariableName name = true) :
      Spells vacant (.var (String.ofList name)) name
  | num {text : List Char} {value : Int} (numeral : Numeral text value)
      (fits : fitsWord value = true) : Spells vacant (.num value) text
  | atom {name : List Char} (named : isAtomName name = true) :
      Spells vacant (.compound (String.ofList name) []) name
  | empty {name gap inside : List Char} (named : isAtomName name = true) (blank : Blank gap)
      (nothing : vacant inside) :
      Spells vacant (.compound (String.ofList name) []) (name ++ gap ++ '(' :: (inside ++ [')']))
  | compound {name gap : List Char} {args : List Phrase} {texts : List (List Char)}
      (named : isAtomName name = true) (blank : Blank gap) (some_args : args ≠ [])
      (few : args.length ≤ Functor.maxArity) (paired : args.length = texts.length)
      (each : ∀ pair ∈ args.zip texts, Spells vacant pair.1 pair.2) :
      Spells vacant (.compound (String.ofList name) args)
        (name ++ gap ++ '(' :: ([','].intercalate texts ++ [')']))

/-! ### Words and numerals -/

private theorem readDigits?_eq_some_iff {text : List Char} {value : Nat} :
    readDigits? text = some value ↔ Digits text ∧ value = Nat.ofDigitChars 10 text 0 := by
  unfold readDigits? Digits
  rw [Nat.ofDigitChars_eq_foldl, ← List.all_eq_true, ne_eq, ← List.isEmpty_iff]
  cases text.isEmpty with
  | true => simp
  | false =>
    cases text.all Char.isDigit with
    | false => simp
    | true => simp [eq_comm (a := value)]

/-- The numbers that are read are the numerals that fit a word. -/
theorem readInt?_eq_some_iff {text : List Char} {value : Int} :
    readInt? text = some value ↔ Numeral text value ∧ fitsWord value = true := by
  unfold readInt?
  rw [Option.filter_eq_some_iff]
  refine and_congr_left fun _ ↦ ?_
  constructor
  · intro read
    split at read
    · next rest =>
      cases found : readDigits? rest with
      | none => simp [found] at read
      | some n =>
        obtain ⟨made, rfl⟩ := readDigits?_eq_some_iff.1 found
        rw [found] at read
        cases read
        exact .minus made
    · obtain ⟨n, found, rfl⟩ := Option.map_eq_some_iff.1 read
      obtain ⟨made, rfl⟩ := readDigits?_eq_some_iff.1 found
      exact .plus made
    · obtain ⟨n, found, rfl⟩ := Option.map_eq_some_iff.1 read
      obtain ⟨made, rfl⟩ := readDigits?_eq_some_iff.1 found
      exact .unsigned made
  · have unsigned {c : Char} {rest : List Char} (made : Digits (c :: rest)) : c.isDigit = true :=
      made.2 c List.mem_cons_self
    rintro (made | made | made)
    · have found := readDigits?_eq_some_iff.2 ⟨made, rfl⟩
      split
      · exact absurd (unsigned made) (by decide)
      · exact absurd (unsigned made) (by decide)
      · rw [found]
        rfl
    · have found := readDigits?_eq_some_iff.2 ⟨made, rfl⟩
      simp only [found]
      rfl
    · have found := readDigits?_eq_some_iff.2 ⟨made, rfl⟩
      simp only [found]
      rfl

/-- A character of names and numerals. -/
def isWordChar (c : Char) : Bool := isNameChar c || c = '+' || c = '-'

private theorem isUpper_iff {c : Char} : c.isUpper = true ↔ 65 ≤ c.toNat ∧ c.toNat ≤ 90 :=
  decide_eq_true_iff

private theorem isLower_iff {c : Char} : c.isLower = true ↔ 97 ≤ c.toNat ∧ c.toNat ≤ 122 :=
  Bool.and_eq_true_iff.trans (and_congr decide_eq_true_iff decide_eq_true_iff)

private theorem isDigit_iff {c : Char} : c.isDigit = true ↔ 48 ≤ c.toNat ∧ c.toNat ≤ 57 :=
  Bool.and_eq_true_iff.trans (and_congr decide_eq_true_iff decide_eq_true_iff)

private theorem isAlphanum_iff {c : Char} :
    c.isAlphanum = true ↔ (c.isUpper = true ∨ c.isLower = true) ∨ c.isDigit = true :=
  Bool.or_eq_true_iff.trans (or_congr_left Bool.or_eq_true_iff)

private theorem toNat_of_isWordChar {c : Char} (word : isWordChar c = true) :
    43 ≤ c.toNat ∧ c.toNat ≤ 122 := by
  simp only [isWordChar, isNameChar, Bool.or_eq_true, isAlphanum_iff, isUpper_iff, isLower_iff,
    isDigit_iff, decide_eq_true_eq] at word
  rcases word with (((⟨low, high⟩ | ⟨low, high⟩) | ⟨low, high⟩) | rfl) | rfl | rfl
  · omega
  · omega
  · omega
  · decide
  · decide
  · decide

theorem isBlank_of_isWordChar {c : Char} (word : isWordChar c = true) : isBlank c = false := by
  obtain ⟨low, high⟩ := toNat_of_isWordChar word
  rw [← Bool.not_eq_true]
  intro blank
  obtain ⟨range, member, within⟩ := List.any_eq_true.1 blank
  simp only [Bool.and_eq_true, decide_eq_true_eq] at within
  have apart : ∀ range ∈ blankRanges, range.2 < 43 ∨ 122 < range.1 := by decide
  have := apart range member
  omega

/-- No mark of the source is a character of words. -/
theorem ne_of_isWordChar {c : Char} (word : isWordChar c = true) :
    c ≠ '(' ∧ c ≠ ')' ∧ c ≠ ',' ∧ c ≠ ':' ∧ c ≠ '.' ∧ c ≠ '%' := by
  refine ⟨?_, ?_, ?_, ?_, ?_, ?_⟩ <;> rintro rfl <;> revert word <;> decide

theorem isWordChar_of_isVariableName {name : List Char} (named : isVariableName name = true) :
    name ≠ [] ∧ ∀ c ∈ name, isWordChar c = true := by
  cases name with
  | nil => cases named
  | cons c rest =>
    rw [isVariableName, Bool.and_eq_true, List.all_eq_true] at named
    refine ⟨by simp, List.forall_mem_cons.2 ⟨?_, fun d hd ↦ by simp [isWordChar, named.2 d hd]⟩⟩
    rcases Bool.or_eq_true _ _ ▸ named.1 with upper | under
    · simp [isWordChar, isNameChar, isAlphanum_iff, upper]
    · simp [isWordChar, isNameChar, of_decide_eq_true under]

theorem isWordChar_of_isAtomName {name : List Char} (named : isAtomName name = true) :
    name ≠ [] ∧ ∀ c ∈ name, isWordChar c = true := by
  cases name with
  | nil => cases named
  | cons c rest =>
    rw [isAtomName, Bool.and_eq_true, List.all_eq_true] at named
    refine ⟨by simp, List.forall_mem_cons.2 ⟨?_, fun d hd ↦ by simp [isWordChar, named.2 d hd]⟩⟩
    simp [isWordChar, isNameChar, isAlphanum_iff, named.1]

theorem isWordChar_of_numeral {text : List Char} {value : Int} (numeral : Numeral text value) :
    text ≠ [] ∧ ∀ c ∈ text, isWordChar c = true := by
  have digits {text : List Char} (made : Digits text) : ∀ c ∈ text, isWordChar c = true :=
    fun c hc ↦ by simp [isWordChar, isNameChar, isAlphanum_iff, made.2 c hc]
  cases numeral with
  | unsigned made => exact ⟨made.1, digits made⟩
  | plus made => exact ⟨by simp, List.forall_mem_cons.2 ⟨by decide, digits made⟩⟩
  | minus made => exact ⟨by simp, List.forall_mem_cons.2 ⟨by decide, digits made⟩⟩

/-- Text made of word characters is trimmed already. -/
theorem trim_of_isWordChar {text : List Char} (word : ∀ c ∈ text, isWordChar c = true) :
    trim text = text :=
  trim_eq_self (fun c hc ↦ isBlank_of_isWordChar (word c (List.mem_of_mem_head? hc)))
    fun c hc ↦ isBlank_of_isWordChar (word c (List.mem_of_mem_getLast? hc))

/-! ### What reading a text comes to -/

private theorem readTerm_blank {text : List Char} (blank : trim text = []) :
    readTerm text = fail 1 .emptyTerm := by
  rw [readTerm, if_pos (by simp [blank])]

/-- Text without parentheses is a word. -/
theorem readTerm_word {text : List Char} (nonempty : trim text ≠ []) (plain : '(' ∉ trim text) :
    readTerm text = readWord (trim text) := by
  have none_opened : (trim text).dropWhile (· ≠ '(') = [] :=
    List.dropWhile_eq_nil_iff.2 fun c hc ↦ by
      simpa using fun same : c = '(' ↦ plain (same ▸ hc)
  rw [readTerm, if_neg (by simpa using nonempty)]
  split
  · rfl
  · next opened => rw [none_opened] at opened; cases opened

/-- A name applied to arguments that were read. -/
def applied (name : List Char) (args : List Term) : Reading Term := do
  if args.length > Functor.maxArity then fail 1 (.tooManyArguments (String.ofList name))
  let symbol ← intern (String.ofList name)
  pure (Term.apply symbol args)

/-- Text with a parenthesis is a name with what the parenthesis and the one closing it enclose. -/
theorem readTerm_opened {text name tail : List Char} (eq : trim text = name ++ '(' :: tail)
    (plain : '(' ∉ name) :
    readTerm text =
      match splitClosing? tail with
      | none => fail (byteLength name + 1) .unterminated
      | some (inside, after) =>
        if !after.isEmpty then
          fail (byteLength name + byteLength inside + 3)
            (.trailing (String.ofList (name ++ '(' :: inside ++ [')'])))
        else if !isAtomName (trim name) then
          fail 1 (.badFunctor (String.ofList (trim name)))
        else (pieces inside).mapM readTerm >>= applied (trim name) := by
  have others : ∀ c ∈ name, (decide (c ≠ '(')) = true := fun c hc ↦ by
    simpa using fun same : c = '(' ↦ plain (same ▸ hc)
  have front : (trim text).takeWhile (· ≠ '(') = name := by
    rw [eq, List.takeWhile_append_of_pos others]
    simp
  have rear : (trim text).dropWhile (· ≠ '(') = '(' :: tail := by
    rw [eq, List.dropWhile_append_of_pos others]
    simp
  rw [readTerm, if_neg (by simp [eq])]
  dsimp only
  rw [front]
  split
  · next none_opened => rw [rear] at none_opened; cases none_opened
  · next opened =>
    rw [rear] at opened
    cases opened
    split
    · next unclosed => rw [unclosed]
    · next inside after closed =>
      have all : (pieces inside).attach.mapM (fun piece ↦ readTerm piece.1) =
          (pieces inside).mapM readTerm := by
        conv_rhs => rw [← List.attach_map_subtype_val (pieces inside), List.mapM_map]
        rfl
      rw [closed]
      simp only [all]
      rfl

/-- Text with blanks around it is read as without. -/
theorem readTerm_trim (text : List Char) : readTerm (trim text) = readTerm text := by
  by_cases blank : trim text = []
  · rw [readTerm_blank blank, readTerm_blank (by rw [trim_trim, blank])]
  · by_cases opened : '(' ∈ trim text
    · obtain ⟨name, tail, eq, plain⟩ := List.eq_append_cons_of_mem opened
      rw [readTerm_opened eq plain, readTerm_opened (by rw [trim_trim, eq]) plain]
    · rw [readTerm_word blank opened, readTerm_word (by rwa [trim_trim]) (by rwa [trim_trim]),
        trim_trim]

/-! ### Texts of phrases are closed -/

/-- Text of nothing but blanks and commas, which is read as an empty argument list. -/
def Vacant (text : List Char) : Prop := ∀ c ∈ text, isBlank c = true ∨ c = ','

/-- A character that ends a part of the source when it stands outside parentheses. -/
def IsMark (c : Char) : Prop := c = ',' ∨ c = ':' ∨ c = '.'

private theorem ne_of_isBlank {c : Char} (blank : isBlank c = true) :
    c ≠ '(' ∧ c ≠ ')' ∧ ¬ IsMark c := by
  refine ⟨?_, ?_, ?_⟩
  · rintro rfl
    revert blank
    decide
  · rintro rfl
    revert blank
    decide
  · rintro (rfl | rfl | rfl) <;> revert blank <;> decide

private theorem closed_of_isWordChar {text : List Char} (word : ∀ c ∈ text, isWordChar c = true) :
    Closed IsMark text := by
  refine closed_of_plain fun c hc ↦ ?_
  obtain ⟨opening, closing, comma, colon, period, -⟩ := ne_of_isWordChar (word c hc)
  exact ⟨opening, closing, by simp [IsMark, comma, colon, period]⟩

private theorem closed_of_blank {text : List Char} (blank : Blank text) : Closed IsMark text :=
  closed_of_plain fun c hc ↦ ne_of_isBlank (blank c hc)

private theorem closed_of_vacant {text : List Char} (vacant : Vacant text) :
    Closed (fun _ ↦ False) text := by
  refine closed_of_plain fun c hc ↦ ?_
  rcases vacant c hc with blank | rfl
  · exact ⟨(ne_of_isBlank blank).1, (ne_of_isBlank blank).2.1, id⟩
  · exact ⟨by decide, by decide, id⟩

theorem mem_of_mem_zip {args : List Phrase} {texts : List (List Char)} {text : List Char}
    (paired : args.length = texts.length) (member : text ∈ texts) :
    ∃ arg, (arg, text) ∈ args.zip texts := by
  obtain ⟨i, there⟩ := List.mem_iff_getElem?.1 member
  obtain ⟨inside, -⟩ := List.getElem?_eq_some_iff.1 there
  refine ⟨args[i], List.mem_iff_getElem?.2 ⟨i, ?_⟩⟩
  rw [List.getElem?_zip_eq_some]
  exact ⟨List.getElem?_eq_getElem (by omega), there⟩

/-- What stands around an argument list closes it. -/
theorem closed_compound {name gap inside : List Char} (named : isAtomName name = true)
    (blank : Blank gap) (inner : Closed (fun _ ↦ False) inside) :
    Closed IsMark (name ++ gap ++ '(' :: (inside ++ [')'])) :=
  ((closed_of_isWordChar (isWordChar_of_isAtomName named).2).append (closed_of_blank blank)).append
    (.group inner .nil)

/-- The text of a phrase is closed, and holds no mark outside its parentheses. -/
theorem Spells.closed {phrase : Phrase} {text : List Char} (spells : Spells Vacant phrase text) :
    Closed IsMark text := by
  induction spells with
  | blanks before after _ ih =>
    exact ((closed_of_blank before).append ih).append (closed_of_blank after)
  | var named => exact closed_of_isWordChar (isWordChar_of_isVariableName named).2
  | num numeral _ => exact closed_of_isWordChar (isWordChar_of_numeral numeral).2
  | atom named => exact closed_of_isWordChar (isWordChar_of_isAtomName named).2
  | empty named blank nothing => exact closed_compound named blank (closed_of_vacant nothing)
  | compound named blank _ _ paired _ ih =>
    refine closed_compound named blank ?_
    refine closed_intercalate (by decide) (by decide) id fun text member ↦ ?_
    obtain ⟨arg, pair⟩ := mem_of_mem_zip paired member
    exact (ih _ pair).mono fun _ ↦ False.elim

theorem getLast?_compound (front inside : List Char) :
    (front ++ '(' :: (inside ++ [')'])).getLast? = some ')' := by
  rw [← List.cons_append, ← List.append_assoc, List.getLast?_concat]

/-- A name with a list in parentheses is trimmed already. -/
theorem trim_compound {name gap inside : List Char} (named : isAtomName name = true) :
    trim (name ++ gap ++ '(' :: (inside ++ [')'])) = name ++ gap ++ '(' :: (inside ++ [')']) := by
  obtain ⟨nonempty, word⟩ := isWordChar_of_isAtomName named
  obtain ⟨first, rest, rfl⟩ := List.exists_cons_of_ne_nil nonempty
  refine trim_eq_self (fun c hc ↦ ?_) fun c hc ↦ ?_
  · obtain rfl : first = c := by simpa using hc
    exact isBlank_of_isWordChar (word _ List.mem_cons_self)
  · rw [getLast?_compound] at hc
    cases hc
    decide

/-- A phrase ends in a character of a word or in a closing parenthesis. -/
theorem Spells.last_trim {vacant : List Char → Prop} {phrase : Phrase} {text : List Char}
    (spells : Spells vacant phrase text) :
    ∃ c, (trim text).getLast? = some c ∧ (isWordChar c = true ∨ c = ')') := by
  have word {text : List Char} (made : text ≠ [] ∧ ∀ c ∈ text, isWordChar c = true) :
      ∃ c, (trim text).getLast? = some c ∧ (isWordChar c = true ∨ c = ')') := by
    rw [trim_of_isWordChar made.2]
    refine ⟨text.getLast made.1, List.getLast?_eq_some_getLast made.1, .inl ?_⟩
    exact made.2 _ (List.getLast_mem made.1)
  induction spells with
  | blanks before after _ ih => rwa [trim_pad before after]
  | var named => exact word (isWordChar_of_isVariableName named)
  | num numeral _ => exact word (isWordChar_of_numeral numeral)
  | atom named => exact word (isWordChar_of_isAtomName named)
  | empty named _ _ => exact ⟨')', by rw [trim_compound named, getLast?_compound], .inr rfl⟩
  | compound named _ _ _ _ _ _ =>
    exact ⟨')', by rw [trim_compound named, getLast?_compound], .inr rfl⟩

theorem Spells.trim_ne_nil {vacant : List Char → Prop} {phrase : Phrase} {text : List Char}
    (spells : Spells vacant phrase text) : trim text ≠ [] := by
  obtain ⟨c, last, -⟩ := spells.last_trim
  intro nothing
  rw [nothing] at last
  cases last

/-! ### A text is read as the phrase it spells -/

theorem readTerm_of_word {text : List Char} (made : text ≠ [] ∧ ∀ c ∈ text, isWordChar c = true) :
    readTerm text = readWord text := by
  have trimmed := trim_of_isWordChar made.2
  have plain : '(' ∉ text := fun opened ↦ (ne_of_isWordChar (made.2 _ opened)).1 rfl
  rw [readTerm_word (by rw [trimmed]; exact made.1) (by rwa [trimmed]), trimmed]

private theorem not_isName_of_numeral {text : List Char} {value : Int}
    (numeral : Numeral text value) :
    isVariableName text = false ∧ isAtomName text = false := by
  cases numeral with
  | plus _ => exact ⟨rfl, rfl⟩
  | minus _ => exact ⟨rfl, rfl⟩
  | unsigned made =>
    cases text with
    | nil => exact absurd rfl made.1
    | cons c rest =>
      have digit := made.2 c List.mem_cons_self
      have under : c ≠ '_' := by
        rintro rfl
        revert digit
        decide
      have range := isDigit_iff.1 digit
      have upper : c.isUpper = false := by
        rw [← Bool.not_eq_true, isUpper_iff]
        omega
      have lower : c.isLower = false := by
        rw [← Bool.not_eq_true, isLower_iff]
        omega
      simp [isVariableName, isAtomName, upper, lower, under]

private theorem not_isVariableName {name : List Char} (named : isAtomName name = true) :
    isVariableName name = false := by
  cases name with
  | nil => rfl
  | cons c rest =>
    have lower := (Bool.and_eq_true _ _ ▸ named : _ ∧ _).1
    have under : c ≠ '_' := by
      rintro rfl
      revert lower
      decide
    have upper : c.isUpper = false := by
      have range := isLower_iff.1 lower
      rw [← Bool.not_eq_true, isUpper_iff]
      omega
    simp [isVariableName, upper, under]

theorem mapM_readTerm {args : List Phrase} {texts : List (List Char)}
    (paired : args.length = texts.length)
    (each : ∀ pair ∈ args.zip texts, readTerm pair.2 = pair.1.read) :
    (texts.map trim).mapM readTerm = Phrase.readAll args := by
  induction args generalizing texts with
  | nil => rw [List.eq_nil_of_length_eq_zero paired.symm, Phrase.readAll]; rfl
  | cons arg args ih =>
    cases texts with
    | nil => cases paired
    | cons text texts =>
      rw [List.zip_cons_cons] at each
      obtain ⟨here, later⟩ := List.forall_mem_cons.1 each
      rw [List.map_cons, List.mapM_cons, ih (Nat.succ.inj paired) later, readTerm_trim, here,
        Phrase.readAll]

/-- A name is applied to no more arguments than a functor can have. -/
theorem readAll_applied {args : List Phrase} (few : args.length ≤ Functor.maxArity)
    (name : List Char) :
    (Phrase.readAll args >>= applied name) = (Phrase.compound (String.ofList name) args).read := by
  funext session
  obtain ⟨terms, read, paired, -⟩ := @Phrase.exists_readAll args (fun arg _ ↦ arg.reads) session
  have fits : ¬ terms.length > Functor.maxArity := by omega
  rw [Phrase.read, bind_apply, bind_apply, read]
  simp only [applied, fits, if_false]

private theorem blank_of_mem_piecesFrom {piece text part : List Char} (begun : Blank piece)
    (vacant : Vacant text) (member : part ∈ piecesFrom piece 0 text) : Blank part := by
  induction text generalizing piece with
  | nil =>
    rw [piecesFrom, List.mem_singleton] at member
    rw [member]
    exact begun.reverse
  | cons c rest ih =>
    obtain ⟨here, later⟩ := List.forall_mem_cons.1 vacant
    rw [piecesFrom] at member
    split at member
    · rcases List.mem_cons.1 member with rfl | other
      · exact begun.reverse
      · exact ih blank_nil later other
    · next stay =>
      have blank : isBlank c = true := here.resolve_right fun comma ↦ stay ⟨comma, rfl⟩
      obtain ⟨opening, closing, -⟩ := ne_of_isBlank blank
      have same : depthAfter 0 c = 0 := by simp [depthAfter, opening, closing]
      rw [same] at member
      exact ih (List.forall_mem_cons.2 ⟨blank, begun⟩) later member

private theorem pieces_of_vacant {inside : List Char} (vacant : Vacant inside) :
    pieces inside = [] := by
  refine if_pos ?_
  rw [List.all_eq_true]
  intro part member
  obtain ⟨whole, among, rfl⟩ := List.mem_map.1 member
  rw [trim_eq_nil_iff.2 (blank_of_mem_piecesFrom blank_nil vacant among)]
  rfl

theorem pieces_intercalate {texts : List (List Char)} (nonempty : texts ≠ [])
    (each : ∀ text ∈ texts, Closed IsMark text) (said : ∀ text ∈ texts, trim text ≠ []) :
    pieces ([','].intercalate texts) = texts.map trim := by
  have cut := piecesFrom_intercalate nonempty fun text member ↦
    (each text member).mono fun _ comma ↦ .inl comma
  obtain ⟨text, rest, rfl⟩ := List.exists_cons_of_ne_nil nonempty
  have here := said text List.mem_cons_self
  simp only [pieces, cut]
  rw [if_neg]
  simp [here]

/-- A text that spells a phrase is read as the phrase. -/
theorem readTerm_of_spells {phrase : Phrase} {text : List Char}
    (spells : Spells Vacant phrase text) : readTerm text = phrase.read := by
  have opened {name gap inside : List Char} (named : isAtomName name = true) (blank : Blank gap)
      (inner : Closed (fun _ ↦ False) inside) :
      readTerm (name ++ gap ++ '(' :: (inside ++ [')'])) =
        (pieces inside).mapM readTerm >>= applied name := by
    have word := (isWordChar_of_isAtomName named).2
    have plain : '(' ∉ name ++ gap := by
      rintro there
      rcases List.mem_append.1 there with h | h
      · exact (ne_of_isWordChar (word _ h)).1 rfl
      · exact (ne_of_isBlank (blank _ h)).1 rfl
    have stem : trim (name ++ gap) = name := by
      have padded := trim_pad blank_nil blank name
      rwa [List.nil_append, trim_of_isWordChar word] at padded
    rw [readTerm_opened (trim_compound named) plain, splitClosing?_closed inner, stem]
    simp [named]
  induction spells with
  | blanks before after _ ih => rw [← readTerm_trim, trim_pad before after, readTerm_trim, ih]
  | var named =>
    rw [readTerm_of_word (isWordChar_of_isVariableName named), readWord, if_pos named, Phrase.read]
  | num numeral fits =>
    obtain ⟨notVariable, notAtom⟩ := not_isName_of_numeral numeral
    rw [readTerm_of_word (isWordChar_of_numeral numeral), readWord, notVariable, notAtom,
      readInt?_eq_some_iff.2 ⟨numeral, fits⟩, Phrase.read]
    rfl
  | atom named =>
    rw [readTerm_of_word (isWordChar_of_isAtomName named), readWord, not_isVariableName named,
      if_pos named, ← readAll_applied (Nat.zero_le _)]
    rfl
  | empty named blank nothing =>
    rw [opened named blank (closed_of_vacant nothing), pieces_of_vacant nothing,
      ← readAll_applied (Nat.zero_le _)]
    rfl
  | @compound name gap args texts named blank some_args few paired each ih =>
    have texts_each (text) (member : text ∈ texts) := mem_of_mem_zip paired member
    have closed : ∀ text ∈ texts, Closed IsMark text := fun text member ↦ by
      obtain ⟨arg, pair⟩ := texts_each text member
      exact (each _ pair).closed
    have said : ∀ text ∈ texts, trim text ≠ [] := fun text member ↦ by
      obtain ⟨arg, pair⟩ := texts_each text member
      exact (each _ pair).trim_ne_nil
    have nonempty : texts ≠ [] := by
      rintro rfl
      exact some_args (List.eq_nil_of_length_eq_zero paired)
    have inner : Closed (fun _ ↦ False) ([','].intercalate texts) :=
      closed_intercalate (by decide) (by decide) id fun text member ↦
        (closed text member).mono fun _ ↦ False.elim
    rw [opened named blank inner, pieces_intercalate nonempty closed said, mapM_readTerm paired ih,
      readAll_applied few]

/-! ### A text that can be read spells a phrase -/

private theorem fail_ne_ok {α : Type} {column : Nat} {issue : ParseIssue} {session later : Session}
    {value : α} : (fail column issue : Reading α) session ≠ .ok value later := nofun

private theorem exists_spells_word {word : List Char} {session later : Session} {term : Term}
    (read : readWord word session = .ok term later) : ∃ phrase, Spells Vacant phrase word := by
  by_cases variable_name : isVariableName word = true
  · exact ⟨_, .var variable_name⟩
  · by_cases atom_name : isAtomName word = true
    · exact ⟨_, .atom atom_name⟩
    · cases found : readInt? word with
      | some value =>
        obtain ⟨numeral, fits⟩ := readInt?_eq_some_iff.1 found
        exact ⟨_, .num numeral fits⟩
      | none =>
        rw [readWord, if_neg variable_name, if_neg atom_name, found] at read
        exact (fail_ne_ok read).elim

/-- Pieces that are all empty were cut from text of blanks and commas. -/
theorem vacant_intercalate {parts : List (List Char)} (each : ∀ part ∈ parts, Blank part) :
    Vacant ([','].intercalate parts) :=
  forall_mem_intercalate (fun _ hc ↦ .inr (List.mem_singleton.1 hc))
    fun part member c hc ↦ .inl (each part member c hc)

private theorem exists_phrases {vacant : List Char → Prop} {texts : List (List Char)}
    (each : ∀ text ∈ texts, ∃ phrase, Spells vacant phrase text) :
    ∃ args : List Phrase, args.length = texts.length ∧
      ∀ pair ∈ args.zip texts, Spells vacant pair.1 pair.2 := by
  induction texts with
  | nil => exact ⟨[], rfl, nofun⟩
  | cons text texts ih =>
    obtain ⟨⟨phrase, here⟩, later⟩ := List.forall_mem_cons.1 each
    obtain ⟨args, paired, rest⟩ := ih later
    refine ⟨phrase :: args, by simp [paired], ?_⟩
    rw [List.zip_cons_cons]
    exact List.forall_mem_cons.2 ⟨here, rest⟩

theorem Spells.of_trim {vacant : List Char → Prop} {phrase : Phrase} {text : List Char}
    (spells : Spells vacant phrase (trim text)) : Spells vacant phrase text := by
  obtain ⟨left, right, before, after, eq⟩ := exists_pad text
  rw [eq]
  exact spells.blanks before after

/-- A list of arguments that can be read is empty or spells phrases. -/
theorem exists_spells_compound {name gap inside : List Char} (named : isAtomName name = true)
    (blank : Blank gap) {session middle later : Session} {args : List Term} {term : Term}
    (read : (pieces inside).mapM readTerm session = .ok args middle)
    (made : applied name args middle = .ok term later)
    (each : ∀ piece ∈ pieces inside, ∀ first value next,
      readTerm piece first = .ok value next → ∃ phrase, Spells Vacant phrase piece) :
    ∃ phrase, Spells Vacant phrase (name ++ gap ++ '(' :: (inside ++ [')'])) := by
  have whole := intercalate_piecesFrom [] 0 inside
  rw [List.reverse_nil, List.nil_append] at whole
  obtain ⟨length, ends⟩ := exists_of_mapM read
  by_cases nothing : ((piecesFrom [] 0 inside).map trim).all List.isEmpty = true
  · refine ⟨_, .empty named blank ?_⟩
    rw [← whole]
    refine vacant_intercalate fun part member ↦ trim_eq_nil_iff.1 ?_
    simpa using List.all_eq_true.1 nothing _ (List.mem_map_of_mem member)
  · have cut : pieces inside = (piecesFrom [] 0 inside).map trim := if_neg nothing
    have spelled : ∀ part ∈ piecesFrom [] 0 inside, ∃ phrase, Spells Vacant phrase part := by
      intro part member
      have among : trim part ∈ pieces inside := cut ▸ List.mem_map_of_mem member
      obtain ⟨first, value, next, found⟩ := ends _ among
      obtain ⟨phrase, spells⟩ := each _ among _ _ _ found
      exact ⟨phrase, spells.of_trim⟩
    obtain ⟨phrases, paired, rest⟩ := exists_phrases spelled
    have some_args : phrases ≠ [] := by
      rintro rfl
      exact piecesFrom_ne_nil [] 0 inside (List.eq_nil_of_length_eq_zero paired.symm)
    have few : phrases.length ≤ Functor.maxArity := by
      by_contra many
      rw [cut, List.length_map] at length
      have tooMany : args.length > Functor.maxArity := by omega
      simp only [applied, tooMany, if_true] at made
      exact fail_ne_ok (bind_eq_ok.1 made).choose_spec.choose_spec.1
    rw [← whole]
    exact ⟨_, .compound named blank some_args few paired rest⟩

/-- The beginning of trimmed text has blanks at its end only. -/
theorem exists_gap {text front rest : List Char} (eq : trim text = front ++ rest) :
    ∃ gap, Blank gap ∧ front = trim front ++ gap := by
  obtain ⟨left, right, before, after, frontEq⟩ := exists_pad front
  cases left with
  | nil => exact ⟨right, after, frontEq⟩
  | cons c left =>
    have dark : isBlank c = false := @isBlank_head_trim text c (by rw [eq, frontEq]; rfl)
    rw [before c List.mem_cons_self] at dark
    cases dark

/-- A text that can be read spells a phrase. -/
theorem exists_spells {text : List Char} {session later : Session} {term : Term}
    (read : readTerm text session = .ok term later) : ∃ phrase, Spells Vacant phrase text := by
  induction size : text.length using Nat.strongRecOn generalizing text session later term with
  | ind n ih =>
    suffices trimmed : ∃ phrase, Spells Vacant phrase (trim text) by
      obtain ⟨phrase, spells⟩ := trimmed
      exact ⟨phrase, spells.of_trim⟩
    by_cases blank : trim text = []
    · rw [readTerm_blank blank] at read
      exact (fail_ne_ok read).elim
    · by_cases opened : '(' ∈ trim text
      · obtain ⟨front, tail, eq, plain⟩ := List.eq_append_cons_of_mem opened
        rw [readTerm_opened eq plain] at read
        split at read
        · exact (fail_ne_ok read).elim
        · next inside after closed =>
          split at read
          · exact (fail_ne_ok read).elim
          · next ended =>
            split at read
            · exact (fail_ne_ok read).elim
            · next named =>
              obtain ⟨args, middle, parts, made⟩ := bind_eq_ok.1 read
              have last : after = [] := by simpa using ended
              have tailEq := eq_of_splitClosing? closed
              obtain ⟨gap, gapBlank, frontEq⟩ := exists_gap eq
              rw [eq, tailEq, last, frontEq]
              refine exists_spells_compound (by simpa using named) gapBlank parts made ?_
              intro piece member first value next found
              refine ih piece.length ?_ found rfl
              have short := length_le_of_mem_pieces member
              have long := length_trim_le text
              rw [eq, tailEq] at long
              simp only [List.length_append, List.length_cons] at long
              omega
      · rw [readTerm_word blank opened] at read
        exact exists_spells_word read

end Reading
end HornMachine
