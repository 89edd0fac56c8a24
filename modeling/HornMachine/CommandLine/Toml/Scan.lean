import HornMachine.Text.Integer

/-!
# Words of a TOML text

The parts that stand on one place of a TOML text: blanks, comments, ends of lines, quoted strings,
keys and whole numbers. A scan takes its part from the front of the text and leaves the rest, or
finds that the text does not start with such a part.
-/

namespace HornMachine.CommandLine.Toml

/-- A scan of the front of a text. -/
abbrev Scan := StateT (List Char) Option

namespace Scan

/-- The next character, which is not taken. -/
def peek : Scan (Option Char) := fun text ↦ some (text.head?, text)

/-- Take a character if it is next. -/
def accept (c : Char) : Scan Bool := fun
  | [] => some (false, [])
  | d :: rest => if d = c then some (true, rest) else some (false, d :: rest)

/-- Take a character that has to be next. -/
def expect (c : Char) : Scan Unit := do
  if ← accept c then pure () else failure

/-- Take all characters of a class. -/
def takeWhile (p : Char → Bool) : Scan (List Char) := fun text ↦
  some (text.takeWhile p, text.dropWhile p)

/-- Take spaces and tabs. -/
def blanks : Scan Unit := do
  let _ ← takeWhile fun c ↦ c = ' ' || c = '\t'

/-- Whether a character may stand in a comment or, quotes and backslashes apart, in a string. -/
def isPrintable (c : Char) : Bool := c = '\t' || (' ' ≤ c && c ≤ '~') || '\x80' ≤ c

/-- Take a comment if one is next. -/
def comment : Scan Unit := do
  if ← accept '#' then
    let _ ← takeWhile isPrintable

/-- Take a line feed, which a carriage return may precede. -/
def newline : Scan Unit := do
  let _ ← accept '\r'
  expect '\n'

/-- Take what may follow a statement, up to the start of the next line. -/
def endLine : Scan Unit := do
  blanks
  comment
  match ← peek with
  | none => pure ()
  | some _ => newline

/-! ### Strings -/

/-- Value of a hexadecimal digit. -/
def hexDigit? (c : Char) : Option Nat :=
  if c.isDigit then some (c.toNat - '0'.toNat)
  else if 'a' ≤ c && c ≤ 'f' then some (c.toNat - 'a'.toNat + 10)
  else if 'A' ≤ c && c ≤ 'F' then some (c.toNat - 'A'.toNat + 10)
  else none

/-- The number with the given digits in a base, if all of them are digits there. -/
def readBase? (base : Nat) (digits : List Char) : Option Nat :=
  digits.foldlM (fun value c ↦ do
    let digit ← hexDigit? c
    guard (digit < base)
    some (base * value + digit)) 0

/-- The character with a hexadecimal code. -/
def codePoint? (digits : List Char) : Option Char := do
  let code ← readBase? 16 digits
  if code.isValidChar then some (Char.ofNat code) else none

/-- The character that a backslash and a letter stand for. -/
def escaped? : Char → Option Char
  | 'b' => some '\x08'
  | 't' => some '\t'
  | 'n' => some '\n'
  | 'f' => some '\x0c'
  | 'r' => some '\r'
  | '"' => some '"'
  | '\\' => some '\\'
  | _ => none

/-- Put a character in front of the text scanned. -/
def prepend (c : Char) : List Char × List Char → List Char × List Char
  | (text, rest) => (c :: text, rest)

/-- The rest of a string in double quotes. -/
def basicText : List Char → Option (List Char × List Char)
  | [] => none
  | '"' :: rest => some ([], rest)
  | '\\' :: 'u' :: a :: b :: c :: d :: rest => do
    prepend (← codePoint? [a, b, c, d]) <$> basicText rest
  | '\\' :: 'U' :: a :: b :: c :: d :: e :: f :: g :: h :: rest => do
    prepend (← codePoint? [a, b, c, d, e, f, g, h]) <$> basicText rest
  | '\\' :: c :: rest => do prepend (← escaped? c) <$> basicText rest
  | c :: rest => if isPrintable c then prepend c <$> basicText rest else none

/-- The rest of a string in single quotes, in which nothing is escaped. -/
def literalText : List Char → Option (List Char × List Char)
  | [] => none
  | '\'' :: rest => some ([], rest)
  | c :: rest => if isPrintable c then prepend c <$> literalText rest else none

/-- Whether only blanks are left on the line. -/
def atLineEnd : List Char → Bool
  | ' ' :: rest | '\t' :: rest => atLineEnd rest
  | '\n' :: _ | '\r' :: '\n' :: _ => true
  | _ => false

/-- The rest of a string in three double quotes. Up to two quotes may stand together inside it, also
at its end. A backslash at the end of a line takes out all blanks and ends of lines after it; while
that goes on `skipping` is set. -/
def longBasicText (skipping : Bool) : List Char → Option (List Char × List Char)
  | [] => none
  | '"' :: '"' :: '"' :: '"' :: '"' :: rest => some (['"', '"'], rest)
  | '"' :: '"' :: '"' :: '"' :: rest => some (['"'], rest)
  | '"' :: '"' :: '"' :: rest => some ([], rest)
  | '\\' :: 'u' :: a :: b :: c :: d :: rest => do
    prepend (← codePoint? [a, b, c, d]) <$> longBasicText false rest
  | '\\' :: 'U' :: a :: b :: c :: d :: e :: f :: g :: h :: rest => do
    prepend (← codePoint? [a, b, c, d, e, f, g, h]) <$> longBasicText false rest
  | '\\' :: c :: rest =>
    if atLineEnd (c :: rest) then longBasicText true (c :: rest)
    else do prepend (← escaped? c) <$> longBasicText false rest
  | '\r' :: '\n' :: rest | '\n' :: rest =>
    if skipping then longBasicText true rest else prepend '\n' <$> longBasicText false rest
  | c :: rest =>
    if skipping && (c = ' ' || c = '\t') then longBasicText true rest
    else if isPrintable c then prepend c <$> longBasicText false rest
    else none

/-- The rest of a string in three single quotes. Up to two quotes may stand together inside it, also
at its end. -/
def longLiteralText : List Char → Option (List Char × List Char)
  | [] => none
  | '\'' :: '\'' :: '\'' :: '\'' :: '\'' :: rest => some (['\'', '\''], rest)
  | '\'' :: '\'' :: '\'' :: '\'' :: rest => some (['\''], rest)
  | '\'' :: '\'' :: '\'' :: rest => some ([], rest)
  | '\r' :: '\n' :: rest | '\n' :: rest => prepend '\n' <$> longLiteralText rest
  | c :: rest => if isPrintable c then prepend c <$> longLiteralText rest else none

/-- The end of a line right after the opening quotes does not count. -/
def dropFirstNewline : List Char → List Char
  | '\n' :: rest | '\r' :: '\n' :: rest => rest
  | text => text

/-- Take a string of any kind. -/
def string : Scan String := fun text ↦ do
  let (value, rest) ← match text with
    | '"' :: '"' :: '"' :: rest => longBasicText false (dropFirstNewline rest)
    | '"' :: rest => basicText rest
    | '\'' :: '\'' :: '\'' :: rest => longLiteralText (dropFirstNewline rest)
    | '\'' :: rest => literalText rest
    | _ => none
  some (String.ofList value, rest)

/-! ### Keys -/

/-- Whether a character may stand in a key without quotes. -/
def isKeyChar (c : Char) : Bool := c.isAlphanum || c = '_' || c = '-'

/-- Take one part of a key: a word, or a string on one line. -/
def keyPart : Scan String := fun text ↦ do
  let (value, rest) ← match text with
    | '"' :: rest => basicText rest
    | '\'' :: rest => literalText rest
    | _ =>
      let word := text.takeWhile isKeyChar
      if word.isEmpty then none else some (word, text.dropWhile isKeyChar)
  some (String.ofList value, rest)

/-- Take a key of at most `count` parts with dots between them; blanks may stand around each. -/
def keyWithin : Nat → Scan (List String)
  | 0 => failure
  | count + 1 => do
    blanks
    let part ← keyPart
    blanks
    if ← accept '.' then
      let parts ← keyWithin count
      pure (part :: parts)
    else pure [part]

/-- Take a key: its parts from left to right. -/
def key : Scan (List String) := do
  let text ← get
  keyWithin text.length

/-! ### Numbers and truth values -/

/-- Digits without the single underscores that may stand between them. -/
def ungroup? (digits : List Char) : Option (List Char) :=
  if digits.isEmpty || digits.head? = some '_' || digits.getLast? = some '_' ||
      (digits.zip digits.tail).any (· = ('_', '_')) then none
  else some (digits.filter (· ≠ '_'))

/-- The value of a decimal number without a sign. It has no leading zeros. -/
def readDecimal? (digits : List Char) : Option Nat := do
  let digits ← ungroup? digits
  guard (digits.head? ≠ some '0' ∨ digits.length = 1)
  Text.readDigits? digits

/-- The value of a word that is a whole number and fits a signed word of 64 bits. It is decimal with
an optional sign, or hexadecimal, octal or binary without one. -/
def readInteger? (word : List Char) : Option Int := do
  let value : Int ← match word with
    | '0' :: 'x' :: digits => Int.ofNat <$> ((ungroup? digits).bind (readBase? 16))
    | '0' :: 'o' :: digits => Int.ofNat <$> ((ungroup? digits).bind (readBase? 8))
    | '0' :: 'b' :: digits => Int.ofNat <$> ((ungroup? digits).bind (readBase? 2))
    | '+' :: digits => Int.ofNat <$> readDecimal? digits
    | '-' :: digits => (fun n ↦ -(n : Int)) <$> readDecimal? digits
    | digits => Int.ofNat <$> readDecimal? digits
  guard (Text.fitsWord value)
  some value

/-- Take a word of letters, digits and the signs that can stand in numbers and dates. -/
def word : Scan (List Char) :=
  takeWhile fun c ↦ isKeyChar c || c = '+' || c = '.' || c = ':'

end Scan
end HornMachine.CommandLine.Toml
