import HornMachine.Reading.Session
import HornMachine.Text.Integer
import HornMachine.Text.Nesting

/-!
# Reading terms

A variable starts with an upper-case letter or `_`, an atom with a lower-case letter; both go on
with letters, digits and `_`. A number is a whole number of 64 bits. A structure is an atom name
with arguments in parentheses, and an empty pair of parentheses after a name gives the atom. Blanks
may stand around every part.
-/

namespace HornMachine.Reading

open HornMachine.Text

/-- A character that may follow the first of a name. -/
def isNameChar (c : Char) : Bool := c.isAlphanum || c = '_'

/-- Names of variables: an upper-case letter or `_`, then name characters. -/
def isVariableName : List Char → Bool
  | [] => false
  | c :: rest => (c.isUpper || c = '_') && rest.all isNameChar

/-- Names of atoms: a lower-case letter, then name characters. -/
def isAtomName : List Char → Bool
  | [] => false
  | c :: rest => c.isLower && rest.all isNameChar

/-- Text less surrounding blanks and one period at its end. -/
def dropPeriod (text : List Char) : List Char :=
  let body := trim text
  if body.getLast? = some '.' then body.dropLast else body

/-- Read a word without parentheses. -/
def readWord (word : List Char) : Reading Term :=
  let name := String.ofList word
  if isVariableName word then Term.var <$> namedVar name
  else if isAtomName word then Term.atom <$> intern name
  else match readInt? word with
    | some value => pure (.num value)
    | none => fail 1 (.unsupportedToken name)

/-- Read a term. Arguments are read from left to right, and the name in front of them is
registered after theirs. -/
def readTerm (text : List Char) : Reading Term :=
  if (trim text).isEmpty then fail 1 .emptyTerm
  else
    let name := (trim text).takeWhile (· ≠ '(')
    match _opened : (trim text).dropWhile (· ≠ '(') with
    | [] => readWord (trim text)
    | _ :: tail =>
      match closed : splitClosing? tail with
      | none => fail (byteLength name + 1) .unterminated
      | some (inside, after) =>
        if !after.isEmpty then
          fail (byteLength name + byteLength inside + 3)
            (.trailing (String.ofList (name ++ '(' :: inside ++ [')'])))
        else if !isAtomName (trim name) then
          fail 1 (.badFunctor (String.ofList (trim name)))
        else do
          let args ← (pieces inside).attach.mapM fun ⟨piece, _member⟩ ↦ readTerm piece
          if args.length > Functor.maxArity then
            fail 1 (.tooManyArguments (String.ofList (trim name)))
          let symbol ← intern (String.ofList (trim name))
          pure (Term.apply symbol args)
termination_by text.length
decreasing_by
  have pieceShort := length_le_of_mem_pieces _member
  have tailSplit := congrArg List.length (eq_of_splitClosing? closed)
  have tailShort := (List.dropWhile_sublist (· ≠ '(') (l := trim text)).length_le
  have textShort := length_trim_le text
  simp only [List.length_append, List.length_cons] at tailSplit
  rw [_opened] at tailShort
  simp only [List.length_cons] at tailShort
  omega

/-- Read a term with variables of its own, numbered from zero, perhaps ended by a period. -/
def readSingleTerm (text : List Char) : Reading Term := do
  newScope
  readTerm (dropPeriod text)

end HornMachine.Reading
