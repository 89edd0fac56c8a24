import HornMachine.Reading.Clause

/-!
# Reading rule sources

A source is a text of statements. A `%` starts a comment that runs to the end of its line. A period
outside parentheses ends a statement when a blank or the end of the line follows. The text is first
cut into statements and then each statement is read in turn, so a missing last period is reported
before anything else.
-/

namespace HornMachine

/-- The statements of a source in the order of the text. -/
structure Source where
  statements : List Statement
deriving DecidableEq

namespace Source

/-- The facts, in order. -/
def facts (source : Source) : List Fact :=
  source.statements.filterMap fun
    | .fact fact => some fact
    | _ => none

/-- The rules, in order. -/
def rules (source : Source) : List Rule :=
  source.statements.filterMap fun
    | .rule rule => some rule
    | _ => none

/-- The goals, in order. -/
def goals (source : Source) : List Term :=
  source.statements.filterMap fun
    | .goal goal => some goal
    | _ => none

/-- The declared predicates, in order. -/
def declarations (source : Source) : List Functor :=
  source.statements.flatMap fun
    | .declare functors => functors
    | _ => []

end Source

namespace Reading

open HornMachine.Text

/-- The lines of a text. A line ends with a line feed, which a carriage return may precede; the end
of the text ends the last line if it is not empty. -/
def lines : List Char → List (List Char)
  | [] => []
  | '\n' :: rest => [] :: lines rest
  | '\r' :: '\n' :: rest => [] :: lines rest
  | c :: rest =>
    match lines rest with
    | [] => [[c]]
    | line :: others => (c :: line) :: others

/-- A line up to its comment. -/
def dropComment (line : List Char) : List Char := line.takeWhile (· ≠ '%')

/-- Progress of cutting a source into statements. -/
structure Cutting where
  /-- Statements cut so far, the latest first, each with the line it starts on. -/
  done : List (Nat × List Char) := []
  buffer : List Char := []
  start : Nat := 1
  depth : Int := 0

namespace Cutting

/-- A statement starts where its first character that is not blank stands. -/
def enter (cut : Cutting) (line : Nat) : Cutting :=
  if cut.buffer.isEmpty then { cut with start := line } else cut

/-- Take a character into the current statement; blanks in front of it are passed over. -/
def push (cut : Cutting) (c : Char) : Cutting :=
  if cut.buffer.isEmpty && isBlank c then cut
  else { cut with buffer := c :: cut.buffer, depth := depthAfter cut.depth c }

/-- End the current statement. -/
def close (cut : Cutting) : Cutting :=
  { cut with done := (cut.start, cut.buffer.reverse) :: cut.done, buffer := [] }

/-- Whether a period followed by `rest` on its line ends the current statement. -/
def endsBefore (cut : Cutting) (rest : List Char) : Bool :=
  cut.depth = 0 && (rest.head?.all isBlank)

/-- Take the characters of one line; the end of the line counts as a blank. -/
def addLine (line : Nat) : List Char → Cutting → Cutting
  | [], cut => cut.push ' '
  | c :: rest, cut =>
    let entered := cut.enter line
    if c = '.' && entered.endsBefore rest then addLine line rest entered.close
    else addLine line rest (entered.push c)

/-- Take lines, numbered from `line`, without their comments. -/
def addLines (line : Nat) : List (List Char) → Cutting → Cutting
  | [], cut => cut
  | text :: texts, cut => addLines (line + 1) texts (addLine line (dropComment text) cut)

end Cutting

/-- Cut a source into statements, each with the line it starts on. -/
def cutStatements (text : List Char) : Except ParseError (List (Nat × List Char)) :=
  let cut := Cutting.addLines 1 (lines text) {}
  if cut.buffer.isEmpty then .ok cut.done.reverse else .error ⟨cut.start, 1, .missingPeriod⟩

/-- Read a whole source. -/
def readSource (text : List Char) : Reading Source := do
  match cutStatements text with
  | .error error => throw error
  | .ok parts =>
    let statements ← parts.mapM fun (line, part) ↦ onLine line (readStatement part)
    pure ⟨statements⟩

end Reading
end HornMachine
