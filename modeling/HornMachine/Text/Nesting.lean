import HornMachine.Text.Blank

/-!
# Cutting text outside parentheses

Source text is cut at commas, at the arrow of a rule and at closing parentheses, always counting
how many parentheses are open. A closing parenthesis without an opening one makes the count
negative, and then nothing is outside any more until it is opened again.
-/

namespace HornMachine.Text

/-- The number of open parentheses after a character. -/
def depthAfter (depth : Int) (c : Char) : Int :=
  if c = '(' then depth + 1 else if c = ')' then depth - 1 else depth

/-- The pieces between the commas at depth zero, blanks kept. `piece` is the beginning of the first
one, its latest character first. -/
def piecesFrom (piece : List Char) (depth : Int) : List Char → List (List Char)
  | [] => [piece.reverse]
  | c :: rest =>
    if c = ',' ∧ depth = 0 then piece.reverse :: piecesFrom [] 0 rest
    else piecesFrom (c :: piece) (depthAfter depth c) rest

/-- The trimmed pieces between the commas that stand outside parentheses. Text of nothing but
blanks and commas has no pieces. -/
def pieces (text : List Char) : List (List Char) :=
  let parts := (piecesFrom [] 0 text).map trim
  if parts.all List.isEmpty then [] else parts

/-- The text before and after the first arrow `:-` at depth zero. -/
def splitArrowFrom? (depth : Int) : List Char → Option (List Char × List Char)
  | [] => none
  | c :: rest =>
    if c = ':' ∧ depth = 0 ∧ rest.head? = some '-' then some ([], rest.tail)
    else (splitArrowFrom? (depthAfter depth c) rest).map fun (before, after) ↦ (c :: before, after)

/-- The text before and after the first arrow outside parentheses. -/
def splitArrow? (text : List Char) : Option (List Char × List Char) := splitArrowFrom? 0 text

/-- The text up to the parenthesis that closes one already open, and the text after it. `depth`
counts the parentheses opened since, and `inside` is the text passed, its latest character first. -/
def splitClosingFrom? (inside : List Char) (depth : Nat) :
    List Char → Option (List Char × List Char)
  | [] => none
  | c :: rest =>
    if c = ')' ∧ depth = 0 then some (inside.reverse, rest)
    else
      let inner := if c = '(' then depth + 1 else if c = ')' then depth - 1 else depth
      splitClosingFrom? (c :: inside) inner rest

/-- The text up to the parenthesis that closes one already open, and the text after it. -/
def splitClosing? (text : List Char) : Option (List Char × List Char) :=
  splitClosingFrom? [] 0 text

/-- Cutting at commas gives pieces no longer than the text. -/
theorem length_le_of_mem_piecesFrom {begun : List Char} {depth : Int} {text piece : List Char}
    (member : piece ∈ piecesFrom begun depth text) :
    piece.length ≤ begun.length + text.length := by
  induction text generalizing begun depth with
  | nil => simp_all [piecesFrom]
  | cons c rest ih =>
    unfold piecesFrom at member
    split at member
    · rcases List.mem_cons.1 member with rfl | later
      · simp
      · have short := ih later
        simp only [List.length_nil, List.length_cons] at short ⊢
        omega
    · have short := ih member
      simp only [List.length_cons] at short ⊢
      omega

/-- Trimmed pieces are no longer than the text. -/
theorem length_le_of_mem_pieces {text piece : List Char} (member : piece ∈ pieces text) :
    piece.length ≤ text.length := by
  simp only [pieces] at member
  split at member
  · simp at member
  · obtain ⟨part, inside, rfl⟩ := List.mem_map.1 member
    exact Nat.le_trans (length_trim_le _) (by simpa using length_le_of_mem_piecesFrom inside)

/-- What is passed before the closing parenthesis, it and what follows are the text. -/
theorem eq_of_splitClosingFrom? {begun : List Char} {depth : Nat} {text inside after : List Char}
    (split : splitClosingFrom? begun depth text = some (inside, after)) :
    begun.reverse ++ text = inside ++ ')' :: after := by
  induction text generalizing begun depth with
  | nil => simp [splitClosingFrom?] at split
  | cons c rest ih =>
    unfold splitClosingFrom? at split
    split at split
    · simp_all
    · simpa using ih split

/-- What stands inside a pair of parentheses, with what follows, is the text less the closing
parenthesis. -/
theorem eq_of_splitClosing? {text inside after : List Char}
    (split : splitClosing? text = some (inside, after)) : text = inside ++ ')' :: after := by
  simpa using eq_of_splitClosingFrom? split

end HornMachine.Text
