/-!
# Blank characters

Source text may have blanks around every part. A character is blank when Unicode gives it the
property `White_Space`.
-/

namespace HornMachine.Text

/-- The code points with the property `White_Space`, as ranges with both ends included. -/
def blankRanges : List (Nat × Nat) :=
  [(0x09, 0x0D), (0x20, 0x20), (0x85, 0x85), (0xA0, 0xA0), (0x1680, 0x1680), (0x2000, 0x200A),
    (0x2028, 0x2029), (0x202F, 0x202F), (0x205F, 0x205F), (0x3000, 0x3000)]

/-- Whether a character is blank. -/
def isBlank (c : Char) : Bool :=
  blankRanges.any fun (low, high) ↦ low ≤ c.toNat && c.toNat ≤ high

/-- Text without the blanks at its end. -/
def trimEnd (text : List Char) : List Char :=
  if text.getLast?.any isBlank then (text.reverse.dropWhile isBlank).reverse else text

/-- Text without the blanks at its two ends. -/
def trim (text : List Char) : List Char := (trimEnd text).dropWhile isBlank

/-- Number of bytes of a text in UTF-8, the unit in which columns are counted. -/
def byteLength (text : List Char) : Nat := text.foldl (fun length c ↦ length + c.utf8Size) 0

/-- The last character kept is the last one that is not blank. -/
theorem trimEnd_eq (text : List Char) :
    trimEnd text = (text.reverse.dropWhile isBlank).reverse := by
  unfold trimEnd
  split
  · rfl
  · next kept =>
    rw [List.getLast?_eq_head?_reverse] at kept
    cases reversed : text.reverse with
    | nil => simpa using reversed
    | cons c rest =>
      have dark : isBlank c = false := by simpa [reversed] using kept
      rw [List.dropWhile_cons, dark]
      simp [← reversed]

/-- Cutting blanks at the end never lengthens a text. -/
theorem length_trimEnd_le (text : List Char) : (trimEnd text).length ≤ text.length := by
  rw [trimEnd_eq, List.length_reverse]
  exact Nat.le_trans (List.dropWhile_sublist _).length_le (Nat.le_of_eq List.length_reverse)

/-- Cutting blanks never lengthens a text. -/
theorem length_trim_le (text : List Char) : (trim text).length ≤ text.length :=
  Nat.le_trans (List.dropWhile_sublist _).length_le (length_trimEnd_le _)

end HornMachine.Text
