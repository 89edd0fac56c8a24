/-!
# Whole numbers in decimal

A number is an optional sign and one or more of the digits `0` to `9`; leading zeros are allowed.
-/

namespace HornMachine.Text

/-- The value of a text made of one or more decimal digits. -/
def readDigits? (text : List Char) : Option Nat :=
  if text.isEmpty || !text.all Char.isDigit then none
  else some (text.foldl (fun value c ↦ 10 * value + (c.toNat - '0'.toNat)) 0)

/-- The value of an optional plus sign and digits, at most `limit`. -/
def readNat? (limit : Nat) (text : List Char) : Option Nat :=
  let digits := match text with
    | '+' :: rest => rest
    | _ => text
  (readDigits? digits).filter (· ≤ limit)

/-- Whether a number fits a signed word of 64 bits. -/
def fitsWord (n : Int) : Bool := -0x8000000000000000 ≤ n && n < 0x8000000000000000

/-- The value of an optional sign and digits that fits a signed word of 64 bits. -/
def readInt? (text : List Char) : Option Int :=
  let value := match text with
    | '-' :: rest => (readDigits? rest).map fun n ↦ -(n : Int)
    | '+' :: rest => (readDigits? rest).map Int.ofNat
    | _ => (readDigits? text).map Int.ofNat
  value.filter fitsWord

end HornMachine.Text
