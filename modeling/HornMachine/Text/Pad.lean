/-!
# Padding

Numbers in listings are set flush right.
-/

namespace HornMachine.Text

/-- Text with blanks in front so that it has at least `width` characters. -/
def padStart (width : Nat) (text : String) : String :=
  String.ofList (List.replicate (width - text.length) ' ') ++ text

end HornMachine.Text
