/-!
# Blank text

Runs of blanks, for indentation and for columns.
-/
namespace Disasm6502

def blanks (count : Nat) : String :=
  String.ofList (List.replicate count ' ')

/-- Fills `text` up with blanks on its right side; text that is wide enough stays as it is. -/
def padRight (width : Nat) (text : String) : String :=
  text ++ blanks (width - text.length)

end Disasm6502
