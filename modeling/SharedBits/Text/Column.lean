/-!
# Table columns

A cell is filled up with spaces to the width of its column; a cell that is wider stays whole.
-/

namespace SharedBits.Text

/-- The text at the left of a column of `width` characters. -/
def padEnd (width : Nat) (text : String) : String :=
  text.pushn ' ' (width - text.length)

/-- The text at the right of a column of `width` characters. -/
def padStart (width : Nat) (text : String) : String :=
  "".pushn ' ' (width - text.length) ++ text

end SharedBits.Text
