import SharedBits.Text.Column

/-!
# The cells of a table

A text in a column of some width has as many spaces on one side as it lacks to fill the column, and none if
it is wider (`Text.left`, `Text.right`).
-/

namespace SharedBits.Text

def spaces (n : Nat) : String := String.ofList (List.replicate n ' ')

/-- The text at the left of its column. -/
def left (width : Nat) (text : String) : String := text ++ spaces (width - text.length)

/-- The text at the right of its column. -/
def right (width : Nat) (text : String) : String := spaces (width - text.length) ++ text

theorem pushn_eq (text : String) (n : Nat) : text.pushn ' ' n = text ++ spaces n := by
  rw [← String.toList_inj, String.toList_append, spaces, String.toList_ofList]
  induction n with
  | zero => exact (List.append_nil _).symm
  | succ n ih =>
    rw [List.replicate_succ', ← List.append_assoc, ← ih]
    exact String.toList_push ..

theorem padEnd_eq (width : Nat) (text : String) : padEnd width text = left width text :=
  pushn_eq text _

theorem padStart_eq (width : Nat) (text : String) : padStart width text = right width text := by
  rw [padStart, pushn_eq, String.empty_append]
  rfl

end SharedBits.Text
