/-!
# Reading decimal integers of bounded size

Digits are read from the left and added up. The reading ends at the first character that is no
digit, or at the first digit with which the number leaves its range, whichever comes first.
-/

namespace SharedBits.Text

/-- Why a text is no integer of the wanted range. -/
inductive NumeralError where
  | empty
  | invalidDigit
  | tooLarge
  | tooSmall
  deriving DecidableEq, Repr

/-- The wording of each reason. -/
def NumeralError.message : NumeralError → String
  | empty => "cannot parse integer from empty string"
  | invalidDigit => "invalid digit found in string"
  | tooLarge => "number too large to fit in target type"
  | tooSmall => "number too small to fit in target type"

/-- The value of a decimal digit. -/
def digit? (c : Char) : Option Nat := if c.isDigit then some (c.toNat - '0'.toNat) else none

/-- Adds the digits `cs` to the number `n` read so far; `excess` is the reason when it passes
`limit`. -/
def addDigits (limit : Nat) (excess : NumeralError) : Nat → List Char → Except NumeralError Nat
  | n, [] => .ok n
  | n, c :: cs =>
    match digit? c with
    | none => .error .invalidDigit
    | some d =>
      if n * 10 + d ≤ limit then addDigits limit excess (n * 10 + d) cs else .error excess

/-- The number that `cs` writes, at least one digit and at most `limit`. -/
def readDigits (limit : Nat) (excess : NumeralError) (cs : List Char) : Except NumeralError Nat :=
  if cs.isEmpty then .error .invalidDigit else addDigits limit excess 0 cs

/-- A signed integer of 64 bits: one optional sign, then digits. -/
def readSigned : List Char → Except NumeralError Int64
  | [] => .error .empty
  | '-' :: cs => (readDigits (Nat.pow 2 63) .tooSmall cs).map fun n => Int64.ofInt (-(n : Int))
  | '+' :: cs => (readDigits (Nat.pow 2 63 - 1) .tooLarge cs).map fun n => Int64.ofInt n
  | cs => (readDigits (Nat.pow 2 63 - 1) .tooLarge cs).map fun n => Int64.ofInt n

/-- A natural number below `2 ^ 64`: an optional `+`, then digits. -/
def readUnsigned : List Char → Except NumeralError Nat
  | [] => .error .empty
  | '+' :: cs => readDigits (Nat.pow 2 64 - 1) .tooLarge cs
  | cs => readDigits (Nat.pow 2 64 - 1) .tooLarge cs

end SharedBits.Text
