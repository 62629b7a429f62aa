/-!
# What an operation on a bitset can refuse
-/

namespace SharedBits

/-- The reasons for which a bitset, or the choice of one, is refused. -/
inductive Error where
  /-- A bitset needs at least one bit. -/
  | invalidCapacity
  /-- The index addresses no bit. It is signed because callers may hand in negative numbers. -/
  | indexOutOfRange (index : Int) (capacity : Nat)
  /-- A thread died while it could have left the guarded words half changed. -/
  | lockPoisoned
  /-- No strategy has this name; the text is kept as it was given. -/
  | unknownStrategy (text : String)
  deriving DecidableEq, Repr

/-- The wording of each refusal. -/
def Error.message : Error → String
  | invalidCapacity => "bitset capacity must be positive"
  | indexOutOfRange index capacity =>
    "bit index " ++ toString index ++ " out of range for capacity " ++ toString capacity
  | lockPoisoned => "lock poisoned"
  | unknownStrategy text => "unknown strategy `" ++ text ++ "`"

end SharedBits
