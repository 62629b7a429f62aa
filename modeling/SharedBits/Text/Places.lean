/-!
# Numbers with a fixed count of decimal places

A float is an exact binary fraction. It is written with a fixed count of places by rounding that
fraction, and an exact half goes to the even neighbour.
-/

namespace SharedBits.Text

/-- The integer nearest to `num / den`; a half goes to the even neighbour. -/
def roundHalfEven (num den : Nat) : Nat :=
  let low := num / den
  let twice := 2 * (num % den)
  if twice < den ∨ twice = den ∧ low % 2 = 0 then low else low + 1

/-- The text of `n / 10 ^ places`, with all its places. -/
def placed (places n : Nat) : String :=
  let whole := toString (n / Nat.pow 10 places)
  let digits := toString (n % Nat.pow 10 places)
  if places = 0 then whole
  else whole ++ "." ++ "".pushn '0' (places - digits.length) ++ digits

/-- What the bits of a float stand for. -/
inductive Decoded where
  | notANumber
  | infinite (negative : Bool)
  /-- The number `± num / den`. -/
  | finite (negative : Bool) (num den : Nat)

/-- Reads the sign, the exponent and the significand. -/
def decode (bits : UInt64) : Decoded :=
  let negative := bits >>> 63 == 1
  let exponent := (bits >>> 52 &&& 0x7FF).toNat
  let fraction := (bits &&& 0xFFFFFFFFFFFFF).toNat
  if exponent = 0x7FF then if fraction = 0 then .infinite negative else .notANumber
  else
    let significand := if exponent = 0 then fraction else fraction + Nat.pow 2 52
    let scale := max exponent 1
    .finite negative (significand * Nat.pow 2 (scale - 1075)) (Nat.pow 2 (1075 - scale))

/-- The text of a float with `places` decimal places. -/
def fixedPlaces (places : Nat) (x : Float) : String :=
  match decode x.toBits with
  | .notANumber => "NaN"
  | .infinite negative => if negative then "-inf" else "inf"
  | .finite negative num den =>
    let text := placed places (roundHalfEven (num * Nat.pow 10 places) den)
    if negative then "-" ++ text else text

end SharedBits.Text
