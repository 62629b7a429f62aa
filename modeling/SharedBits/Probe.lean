import SharedBits.BitSet
import SharedBits.Text.Numeral

/-!
# Probes

A probe is one command for a bitset, written `operation:index`. The index is signed, so that a
negative one is refused by the bounds check and not by the reader. `Probe.render` writes the one
canonical text of a probe, and `Probe.parse` reads that text and its looser spellings.
-/

namespace SharedBits

structure Probe where
  operation : Operation
  index : Int64
  deriving DecidableEq, Repr

/-- Why a text is no probe. -/
inductive ProbeError where
  | noColon (text : String)
  /-- No operation has this name, which is given without blanks and in small letters. -/
  | unknownOperation (name : String)
  /-- What follows the colon is no index; it is given as it was written. -/
  | badIndex (text : String) (reason : Text.NumeralError)
  deriving DecidableEq, Repr

/-- The wording of each reason, the context before its cause. -/
def ProbeError.chain : ProbeError → List String
  | noColon text => ["expected `op:index`, got `" ++ text ++ "`"]
  | unknownOperation name => ["unknown operation `" ++ name ++ "`"]
  | badIndex text reason => ["invalid bit index `" ++ text ++ "`", reason.message]

namespace Probe

/-- The canonical text of a probe. -/
def render (p : Probe) : String := p.operation.name ++ ":" ++ toString p.index.toInt

/-- The probe that a text writes: an operation up to blanks and case, the first colon, and an index
up to blanks. -/
def parse (text : String) : Except ProbeError Probe :=
  match text.toList.span (· != ':') with
  | (_, []) => .error (.noColon text)
  | (before, _ :: behind) =>
    let name := String.ofList (Text.lower (Text.trim before))
    match Operation.named? name with
    | none => .error (.unknownOperation name)
    | some operation =>
      match Text.readSigned (Text.trim behind) with
      | .error reason => .error (.badIndex (String.ofList behind) reason)
      | .ok index => .ok ⟨operation, index⟩

/-- What a probe prints: the bit that was read, or that an update was made. -/
def outcome : Answer → String
  | .bit value => if value then "1" else "0"
  | .done => "ok"
  | .count ones => toString ones

def apply {w : Width} (p : Probe) (b : BitSet w) : Ending (Except Error String) × BitSet w :=
  match signedIndex p.index.toInt b.capacity with
  | .error e => (.returned (.error e), b)
  | .ok index =>
    match b.perform (p.operation.on index) with
    | (.returned reply, b) => (.returned (reply.map outcome), b)
    | (.panicked, b) => (.panicked, b)
    | (.blocked, b) => (.blocked, b)

end Probe

end SharedBits
