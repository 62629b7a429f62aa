import SharedBits.Call

/-!
# The plain bitset

A list of bits with one caller: what a bitset must look like from outside, whatever its strategy and
the width of its words.
-/

namespace SharedBits

structure Plain where
  bits : List Bool
  deriving DecidableEq, Repr

namespace Plain

def clear (capacity : Nat) : Plain := ⟨List.replicate capacity false⟩

def capacity (p : Plain) : Nat := p.bits.length

/-- The refusal of an index that addresses no bit. -/
def refusal (p : Plain) (index : Nat) : Error := .indexOutOfRange (min index maxIndex) p.capacity

/-- The bits after one of them has changed. -/
def update (p : Plain) (op : BitOp) (index : Nat) : Plain := ⟨p.bits.modify index op.onBit⟩

/-- The bits after a series of changes. -/
def updateAll (p : Plain) (updates : List (BitOp × Nat)) : Plain :=
  updates.foldl (fun p (op, index) => p.update op index) p

def ones (p : Plain) : Nat := p.bits.count true

/-- Answers a call. -/
def perform (p : Plain) : Call → Reply × Plain
  | .get index =>
    match p.bits[index]? with
    | some bit => (.ok (.bit bit), p)
    | none => (.error (p.refusal index), p)
  | .update op index =>
    if index < p.capacity then (.ok .done, p.update op index)
    else (.error (p.refusal index), p)
  | .count => (.ok (.count p.ones), p)

/-- Answers calls in order. -/
def performAll (p : Plain) : List Call → List Reply × Plain
  | [] => ([], p)
  | call :: calls =>
    let (reply, p) := p.perform call
    let (replies, p) := p.performAll calls
    (reply :: replies, p)

end Plain

end SharedBits
