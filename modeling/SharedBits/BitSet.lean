import SharedBits.Call

/-!
# Bitsets

A bitset has a fixed capacity and a strategy, and starts with all bits clear. Here one thread uses
it alone: `perform` runs one call to its end. A machine runs the same programs interleaved.
-/

namespace SharedBits

/-- A bitset of `capacity` bits in words of width `w`. -/
structure BitSet (w : Width) where
  strategy : Strategy
  capacity : Nat
  store : Store w
  deriving DecidableEq

namespace BitSet

variable {w : Width}

/-- A bitset with all bits clear. -/
def create (strategy : Strategy) (w : Width) (capacity : Nat) : Except Error (BitSet w) :=
  match requireCapacity capacity with
  | .error e => .error e
  | .ok () =>
    let words := wordsFor w capacity
    .ok ⟨strategy, capacity, Store.fresh words (strategy.locksFor words)⟩

def words (b : BitSet w) : Nat := b.store.cells.size

/-- Number of cells that threads contend for, where the strategy has one for each word. -/
def cellCount? (b : BitSet w) : Option Nat :=
  match b.strategy.discipline with
  | .locked .whole _ => none
  | .locked .perWord _ => some b.store.locks.size
  | .compareSwap => some b.words
  | .loadStore => none

/-- Runs a program of this bitset alone. With a fuse `some k`, its computation number `k` panics,
counted from 0. -/
def run {ρ : Type} (b : BitSet w) (fuse : Option Nat) (program : Prog w ρ) : Ending ρ × BitSet w :=
  let ⟨strategy, capacity, store⟩ := b
  let (ending, after) := program.run { store := store, fuse := fuse }
  (ending, ⟨strategy, capacity, after.store⟩)

def perform (b : BitSet w) (call : Call) : Ending Reply × BitSet w :=
  b.run none (b.strategy.code w b.capacity call)

/-- Makes one step, which panics as the fuse says. -/
def performStep (b : BitSet w) (fuse : Option Nat) (step : Step) : Ending Reply × BitSet w :=
  b.run fuse (b.strategy.stepCode w b.capacity step)

/-- Reads all bits in one step, which panics as the fuse says. -/
def scan (b : BitSet w) (fuse : Option Nat) : Ending (List (Option Bool)) × BitSet w :=
  b.run fuse (b.strategy.scan w b.capacity 0 b.capacity [])

/-- The bits from the first, each read by a call of its own, as far as `get` gives them. -/
def contents (b : BitSet w) : List (Option Bool) :=
  (List.range b.capacity).map fun i =>
    match (b.perform (.get i)).1 with
    | .returned (.ok (.bit value)) => some value
    | _ => none

/-- The text of a bitset in structured output, on one line. -/
def debug (b : BitSet w) : String :=
  "AnyBitSet \x7b strategy: " ++ b.strategy.label ++ ", capacity: " ++ toString b.capacity
    ++ " \x7d"

/-- The text of a bitset in structured output, a field on each line. -/
def debugLines (b : BitSet w) : String :=
  "AnyBitSet \x7b\n    strategy: " ++ b.strategy.label ++ ",\n    capacity: " ++ toString b.capacity
    ++ ",\n\x7d"

end BitSet

/-- A bitset of the width that its strategy prefers. -/
def Strategy.bitSet (s : Strategy) (capacity : Nat) : Except Error (BitSet s.defaultWidth) :=
  BitSet.create s s.defaultWidth capacity

end SharedBits
