import SharedBits.Plain

/-!
# The plain bitset with locks that can be poisoned

What a bitset looks like to one caller whose computations may panic. A step meets computations one
after another: one for a bit that is read or changed, and for a count one for each word, or for each
bit where a strategy counts bit by bit. A fuse says how many of them succeed before one panics. A
panic changes no bit; it poisons the lock under which it happened if that lock was held alone.
-/

namespace SharedBits

namespace Strategy

/-- The lock under which a word is used, if there is one. -/
def lockOfWord (s : Strategy) (word : Nat) : Option Nat :=
  match s.discipline with
  | .locked span _ => some (span.lockOf word)
  | .compareSwap | .loadStore => none

/-- Whether a reader holds its lock alone. -/
def readsAlone (s : Strategy) : Bool :=
  match s.discipline with
  | .locked _ reading => reading == .exclusive
  | .compareSwap | .loadStore => false

/-- The words that a count computes with, one after another. -/
def countedWords (s : Strategy) (w : Width) (capacity : Nat) : List Nat :=
  match s.discipline with
  | .loadStore => (List.range capacity).map fun i => i / w.bits
  | _ => List.range (wordsFor w capacity)

end Strategy

/-- Bits, and the locks that are poisoned. -/
structure Fragile where
  plain : Plain
  poisoned : List Nat := []
  deriving DecidableEq, Repr

namespace Fragile

/-- Whether the lock of a word is poisoned. -/
def isPoisoned (f : Fragile) (s : Strategy) (word : Nat) : Bool :=
  (s.lockOfWord word).any fun lock => f.poisoned.contains lock

/-- The bits after a panic under the lock of a word, held alone or not. -/
def panic (f : Fragile) (s : Strategy) (word : Nat) (isAlone : Bool) : Fragile :=
  match s.lockOfWord word with
  | some lock => if isAlone then { f with poisoned := lock :: f.poisoned } else f
  | none => f

/-- What is left of a fuse after one computation, or nothing when that one panics. -/
def burn : Option Nat → Option (Option Nat)
  | none => some none
  | some 0 => none
  | some (n + 1) => some (some n)

/-- The first word that stops a count, by a poisoned lock or by a panic, and whether it was a
panic. -/
def stopsCount (f : Fragile) (s : Strategy) : Option Nat → List Nat → Option (Nat × Bool)
  | _, [] => none
  | fuse, word :: words =>
    if f.isPoisoned s word then some (word, false)
    else match burn fuse with
      | none => some (word, true)
      | some fuse => stopsCount f s fuse words

/-- Counts the set bits under a fuse. -/
def count (f : Fragile) (s : Strategy) (w : Width) (fuse : Option Nat) : Ending Reply × Fragile :=
  match f.stopsCount s fuse (s.countedWords w f.plain.capacity) with
  | none => (.returned (.ok (.count f.plain.ones)), f)
  | some (_, false) => (.returned (.error .lockPoisoned), f)
  | some (word, true) => (.panicked, f.panic s word s.readsAlone)

/-- Reads a bit under a fuse. -/
def get (f : Fragile) (s : Strategy) (w : Width) (fuse : Option Nat) (index : Nat) :
    Ending Reply × Fragile :=
  if f.plain.capacity ≤ index then (.returned (.error (f.plain.refusal index)), f)
  else if f.isPoisoned s (index / w.bits) then (.returned (.error .lockPoisoned), f)
  else match burn fuse with
    | none => (.panicked, f.panic s (index / w.bits) s.readsAlone)
    | some _ => (.returned (f.plain.perform (.get index)).1, f)

/-- Changes a bit under a fuse. Gives what is left of the fuse. -/
def update (f : Fragile) (s : Strategy) (w : Width) (fuse : Option Nat) (op : BitOp)
    (index : Nat) : Ending Reply × Option Nat × Fragile :=
  if f.plain.capacity ≤ index then (.returned (.error (f.plain.refusal index)), fuse, f)
  else if f.isPoisoned s (index / w.bits) then (.returned (.error .lockPoisoned), fuse, f)
  else match burn fuse with
    | none => (.panicked, none, f.panic s (index / w.bits) true)
    | some fuse => (.returned (.ok .done), fuse, { f with plain := f.plain.update op index })

/-- Makes updates under one fuse, up to the first that is refused or panics. -/
def sweep (f : Fragile) (s : Strategy) (w : Width) (fuse : Option Nat) (op : BitOp)
    (stride index : Nat) : Nat → Ending Reply × Fragile
  | 0 => (.returned (.ok .done), f)
  | n + 1 =>
    match f.update s w fuse op index with
    | (.returned (.ok _), fuse, f) => f.sweep s w fuse op stride (index + stride) n
    | (stopped, _, f) => (stopped, f)

def performStep (f : Fragile) (s : Strategy) (w : Width) (fuse : Option Nat) :
    Step → Ending Reply × Fragile
  | .call (.get index) => f.get s w fuse index
  | .call (.update op index) =>
    let (ending, _, f) := f.update s w fuse op index
    (ending, f)
  | .call .count => f.count s w fuse
  | .sweep op start stop stride =>
    f.sweep s w fuse op stride start ((stop - start + stride - 1) / stride)

end Fragile

end SharedBits
