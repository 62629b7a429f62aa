import SharedBits.Address
import SharedBits.Prog

/-!
# The calls of a bitset, as programs

Each call first checks its index, so a call that is out of range touches no cell and no lock. What
it does then follows from the discipline of the strategy: under a lock it takes the lock of its
word, reads, computes, writes back and lets go.
-/

namespace SharedBits

inductive Call where
  | get (index : Nat)
  | update (op : BitOp) (index : Nat)
  | count
  deriving DecidableEq, Repr

/-- What can be asked of one bit. -/
inductive Operation where
  | get
  | update (op : BitOp)
  deriving DecidableEq, Hashable, Repr

namespace Operation

def name : Operation → String
  | get => "get"
  | update op => op.name

/-- The operation that a small-letter text asks for. -/
def named? : String → Option Operation
  | "get" => some get
  | "set" => some (update .set)
  | "clear" => some (update .clear)
  | "flip" => some (update .flip)
  | _ => none

/-- The call that asks it of a bit. -/
def on (index : Nat) : Operation → Call
  | get => .get index
  | update op => .update op index

end Operation

/-- A call, or a series of updates that is made as one step. -/
inductive Step where
  | call (call : Call)
  /-- Updates of the bits `start`, `start + stride`, … below `stop`, up to the first refusal. -/
  | sweep (op : BitOp) (start stop stride : Nat)
  deriving DecidableEq, Repr

/-- What a call gives back when it is not refused. -/
inductive Answer where
  | bit (value : Bool)
  | done
  | count (ones : Nat)
  deriving DecidableEq, Repr

/-- What a call gives back. -/
abbrev Reply := Except Error Answer

namespace Prog

variable {w : Width}

/-- Runs `body` under a lock. A poisoned lock is let go at once, and the call is refused. -/
def guarded {α : Type} (guard : Guard) (body : Prog w α) : Prog w (Except Error α) :=
  acquire guard fun poisoned =>
    if poisoned then release guard (ret (.error .lockPoisoned))
    else body.bind fun a => release guard (ret (.ok a))

/-- Whether the bit at an address is set. -/
def readBit (a : Address) : Prog w Bool :=
  read a.word fun v => compute (ret (a.bitIn v))

/-- Changes the bit at an address: reads its word and writes it back changed. -/
def changeBit (a : Address) (op : BitOp) : Prog w Unit :=
  read a.word fun v => compute (write a.word (op.apply v (a.mask w)) (ret ()))

/-- Changes the bit at an address by an optimistic update of its word. -/
def modifyBit (a : Address) (op : BitOp) : Prog w Unit :=
  modify a.word (fun v => op.apply v (a.mask w)) fun _ => ret ()

/-- Number of set bits in one word. -/
def readOnes (cell : Nat) : Prog w Nat :=
  read cell fun v => compute (ret (Word.ones v))

/-- Adds up `each first`, `each (first + 1)`, …, `n` of them, onto `total`. -/
def sum (each : Nat → Prog w Nat) (first : Nat) : Nat → Nat → Prog w Nat
  | 0, total => ret total
  | n + 1, total => (each first).bind fun k => sum each (first + 1) n (total + k)

/-- Adds up like `sum`, and stops at the first refusal. -/
def sumUntilRefused (each : Nat → Prog w (Except Error Nat)) (first : Nat) :
    Nat → Nat → Prog w (Except Error Nat)
  | 0, total => ret (.ok total)
  | n + 1, total => (each first).bind fun
    | .error e => ret (.error e)
    | .ok k => sumUntilRefused each (first + 1) n (total + k)

end Prog

namespace Strategy

open Prog

variable (s : Strategy) (w : Width) (capacity : Nat)

/-- Reads one bit that is in range. -/
def getAt (a : Address) : Prog w (Except Error Bool) :=
  match s.discipline with
  | .locked span reading => guarded ⟨span.lockOf a.word, reading⟩ (readBit a)
  | .compareSwap | .loadStore => (readBit a).bind fun b => ret (.ok b)

/-- Changes one bit that is in range. -/
def updateAt (a : Address) (op : BitOp) : Prog w (Except Error Unit) :=
  match s.discipline with
  | .locked span _ => guarded ⟨span.lockOf a.word, .exclusive⟩ (changeBit a op)
  | .compareSwap => (modifyBit a op).bind fun _ => ret (.ok ())
  | .loadStore => (changeBit a op).bind fun _ => ret (.ok ())

def get (index : Nat) : Prog w (Except Error Bool) :=
  match requireIndex index capacity with
  | .error e => ret (.error e)
  | .ok () => s.getAt w (Address.locate w index)

def update (op : BitOp) (index : Nat) : Prog w (Except Error Unit) :=
  match requireIndex index capacity with
  | .error e => ret (.error e)
  | .ok () => s.updateAt w (Address.locate w index) op

/-- Counts the set bits by reading every bit on its own. -/
def countBits : Prog w (Except Error Nat) :=
  sumUntilRefused
    (fun i => (s.get w capacity i).bind fun
      | .error e => ret (.error e)
      | .ok b => ret (.ok b.toNat))
    0 capacity 0

/-- Counts the set bits word by word, where a strategy can. One lock over all words is kept for the
whole count; a lock per word is held for its word only. -/
def count : Prog w (Except Error Nat) :=
  match s.discipline with
  | .locked .whole reading => guarded ⟨0, reading⟩ (sum readOnes 0 (wordsFor w capacity) 0)
  | .locked .perWord reading =>
    sumUntilRefused (fun i => guarded ⟨i, reading⟩ (readOnes i)) 0 (wordsFor w capacity) 0
  | .compareSwap => (sum readOnes 0 (wordsFor w capacity) 0).bind fun n => ret (.ok n)
  | .loadStore => s.countBits w capacity

def code : Call → Prog w Reply
  | .get index => (s.get w capacity index).bind fun r => ret (r.map .bit)
  | .update op index => (s.update w capacity op index).bind fun r => ret (r.map fun _ => .done)
  | .count => (s.count w capacity).bind fun r => ret (r.map .count)

/-- Changes the bits `index`, `index + stride`, …, so many of them, up to the first refusal. -/
def sweep (op : BitOp) (stride index : Nat) : Nat → Prog w (Except Error Unit)
  | 0 => ret (.ok ())
  | n + 1 => (s.update w capacity op index).bind fun
    | .error e => ret (.error e)
    | .ok () => sweep op stride (index + stride) n

/-- Reads the bits `index`, `index + 1`, …, so many of them. `seen` holds those before, the latest
first. A bit whose reading is refused has no value. -/
def scan (index : Nat) : Nat → List (Option Bool) → Prog w (List (Option Bool))
  | 0, seen => ret seen.reverse
  | n + 1, seen => (s.get w capacity index).bind fun r => scan (index + 1) n (r.toOption :: seen)

def stepCode : Step → Prog w Reply
  | .call call => s.code w capacity call
  | .sweep op start stop stride =>
    (s.sweep w capacity op stride start ((stop - start + stride - 1) / stride)).bind fun r =>
      ret (r.map fun _ => .done)

end Strategy

end SharedBits
