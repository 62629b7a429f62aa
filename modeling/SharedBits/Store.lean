import SharedBits.Cell
import SharedBits.Lock

/-!
# What the threads share

The words of a bitset and the locks that guard them. Panics of a thread reach the store only through
the locks that the thread still held.
-/

namespace SharedBits

structure Store (w : Width) where
  cells : Cells w
  locks : Array Lock
  deriving DecidableEq

namespace Store

variable {w : Width}

/-- Words that are all zero, and locks that nobody holds. -/
def fresh (words locks : Nat) : Store w := ⟨Cells.zeros words, Array.replicate locks {}⟩

/-- The store after one of its locks has changed. -/
def changeLock (store : Store w) (i : Nat) (change : Lock → Lock) : Store w :=
  { store with locks := store.locks.modify i change }

/-- The store with the guard taken. -/
def take (store : Store w) (guard : Guard) : Store w :=
  store.changeLock guard.lock fun lock => lock.take guard.mode

/-- The store with the guard given back. -/
def drop (store : Store w) (guard : Guard) : Store w :=
  store.changeLock guard.lock fun lock => lock.drop guard.mode

/-- The store after the death of the holder of these guards. -/
def abandon (store : Store w) (held : List Guard) : Store w :=
  held.foldl (fun s guard => s.changeLock guard.lock fun lock => lock.abandon guard.mode) store

/-- The store after a word is overwritten. -/
def write (store : Store w) (cell : Nat) (value : Word w) : Store w :=
  { store with cells := store.cells.store cell value }

end Store

end SharedBits
