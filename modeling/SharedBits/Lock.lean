import SharedBits.Strategy

/-!
# Locks

A lock has any number of shared holders or one exclusive holder. A holder that dies lets go of its
lock; if it held the lock alone, it may have left the guarded words half changed, and the lock stays
poisoned.
-/

namespace SharedBits

structure Lock where
  readers : Nat := 0
  writer : Bool := false
  /-- Whether an exclusive holder died. -/
  poisoned : Bool := false
  deriving DecidableEq, Repr

namespace Lock

/-- Whether the lock can be taken in this mode now. -/
def isFree (lock : Lock) : Mode → Bool
  | .shared => !lock.writer
  | .exclusive => !lock.writer && lock.readers == 0

/-- The lock with one more holder. -/
def take (lock : Lock) : Mode → Lock
  | .shared => { lock with readers := lock.readers + 1 }
  | .exclusive => { lock with writer := true }

/-- The lock with one holder less. -/
def drop (lock : Lock) : Mode → Lock
  | .shared => { lock with readers := lock.readers - 1 }
  | .exclusive => { lock with writer := false }

/-- The lock after the death of a holder. -/
def abandon (lock : Lock) (mode : Mode) : Lock :=
  { lock.drop mode with poisoned := lock.poisoned || mode == .exclusive }

def isIdle (lock : Lock) : Bool := !lock.writer && lock.readers == 0

theorem isFree_of_isIdle {lock : Lock} (h : lock.isIdle = true) : ∀ mode, lock.isFree mode = true
  | .shared => by simp_all [isIdle, isFree]
  | .exclusive => h

theorem drop_take (lock : Lock) (mode : Mode) (h : lock.isFree mode = true) :
    (lock.take mode).drop mode = lock := by
  cases lock
  cases mode <;> simp_all [isFree, take, drop]

end Lock

/-- A hold on one of the locks. -/
structure Guard where
  lock : Nat
  mode : Mode
  deriving DecidableEq, Repr

/-- The lock that guards a word. -/
def Span.lockOf : Span → Nat → Nat
  | whole, _ => 0
  | perWord, word => word

end SharedBits
