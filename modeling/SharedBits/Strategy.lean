import SharedBits.Word
import SharedBits.Error
import SharedBits.Text.Blank

/-!
# Strategies

A strategy fixes how the threads that share a bitset get at its words: through which locks, or by
compare-and-swap, or with nothing that keeps them apart. A strategy is data; what its operations do
follows from its discipline.
-/

namespace SharedBits

/-- How much of a lock its holder takes. -/
inductive Mode where
  /-- Together with other shared holders. -/
  | shared
  /-- Alone. -/
  | exclusive
  deriving DecidableEq, Repr

/-- How much of the storage one lock guards. -/
inductive Span where
  /-- One lock guards all words. -/
  | whole
  /-- Each word has a lock of its own. -/
  | perWord
  deriving DecidableEq, Repr

/-- How a strategy gets at its words. -/
inductive Discipline where
  /-- Under a lock, which an update takes alone and a reader takes in the mode `reading`. -/
  | locked (span : Span) (reading : Mode)
  /-- Updates are retried until a compare-and-swap commits them. -/
  | compareSwap
  /-- An update is a load and a later store, and nothing guards what happens in between. -/
  | loadStore
  deriving DecidableEq, Repr

inductive Strategy where
  | fullMutex
  | globalRwLock
  | stripedRwLock
  | stripedMutex
  | lockFree
  /-- Loses concurrent updates; there to show what the others prevent. -/
  | unsynchronized
  deriving DecidableEq, Repr

namespace Strategy

def all : List Strategy :=
  [fullMutex, globalRwLock, stripedRwLock, stripedMutex, lockFree, unsynchronized]

/-- The strategies that lose no update. -/
def synchronized : List Strategy :=
  [fullMutex, globalRwLock, stripedRwLock, stripedMutex, lockFree]

/-- Whether a strategy loses no update. -/
def isSynchronized : Strategy → Bool
  | unsynchronized => false
  | _ => true

/-- The name under which a strategy is chosen and reported. -/
def name : Strategy → String
  | fullMutex => "full-mutex"
  | globalRwLock => "global-rw-lock"
  | stripedRwLock => "striped-rw-lock"
  | stripedMutex => "striped-mutex"
  | lockFree => "lock-free"
  | unsynchronized => "unsynchronized"

/-- The identifier of a strategy in structured output. -/
def label : Strategy → String
  | fullMutex => "FullMutex"
  | globalRwLock => "GlobalRwLock"
  | stripedRwLock => "StripedRwLock"
  | stripedMutex => "StripedMutex"
  | lockFree => "LockFree"
  | unsynchronized => "Unsynchronized"

/-- The name in the log entry that a new bitset makes. -/
def title : Strategy → String
  | fullMutex => "full-mutex"
  | globalRwLock => "global rw-lock"
  | stripedRwLock => "striped rw-lock"
  | stripedMutex => "striped mutex"
  | lockFree => "lock-free"
  | unsynchronized => "unsynchronized"

def discipline : Strategy → Discipline
  | fullMutex => .locked .whole .exclusive
  | globalRwLock => .locked .whole .shared
  | stripedRwLock => .locked .perWord .shared
  | stripedMutex => .locked .perWord .exclusive
  | lockFree => .compareSwap
  | unsynchronized => .loadStore

/-- The word width when none is asked for: a byte where words are reached without a lock. -/
def defaultWidth : Strategy → Width
  | lockFree => .w8
  | unsynchronized => .w8
  | _ => .w64

/-- Number of locks of a bitset of `words` words. -/
def locksFor (s : Strategy) (words : Nat) : Nat :=
  match s.discipline with
  | .locked .whole _ => 1
  | .locked .perWord _ => words
  | .compareSwap | .loadStore => 0

/-- Whether `text` names the strategy, up to blanks around it and the case of its letters. -/
def isNamed (s : Strategy) (text : String) : Bool :=
  Text.lower s.name.toList == Text.lower (Text.trim text.toList)

/-- The strategy that a text names. -/
def parse (text : String) : Except Error Strategy :=
  match all.find? fun s => s.isNamed text with
  | some s => .ok s
  | none => .error (.unknownStrategy text)

theorem mem_all : ∀ s : Strategy, s ∈ all := by
  intro s
  cases s <;> decide

end Strategy

end SharedBits
