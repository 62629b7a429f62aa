import SharedBits.Failure
import SharedBits.Notice
import SharedBits.Workload
import SharedBits.BitSet.Threads

/-!
# Sessions

A command runs in a session: it prints lines, leaves notices, and may fail, which keeps what it has
printed so far. What a session cannot decide by itself comes from its environment: in which order
the steps of threads fall, what the clock shows, and which order of tasks a seed stands for. A statement
for every environment is one for every interleaving.
-/

namespace SharedBits

/-- What a session has printed and reported. -/
structure Transcript where
  lines : Array String := #[]
  notices : Array Notice := #[]
  deriving DecidableEq

/-- A computation that prints, reports and may fail. -/
abbrev Session (m : Type → Type) : Type → Type := ExceptT Failure (StateT Transcript m)

/-- What decides where a command does not. -/
structure Environment (m : Type → Type) where
  /-- Lets threads make their calls, and gives the machine in which all are done. -/
  finish : {w : Width} → System w Call Reply → Store w → List (List Call) →
    m (Machine w Call Reply)
  /-- The clock, in nanoseconds. -/
  now : m Nat
  cores : m Nat
  /-- The tasks in the order that a seed fixes. -/
  shuffle : Nat → List Task → List Task

/-- The environment that runs threads one after another, whose clock stands still and whose seeds all
stand for the order there is. -/
def Environment.still : Environment Id where
  finish sys store calls := sys.inTurn store calls
  now := 0
  cores := 1
  shuffle _ tasks := tasks

namespace Session

variable {m : Type → Type} [Monad m]

def say (line : String) : Session m Unit :=
  modify fun t => { t with lines := t.lines.push line }

def sayAll (lines : List String) : Session m Unit :=
  modify fun t => { t with lines := t.lines ++ lines }

def report (notice : Notice) : Session m Unit :=
  modify fun t => { t with notices := t.notices.push notice }

def ask {α : Type} (x : m α) : Session m α := liftM x

def fail {α : Type} (failure : Failure) : Session m α := throw failure

/-- A new bitset of the width that its strategy prefers, with its notice. -/
def build (strategy : Strategy) (capacity : Nat) (refusal : Error → Failure) :
    Session m (BitSet strategy.defaultWidth) :=
  match strategy.bitSet capacity with
  | .error e => fail (refusal e)
  | .ok b => do
    report b.notice
    return b

def count {w : Width} (b : BitSet w) : Session m Nat :=
  match (b.perform .count).1 with
  | .returned (.ok (.count ones)) => return ones
  | .returned (.error e) => fail (.refused e)
  | _ => fail (.crashed "counter")

def getBit {w : Width} (b : BitSet w) (index : Nat) : Session m Bool :=
  match (b.perform (.get index)).1 with
  | .returned (.ok (.bit value)) => return value
  | .returned (.error e) => fail (.refused e)
  | _ => fail (.crashed "reader")

/-- The number of calls of a thread, if none of them was refused. -/
def tally (thread : String) (refusal : Error → Failure) (endings : List (Ending Reply)) :
    Session m Nat :=
  match endings.find? fun e => !e.isOk with
  | none => return endings.length
  | some (.returned (.error e)) => fail (refusal e)
  | some _ => fail (.crashed thread)

/-- The numbers of calls of several threads, added up, if none of the calls was refused. -/
def tallyAll (thread : String) (refusal : Error → Failure) :
    List (List (Ending Reply)) → Session m Nat
  | [] => return 0
  | endings :: rest => do
    let n ← tally thread refusal endings
    let k ← tallyAll thread refusal rest
    return n + k

end Session

end SharedBits
