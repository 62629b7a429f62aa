import SharedBits.Session

/-!
# Stress runs

Readers scan every bit, again and again, while writers set every bit. Each writer starts one bit
further than the one before it, so that writers meet on the same words. When all writers are done,
every bit must be set.
-/

namespace SharedBits.Stress

/-- How many threads take part, and how often each reader scans all bits. -/
structure Config where
  readers : Nat
  writers : Nat
  passes : Nat
  deriving DecidableEq, Repr

/-- What one run did. -/
structure Outcome where
  reads : Nat
  writes : Nat
  setBits : Nat
  /-- Elapsed time in nanoseconds. -/
  nanos : Nat
  deriving DecidableEq, Repr

def readerCalls (capacity passes : Nat) : List Call :=
  (List.replicate passes (List.range capacity)).flatten.map .get

/-- The bits that writer number `writer` sets, in order. -/
def writerBits (capacity writer : Nat) : List Nat :=
  (List.range capacity).map fun step => (step + writer) % capacity

def writerCalls (capacity writer : Nat) : List Call :=
  (writerBits capacity writer).map (.update .set)

/-- The calls of all threads, the readers first. -/
def threads (capacity : Nat) (config : Config) : List (List Call) :=
  (List.range config.readers).map (fun _ => readerCalls capacity config.passes)
    ++ (List.range config.writers).map (writerCalls capacity)

variable {m : Type → Type} [Monad m]

/-- One run on a new bitset. -/
def run (env : Environment m) (strategy : Strategy) (capacity : Nat) (config : Config) :
    Session m Outcome := do
  let b ← Session.build strategy capacity .refused
  let began ← Session.ask env.now
  let done ← Session.ask (env.finish b.strict b.store (threads capacity config))
  let reads ← Session.tallyAll "reader" .refused (done.endings.take config.readers)
  let writes ← Session.tallyAll "writer" .refused (done.endings.drop config.readers)
  let setBits ← Session.count (b.after done)
  let ended ← Session.ask env.now
  return ⟨reads, writes, setBits, ended - began⟩

/-! ## The table -/

def line (strategy bits reads writes set time : String) : String :=
  Text.padEnd 16 strategy ++ " " ++ Text.padStart 8 bits ++ " " ++ Text.padStart 12 reads ++ " "
    ++ Text.padStart 10 writes ++ " " ++ Text.padStart 10 set ++ " " ++ time

def heading : String :=
  line "strategy" "bits" "reads" "writes" "set" (Text.padStart 10 "time")

def row (strategy : Strategy) (capacity : Nat) (outcome : Outcome) : String :=
  let seconds := outcome.nanos.toFloat / 1000000000
  line strategy.name (toString capacity) (toString outcome.reads) (toString outcome.writes)
    (toString outcome.setBits) (Text.padStart 9 (Text.fixedPlaces 4 seconds) ++ "s")

/-- Runs the pairs of a strategy and a capacity in order, and counts the runs that leave bits
clear. -/
def runAll (env : Environment m) (config : Config) : List (Strategy × Nat) → Session m Nat
  | [] => return 0
  | (strategy, capacity) :: pairs => do
    let outcome ← run env strategy capacity config
    Session.say (row strategy capacity outcome)
    if outcome.setBits = capacity then runAll env config pairs
    else
      Session.report (.bitsMissing strategy capacity outcome.setBits)
      let failures ← runAll env config pairs
      return failures + 1

/-- The pairs of a strategy and a capacity, strategy by strategy. -/
def pairs (strategies : List Strategy) (capacities : List Nat) : List (Strategy × Nat) :=
  strategies.flatMap fun strategy => capacities.map fun capacity => (strategy, capacity)

/-- Stress runs of every strategy with every capacity. -/
def command (env : Environment m) (strategies : List Strategy) (capacities : List Nat)
    (config : Config) : Session m Unit := do
  Session.report (.stressStarted config.readers config.writers config.passes)
  Session.say heading
  let failures ← runAll env config (pairs strategies capacities)
  if 0 < failures then Session.fail (.bitsMissing failures)

end SharedBits.Stress
