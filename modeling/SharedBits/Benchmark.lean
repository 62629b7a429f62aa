import SharedBits.Session

/-!
# Benchmarks

Each iteration hands every task of a workload to the threads at once, on a new bitset, so the
operations on a bit fall in any order. The bitset holds one bit more than the tasks touch.
-/

namespace SharedBits.Benchmark

/-- What is measured. -/
structure Config where
  workload : Workload
  /-- Bits touched in each iteration. -/
  bits : Nat
  iterations : Nat
  /-- Worker threads, or 0 for as many as there are processors. -/
  threads : Nat
  /-- The seed by which the tasks are shuffled, if they are. -/
  shuffle : Option Nat
  deriving DecidableEq, Repr

/-- The width of a bucket of the latency histogram: a millisecond. -/
def bucketNanos : Nat := 1000000

namespace Config

/-- The tasks of one iteration, in the order in which they are handed out. -/
def tasks (config : Config) (shuffle : Nat → List Task → List Task) : List Task :=
  let tasks := config.workload.tasks config.bits
  match config.shuffle with
  | none => tasks
  | some seed => shuffle seed tasks

end Config

/-- Number of operations that tasks make. -/
def operations (tasks : List Task) : Nat := tasks.foldl (fun n task => n + task.repeats) 0

variable {m : Type → Type} [Monad m]

/-- Iterations number `first` and up, `n` of them, in which the threads make `calls` on a bitset of
`capacity` bits; adds their times to `latency`. -/
def iterate (env : Environment m) (strategy : Strategy) (capacity : Nat) (calls : List (List Call))
    (first : Nat) (latency : Latency) : Nat → Session m Latency
  | 0 => return latency
  | n + 1 => do
    let b ← Session.build strategy capacity .refused
    let began ← Session.ask env.now
    let done ← Session.ask (env.finish b.strict b.store calls)
    let _ ← Session.tallyAll "worker" (.iterationFailed strategy first) done.endings
    let ended ← Session.ask env.now
    let nanos := (ended - began) % Nat.pow 2 64
    Session.report (.iterationDone strategy first nanos)
    iterate env strategy capacity calls (first + 1) (latency.record nanos) n

/-- All iterations of one strategy: the number of operations made, and the latencies. -/
def measure (env : Environment m) (strategy : Strategy) (config : Config) (latency : Latency) :
    Session m (Nat × Latency) := do
  let tasks := config.tasks env.shuffle
  let calls := tasks.map Task.calls
  let latency ← iterate env strategy (config.bits + 1) calls 0 latency config.iterations
  return (operations tasks * config.iterations, latency)

/-- Prints the report as far as it goes. -/
def sayReport (latency : Latency) : Session m Unit := do
  let (lines, isWhole) := latency.report
  Session.sayAll lines
  if !isWhole then Session.fail (.crashed "report")

def runAll (env : Environment m) (config : Config) : List Strategy → Session m Unit
  | [] => return ()
  | strategy :: strategies => do
    Session.sayAll ["", strategy.name ++ " (" ++ config.workload.label ++ ")"]
    let began ← Session.ask env.now
    let (operations, latency) ← measure env strategy config (Latency.new bucketNanos)
    let ended ← Session.ask env.now
    let seconds := (ended - began).toFloat / 1000000000
    Session.say ("Ops:        " ++ toString operations)
    Session.say ("Throughput: " ++ Text.fixedPlaces 2 (operations.toFloat / seconds) ++ " ops/s")
    sayReport latency
    runAll env config strategies

def command (env : Environment m) (strategies : List Strategy) (config : Config) :
    Session m Unit := do
  let threads ← if config.threads = 0 then Session.ask env.cores else pure config.threads
  Session.report
    (.benchStarted config.workload config.bits config.iterations threads config.shuffle.isSome)
  runAll env config strategies

end SharedBits.Benchmark
