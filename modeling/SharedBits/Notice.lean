import SharedBits.BitSet
import SharedBits.Latency
import SharedBits.Workload

/-!
# Notices

What a command reports besides its output: a level, a message, and named values.
-/

namespace SharedBits

inductive Level where
  | debug
  | info
  | warn
  | error
  deriving DecidableEq, Repr

def Level.name : Level → String
  | debug => "DEBUG"
  | info => "INFO"
  | warn => "WARN"
  | error => "ERROR"

/-- The things that are reported. -/
inductive Notice where
  | created (strategy : Strategy) (capacity cells wordBits : Nat)
  | stressStarted (readers writers passes : Nat)
  /-- A stress run ended with clear bits. -/
  | bitsMissing (strategy : Strategy) (capacity set : Nat)
  | raceStarted (rounds burst : Nat)
  /-- A strategy that may lose updates takes part. -/
  | lossExpected (strategy : Strategy)
  | benchStarted (workload : Workload) (bits iterations threads : Nat) (isShuffled : Bool)
  | iterationDone (strategy : Strategy) (iteration nanos : Nat)
  deriving DecidableEq, Repr

namespace Notice

def level : Notice → Level
  | created .. => .debug
  | stressStarted .. => .info
  | bitsMissing .. => .error
  | raceStarted .. => .info
  | lossExpected .. => .warn
  | benchStarted .. => .info
  | iterationDone .. => .debug

def message : Notice → String
  | created strategy .. => "created " ++ strategy.title ++ " bitset"
  | stressStarted .. => "starting stress run"
  | bitsMissing .. => "writers finished but bits are missing"
  | raceStarted .. => "starting lost-update race"
  | lossExpected .. => "baseline without atomic read-modify-write, lost updates expected"
  | benchStarted .. => "starting benchmark"
  | iterationDone .. => "iteration done"

/-- What the cells of a strategy are called. -/
def cellsName (strategy : Strategy) : String :=
  match strategy.discipline with
  | .locked .perWord _ => "locks"
  | _ => "words"

/-- The named values of each notice. -/
def fields : Notice → List (String × String)
  | created strategy capacity cells wordBits =>
    [("capacity", toString capacity), (cellsName strategy, toString cells),
      ("word_bits", toString wordBits)]
  | stressStarted readers writers passes =>
    [("readers", toString readers), ("writers", toString writers), ("passes", toString passes)]
  | bitsMissing strategy capacity set =>
    [("strategy", strategy.name), ("capacity", toString capacity), ("set", toString set)]
  | raceStarted rounds burst => [("rounds", toString rounds), ("burst", toString burst)]
  | lossExpected strategy => [("strategy", strategy.name)]
  | benchStarted workload bits iterations threads isShuffled =>
    [("workload", workload.label), ("bits", toString bits), ("iterations", toString iterations),
      ("threads", toString threads), ("shuffled", toString isShuffled)]
  | iterationDone strategy iteration nanos =>
    [("strategy", strategy.name), ("iteration", toString iteration),
      ("elapsed", wholeNanosText nanos)]

/-- The notice on one line. -/
def render (n : Notice) : String :=
  let fields := n.fields.map fun (name, text) => name ++ "=" ++ text
  " ".intercalate (n.level.name :: n.message :: fields)

end Notice

/-- The notice of a bitset that was just made. -/
def BitSet.notice {w : Width} (b : BitSet w) : Notice :=
  .created b.strategy b.capacity b.words w.bits

end SharedBits
