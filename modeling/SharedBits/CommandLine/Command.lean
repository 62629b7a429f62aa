import SharedBits.CommandLine.Options
import SharedBits.Probe.Command
import SharedBits.Stress
import SharedBits.Race
import SharedBits.Benchmark

/-!
# The commands

Four commands drive bitsets: stress runs, races, benchmarks and probes. Each has settings with
defaults, a grammar that reads them from its words, and a session that runs it.
-/

namespace SharedBits.CommandLine

/-- The settings of stress runs. No strategies stand for all that lose no update. -/
structure StressSettings where
  strategies : List Strategy := []
  capacities : List Nat := []
  readers : Nat := 4
  writers : Nat := 4
  passes : Nat := 100
  deriving DecidableEq, Repr

/-- The settings of races. No strategies stand for all. -/
structure RaceSettings where
  strategies : List Strategy := []
  rounds : Nat := 1000
  burst : Nat := 1000
  deriving DecidableEq, Repr

/-- The settings of benchmarks. No strategies stand for all that lose no update. -/
structure BenchSettings where
  strategies : List Strategy := []
  workload : Workload := .updateAndGetOnce
  bits : Nat := 100000
  iterations : Nat := 10
  threads : Nat := 0
  shuffle : Bool := false
  seed : Nat := 42
  deriving DecidableEq, Repr

structure ProbeSettings where
  strategy : Strategy := .lockFree
  capacity : Nat := 64
  probes : List Probe := []
  deriving DecidableEq, Repr

inductive Command where
  | stress (settings : StressSettings)
  | race (settings : RaceSettings)
  | bench (settings : BenchSettings)
  | probe (settings : ProbeSettings)
  deriving DecidableEq, Repr

/-! ## Reading values -/

/-- Reads a natural number of 64 bits. -/
def readNumber {σ : Type} (put : Nat → σ → σ) (text : String) (settings : σ) : Except Refusal σ :=
  match Text.readUnsigned text.toList with
  | .error _ => .error .badValue
  | .ok n => .ok (put n settings)

def readStrategy {σ : Type} (put : Strategy → σ → σ) (text : String) (settings : σ) :
    Except Refusal σ :=
  match Strategy.parse text with
  | .error _ => .error .badValue
  | .ok s => .ok (put s settings)

def readWorkload {σ : Type} (put : Workload → σ → σ) (text : String) (settings : σ) :
    Except Refusal σ :=
  match Workload.named? text with
  | none => .error .noSuchChoice
  | some workload => .ok (put workload settings)

def readProbe {σ : Type} (put : Probe → σ → σ) (text : String) (settings : σ) :
    Except Refusal σ :=
  match Probe.parse text with
  | .error _ => .error .badValue
  | .ok p => .ok (put p settings)

/-! ## The grammars -/

/-- The option that every command has. -/
def helpSwitch {σ : Type} : Switch σ := { long := "help", short := some 'h', effect := .help }

def stressGrammar : Grammar StressSettings where
  switches := [
    helpSwitch,
    { long := "strategy"
      effect := .values (readStrategy fun s c => { c with strategies := c.strategies ++ [s] }) },
    { long := "capacity"
      effect := .values (readNumber fun n c => { c with capacities := c.capacities ++ [n] }) },
    { long := "readers", effect := .value (readNumber fun n c => { c with readers := n }) },
    { long := "writers", effect := .value (readNumber fun n c => { c with writers := n }) },
    { long := "passes", effect := .value (readNumber fun n c => { c with passes := n }) }]

def raceGrammar : Grammar RaceSettings where
  switches := [
    helpSwitch,
    { long := "strategy"
      effect := .values (readStrategy fun s c => { c with strategies := c.strategies ++ [s] }) },
    { long := "rounds", effect := .value (readNumber fun n c => { c with rounds := n }) },
    { long := "burst", effect := .value (readNumber fun n c => { c with burst := n }) }]

def benchGrammar : Grammar BenchSettings where
  switches := [
    helpSwitch,
    { long := "strategy"
      effect := .values (readStrategy fun s c => { c with strategies := c.strategies ++ [s] }) },
    { long := "workload", effect := .value (readWorkload fun x c => { c with workload := x }) },
    { long := "bits", effect := .value (readNumber fun n c => { c with bits := n }) },
    { long := "iterations"
      short := some 'i'
      effect := .value (readNumber fun n c => { c with iterations := n }) },
    { long := "threads", effect := .value (readNumber fun n c => { c with threads := n }) },
    { long := "shuffle", effect := .flag fun c => { c with shuffle := true } },
    { long := "seed", effect := .value (readNumber fun n c => { c with seed := n }) }]

/-- The words of probes; each operand is one. -/
def probeGrammar : Grammar ProbeSettings where
  switches := [
    helpSwitch,
    { long := "strategy", effect := .value (readStrategy fun s c => { c with strategy := s }) },
    { long := "capacity", effect := .value (readNumber fun n c => { c with capacity := n }) }]
  operand := some (readProbe fun p c => { c with probes := c.probes ++ [p] })

/-! ## Reading a command line -/

/-- The names of the commands, with that of the one that explains the others. -/
def commandNames : List String := ["stress", "race", "bench", "probe", "help"]

/-- The words after the name of a command. -/
def readCommand : String → List String → Except Refusal Command
  | "stress", words => return .stress (← stressGrammar.read {} words)
  | "race", words => return .race (← raceGrammar.read {} words)
  | "bench", words => return .bench (← benchGrammar.read {} words)
  | "probe", words => do
    let settings ← probeGrammar.read {} words
    if settings.probes.isEmpty then .error .missingOperand else return .probe settings
  | "help", [] => .error .help
  | "help", [name] => .error (if commandNames.contains name then .help else .unknownCommand)
  | _, _ => .error .unknownCommand

/-- The command that a command line asks for. -/
def parse : List String → Except Refusal Command
  | [] => .error .nothingAsked
  | word :: words =>
    match Token.ofWord word with
    | .endOfOptions =>
      match words with
      | [] => .error .nothingAsked
      | name :: _ =>
        .error (if commandNames.contains name then .unknownArgument else .unknownCommand)
    | .long "help" none => .error .help
    | .long "help" (some _) => .error .surplusValue
    | .short ('h' :: _) => .error .help
    | .long _ _ => .error .unknownArgument
    | .short _ => .error .unknownArgument
    | .operand name => readCommand name words

/-! ## Running a command -/

/-- The strategies that were named, or the usual ones where none was. -/
def chosenOr (usual strategies : List Strategy) : List Strategy :=
  if strategies.isEmpty then usual else strategies

namespace StressSettings

def selected (s : StressSettings) : List Strategy := chosenOr Strategy.synchronized s.strategies

def sizes (s : StressSettings) : List Nat :=
  if s.capacities.isEmpty then [10, 100, 1000] else s.capacities

end StressSettings

def RaceSettings.selected (s : RaceSettings) : List Strategy := chosenOr Strategy.all s.strategies

namespace BenchSettings

def selected (s : BenchSettings) : List Strategy := chosenOr Strategy.synchronized s.strategies

def config (s : BenchSettings) : Benchmark.Config :=
  ⟨s.workload, s.bits, s.iterations, s.threads, if s.shuffle then some s.seed else none⟩

end BenchSettings

def Command.run {m : Type → Type} [Monad m] (env : Environment m) : Command → Session m Unit
  | stress s => Stress.command env s.selected s.sizes ⟨s.readers, s.writers, s.passes⟩
  | race s => Race.command env s.selected s.rounds s.burst
  | bench s => Benchmark.command env s.selected s.config
  | probe s => Probe.command s.strategy s.capacity s.probes

/-- What is left to the terminal when a command line has been handled. -/
structure Exit where
  code : Nat
  lines : List String := []
  notices : List Notice := []
  complaint : List String := []
  deriving DecidableEq, Repr

/-- The wording of a refused command line. -/
def Refusal.message : Refusal → String
  | help => "usage: stress | race | bench | probe OPERATION:INDEX..."
  | nothingAsked => "a command is needed: stress, race, bench or probe"
  | missingOperand => "at least one OPERATION:INDEX is needed"
  | unknownCommand => "there is no such command"
  | unknownArgument => "there is no such option, or an operand too many"
  | badValue => "the value of an option cannot be read"
  | noSuchChoice => "an option lacks its value, or has one that is not among its choices"
  | givenTwice => "an option is given twice"
  | surplusValue => "an option has a value that takes none"

/-- The exit code of a refused command line. Help is no mistake. -/
def Refusal.code : Refusal → Nat
  | help => 0
  | _ => 2

def execute {m : Type → Type} [Monad m] (env : Environment m) (words : List String) : m Exit :=
  match parse words with
  | .error refusal => pure { code := refusal.code, complaint := [refusal.message] }
  | .ok command => do
    let (result, transcript) ← (command.run env).run.run {}
    let lines := transcript.lines.toList
    let notices := transcript.notices.toList
    match result with
    | .ok () => return { code := 0, lines := lines, notices := notices }
    | .error failure =>
      return { code := 1, lines := lines, notices := notices, complaint := failure.report }

end SharedBits.CommandLine
