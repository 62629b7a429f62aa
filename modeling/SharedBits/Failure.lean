import SharedBits.Probe
import SharedBits.Text.Column

/-!
# Failures of a command

A failure is a cause and the contexts in which it arose. Its message joins them, the widest context
first; a report to the terminal sets the causes apart, a line each.
-/

namespace SharedBits

inductive Failure where
  | refused (error : Error)
  /-- A command line held a text that is no probe. -/
  | badProbe (error : ProbeError)
  /-- A bitset to be probed could not be made. -/
  | cannotBuild (strategy : Strategy) (error : Error)
  /-- A probe was refused. -/
  | probeFailed (probe : Probe) (error : Error)
  /-- Stress runs ended with clear bits. -/
  | bitsMissing (runs : Nat)
  /-- Strategies lost updates that should not. -/
  | updatesLost (strategies : List Strategy)
  /-- An iteration of a benchmark was refused. -/
  | iterationFailed (strategy : Strategy) (iteration : Nat) (error : Error)
  /-- A thread did not come to its end. -/
  | crashed (thread : String)
  deriving DecidableEq, Repr

namespace Failure

/-- The contexts of the failure, the widest first, and its cause at the end. -/
def chain : Failure → List String
  | refused error => [error.message]
  | badProbe error => error.chain
  | cannotBuild strategy error => ["cannot build " ++ strategy.name ++ " bitset", error.message]
  | probeFailed probe error => [probe.render ++ " failed", error.message]
  | bitsMissing runs => [toString runs ++ " stress run(s) ended with missing bits"]
  | updatesLost strategies =>
    ["synchronized strategies lost updates: ["
      ++ ", ".intercalate (strategies.map Strategy.label) ++ "]"]
  | iterationFailed strategy iteration error =>
    [strategy.name ++ " iteration " ++ toString iteration ++ " failed", error.message]
  | crashed thread => [thread ++ " panicked"]

/-- The failure on one line. -/
def message (f : Failure) : String := ": ".intercalate f.chain

/-- The failure as lines for a terminal. Several causes are numbered, a single one is not. -/
def report (f : Failure) : List String :=
  match f.chain with
  | [] => ["Error: "]
  | [cause] => ["Error: " ++ cause]
  | [context, cause] => ["Error: " ++ context, "", "Caused by:", "    " ++ cause]
  | context :: causes =>
    ["Error: " ++ context, "", "Caused by:"]
      ++ causes.mapIdx fun i cause => Text.padStart 5 (toString i) ++ ": " ++ cause

end Failure

end SharedBits
