import SharedBits.Session

/-!
# The probe command

Builds a bitset and makes probes of it, one line for each, until one is refused.
-/

namespace SharedBits.Probe

variable {m : Type → Type} [Monad m]

/-- The line of a probe and its outcome. -/
def line (p : Probe) (outcome : String) : String := Text.padEnd 12 p.render ++ " " ++ outcome

/-- Makes the probes in order. -/
def applyAll {w : Width} (b : BitSet w) : List Probe → Session m Unit
  | [] => return ()
  | p :: probes =>
    match p.apply b with
    | (.returned (.ok outcome), b) => do
      Session.say (p.line outcome)
      applyAll b probes
    | (.returned (.error e), _) => Session.fail (.probeFailed p e)
    | (_, _) => Session.fail (.crashed "probe")

/-- Makes the probes of a new bitset. -/
def command (strategy : Strategy) (capacity : Nat) (probes : List Probe) : Session m Unit := do
  let b ← Session.build strategy capacity (.cannotBuild strategy)
  applyAll b probes

end SharedBits.Probe
