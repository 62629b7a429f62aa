import SharedBits.Session

/-!
# Races for one word

Two threads set and clear neighbouring bits of one word, and each ends by setting its bit. So both
bits must be set in the end; a strategy that does not keep updates of a word apart can lose one.
-/

namespace SharedBits.Race

/-- The bits that the threads race on. They share a word of any width. -/
def bits : List Nat := [1, 2]

/-- The capacity of the bitset that is raced on. -/
def capacity : Nat := 10

/-- The calls of the thread that works on `bit`. -/
def calls (burst bit : Nat) : List Call :=
  (List.replicate burst [Call.update .set bit, Call.update .clear bit]).flatten
    ++ [Call.update .set bit]

variable {m : Type → Type} [Monad m]

/-- Whether one of the bits is clear. -/
def anyClear {w : Width} (b : BitSet w) : List Nat → Session m Bool
  | [] => return false
  | bit :: rest => do
    if ← Session.getBit b bit then anyClear b rest else return true

/-- One round on a new bitset: whether the last update of a thread was lost. -/
def round (env : Environment m) (strategy : Strategy) (burst : Nat) : Session m Bool := do
  let b ← Session.build strategy capacity .refused
  let done ← Session.ask (env.finish b.strict b.store (bits.map (calls burst)))
  let _ ← Session.tallyAll "racer" .refused done.endings
  anyClear (b.after done) bits

/-- The number of rounds, out of `rounds`, in which an update was lost. -/
def countLost (env : Environment m) (strategy : Strategy) (burst : Nat) : Nat → Nat → Session m Nat
  | 0, lost => return lost
  | rounds + 1, lost => do
    let isLost ← round env strategy burst
    countLost env strategy burst rounds (lost + isLost.toNat)

def line (strategy rounds lost : String) : String :=
  Text.padEnd 16 strategy ++ " " ++ Text.padStart 8 rounds ++ " " ++ Text.padStart 8 lost

def heading : String := line "strategy" "rounds" "lost"

def row (strategy : Strategy) (rounds lost : Nat) : String :=
  line strategy.name (toString rounds) (toString lost)

/-- Races every strategy in order. Gives those that lost an update and should not. -/
def runAll (env : Environment m) (rounds burst : Nat) : List Strategy → Session m (List Strategy)
  | [] => return []
  | strategy :: strategies => do
    if !strategy.isSynchronized then Session.report (.lossExpected strategy)
    let lost ← countLost env strategy burst rounds 0
    Session.say (row strategy rounds lost)
    let broken ← runAll env rounds burst strategies
    return if 0 < lost && strategy.isSynchronized then strategy :: broken else broken

def command (env : Environment m) (strategies : List Strategy) (rounds burst : Nat) :
    Session m Unit := do
  Session.report (.raceStarted rounds burst)
  Session.say heading
  let broken ← runAll env rounds burst strategies
  if !broken.isEmpty then Session.fail (.updatesLost broken)

end SharedBits.Race
