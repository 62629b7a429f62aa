import SharedBits.Machine

/-!
# One thread after another

The plainest way to bring a machine to its end: the first thread makes all its calls, each run
alone, then the second, and so on. It is one interleaving of many.
-/

namespace SharedBits.System

variable {w : Width} {κ ρ : Type}

/-- Makes the calls one by one, after those in `done`, until one ends so that the thread stops. -/
def runCalls (sys : System w κ ρ) (store : Store w) (done : Array (κ × Ending ρ)) :
    List κ → Store w × Array (κ × Ending ρ)
  | [] => (store, done)
  | call :: calls =>
    let (ending, after) := (sys.code call).run { store := store }
    if sys.stops ending then (after.store, done.push (call, ending))
    else runCalls sys after.store (done.push (call, ending)) calls

/-- Lets the threads make their calls, one thread after another. -/
def runThreads (sys : System w κ ρ) (store : Store w) (done : Array (Thread w κ ρ)) :
    List (List κ) → Machine w κ ρ
  | [] => ⟨store, done.toList⟩
  | calls :: rest =>
    let (store, finished) := runCalls sys store #[] calls
    runThreads sys store (done.push { waiting := [], finished := finished }) rest

/-- The machine after all threads have run, one after another. -/
def inTurn (sys : System w κ ρ) (store : Store w) (calls : List (List κ)) : Machine w κ ρ :=
  runThreads sys store #[] calls

end SharedBits.System
