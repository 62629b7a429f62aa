import SharedBits.Prog

/-!
# Threads at work on one store

A machine holds the shared store and, for each thread, the calls it has still to make, the call it
is in, and how its calls have ended. `System.step` lets one thread take one step: a load, a store,
one attempt of a compare-and-swap, one lock taken or given back, one computation. A run is any
sequence of such steps, so a statement about all runs is one about every interleaving.
-/

namespace SharedBits

/-- What the machine runs: the program of each call, and the endings after which a thread makes no
more calls. -/
structure System (w : Width) (κ ρ : Type) where
  code : κ → Prog w ρ
  stops : Ending ρ → Bool

structure Active (w : Width) (κ ρ : Type) where
  call : κ
  /-- What is left of its program. -/
  rest : Prog w ρ
  /-- The word that an optimistic update under way has seen last. -/
  seen : Option (Word w) := none
  /-- The locks that the call holds, the last taken first. -/
  held : List Guard := []

structure Thread (w : Width) (κ ρ : Type) where
  /-- The calls it has not begun. -/
  waiting : List κ
  /-- The call it is in. -/
  current : Option (Active w κ ρ) := none
  /-- The calls that have ended, in order, and how. -/
  finished : Array (κ × Ending ρ) := #[]

/-- The store and its threads. -/
structure Machine (w : Width) (κ ρ : Type) where
  store : Store w
  threads : List (Thread w κ ρ)

/-- What goes wrong in a step, as far as that is not decided by the machine. -/
inductive Mishap where
  | none
  /-- A compare-and-swap fails though the expected word is there. -/
  | spuriousFailure
  | panic
  deriving DecidableEq, Repr

/-- The choice of who steps next. -/
structure Move where
  thread : Nat
  mishap : Mishap := .none
  deriving DecidableEq, Repr

/-- What a step did. -/
inductive Event (w : Width) (ρ : Type) where
  | began
  /-- The cell was read outside an optimistic update. -/
  | loaded (cell : Nat) (word : Word w)
  /-- The cell was overwritten. -/
  | stored (cell : Nat) (old new : Word w)
  /-- An optimistic update read its cell for the first time. -/
  | observed (cell : Nat) (word : Word w)
  /-- A compare-and-swap replaced the word. -/
  | committed (cell : Nat) (old new : Word w)
  /-- A compare-and-swap failed and gave back the word that is there. -/
  | missed (cell : Nat) (expected actual : Word w)
  | acquired (guard : Guard) (poisoned : Bool)
  | released (guard : Guard)
  | computed
  | returned (reply : ρ)
  | panicked

/-- One step of a run: who took it, in which of its calls, and what it did. -/
structure Label (w : Width) (κ ρ : Type) where
  thread : Nat
  /-- How many calls the thread had ended before. -/
  number : Nat
  call : κ
  event : Event w ρ

namespace Thread

variable {w : Width} {κ ρ : Type}

/-- A thread that has made no call yet. -/
def start (calls : List κ) : Thread w κ ρ := { waiting := calls }

/-- Whether the thread has made all its calls. -/
def isDone (t : Thread w κ ρ) : Bool := t.waiting.isEmpty && t.current.isNone

/-- The thread after its call has ended. -/
def finish (t : Thread w κ ρ) (stops : Ending ρ → Bool) (call : κ) (ending : Ending ρ) :
    Thread w κ ρ :=
  { waiting := if stops ending then [] else t.waiting
    current := none
    finished := t.finished.push (call, ending) }

end Thread

/-- What a step makes of the store and of its call. -/
inductive Outcome (w : Width) (κ ρ : Type) where
  | goesOn (store : Store w) (active : Active w κ ρ)
  | ends (store : Store w) (ending : Ending ρ)

namespace Active

variable {w : Width} {κ ρ : Type}

/-- The call dies and lets go of its locks. -/
def die (a : Active w κ ρ) (store : Store w) : Event w ρ × Outcome w κ ρ :=
  (.panicked, .ends (store.abandon a.held) .panicked)

/-- The next step of a call in which nothing goes wrong. There is none while it waits for a lock. -/
def proceed (a : Active w κ ρ) (store : Store w) : Option (Event w ρ × Outcome w κ ρ) :=
  match a.rest with
  | .ret reply => some (.returned reply, .ends store (.returned reply))
  | .read cell next =>
    match store.cells.load? cell with
    | none => some (a.die store)
    | some v => some (.loaded cell v, .goesOn store { a with rest := next v })
  | .write cell value next =>
    match store.cells.load? cell with
    | none => some (a.die store)
    | some old =>
      some (.stored cell old value, .goesOn (store.write cell value) { a with rest := next })
  | .modify cell transform next =>
    match store.cells.load? cell with
    | none => some (a.die store)
    | some v =>
      match a.seen with
      | none => some (.observed cell v, .goesOn store { a with seen := some v })
      | some seen =>
        match compareSwap v seen (transform seen) with
        | (.swapped old, now) =>
          some (.committed cell old now,
            .goesOn (store.write cell now) { a with rest := next old, seen := none })
        | (.found actual, _) =>
          some (.missed cell seen actual, .goesOn store { a with seen := some actual })
  | .acquire guard next =>
    match store.locks[guard.lock]? with
    | none => some (a.die store)
    | some lock =>
      if lock.isFree guard.mode then
        some (.acquired guard lock.poisoned, .goesOn (store.take guard)
          { a with rest := next lock.poisoned, held := guard :: a.held })
      else none
  | .release guard next =>
    some (.released guard,
      .goesOn (store.drop guard) { a with rest := next, held := a.held.erase guard })
  | .compute next => some (.computed, .goesOn store { a with rest := next })

/-- The compare-and-swap of a call fails though the expected word may be there. -/
def miss (a : Active w κ ρ) (store : Store w) : Option (Event w ρ × Outcome w κ ρ) :=
  match a.rest, a.seen with
  | .modify cell _ _, some seen =>
    (store.cells.load? cell).map fun v =>
      (.missed cell seen v, .goesOn store { a with seen := some v })
  | _, _ => none

/-- The computation of a call panics: one that stands by itself, or that of an optimistic update. -/
def panic (a : Active w κ ρ) (store : Store w) : Option (Event w ρ × Outcome w κ ρ) :=
  match a.rest, a.seen with
  | .compute _, _ => some (a.die store)
  | .modify _ _ _, some _ => some (a.die store)
  | _, _ => none

/-- One step of a call, if it can take one. -/
def step (a : Active w κ ρ) (store : Store w) : Mishap → Option (Event w ρ × Outcome w κ ρ)
  | .none => a.proceed store
  | .spuriousFailure => a.miss store
  | .panic => a.panic store

end Active

namespace System

variable {w : Width} {κ ρ : Type}

/-- One step of a thread, if it can take one: it begins its next call, or goes on with its call. -/
def stepThread (sys : System w κ ρ) (store : Store w) (t : Thread w κ ρ) (mishap : Mishap) :
    Option (κ × Event w ρ × Store w × Thread w κ ρ) :=
  match t.current with
  | none =>
    match t.waiting with
    | [] => none
    | call :: waiting =>
      if mishap = .none then
        some (call, .began, store,
          { t with waiting := waiting, current := some { call := call, rest := sys.code call } })
      else none
  | some a =>
    match a.step store mishap with
    | none => none
    | some (event, .goesOn store a) => some (a.call, event, store, { t with current := some a })
    | some (event, .ends store ending) =>
      some (a.call, event, store, t.finish sys.stops a.call ending)

/-- One step of the machine, if the chosen thread can take it. -/
def step (sys : System w κ ρ) (m : Machine w κ ρ) (move : Move) :
    Option (Label w κ ρ × Machine w κ ρ) :=
  match m.threads[move.thread]? with
  | none => none
  | some t =>
    match sys.stepThread m.store t move.mishap with
    | none => none
    | some (call, event, store, after) =>
      some (⟨move.thread, t.finished.size, call, event⟩,
        ⟨store, m.threads.set move.thread after⟩)

end System

namespace Machine

variable {w : Width} {κ ρ : Type}

/-- A machine whose threads have made no call yet. -/
def start (store : Store w) (calls : List (List κ)) : Machine w κ ρ :=
  ⟨store, calls.map Thread.start⟩

/-- Whether every thread has made all its calls. -/
def isDone (m : Machine w κ ρ) : Bool := m.threads.all Thread.isDone

/-- How the calls of each thread have ended. -/
def endings (m : Machine w κ ρ) : List (List (Ending ρ)) :=
  m.threads.map fun t => t.finished.toList.map Prod.snd

end Machine

/-- The runs of a system from the machine `m₀`, each with its steps in order. -/
inductive Run {w : Width} {κ ρ : Type} (sys : System w κ ρ) (m₀ : Machine w κ ρ) :
    List (Label w κ ρ) → Machine w κ ρ → Prop
  | start : Run sys m₀ [] m₀
  | step {labels : List (Label w κ ρ)} {m m' : Machine w κ ρ} {move : Move}
      {label : Label w κ ρ} : Run sys m₀ labels m → sys.step m move = some (label, m') →
      Run sys m₀ (labels ++ [label]) m'

end SharedBits
