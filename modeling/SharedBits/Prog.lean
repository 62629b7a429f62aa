import SharedBits.Store

/-!
# Programs over the shared words

A program is the tree of the steps that one call takes: which cell it reads, writes or replaces,
which lock it takes or gives back, where it computes with a word, and how it goes on from what it
saw. The steps are those that threads interleave; nothing in a program depends on who else runs.
-/

namespace SharedBits

/-- A program that ends with an `α`. -/
inductive Prog (w : Width) (α : Type) : Type where
  | ret (value : α)
  | read (cell : Nat) (next : Word w → Prog w α)
  | write (cell : Nat) (value : Word w) (next : Prog w α)
  /-- Replaces the word of a cell by its transform: an optimistic update that is tried until a
  compare-and-swap commits it. Goes on from the word that was replaced. -/
  | modify (cell : Nat) (transform : Word w → Word w) (next : Word w → Prog w α)
  /-- Waits for a lock and takes it. Goes on from whether it was poisoned. -/
  | acquire (guard : Guard) (next : Bool → Prog w α)
  | release (guard : Guard) (next : Prog w α)
  /-- Computes with the bits of a word. A computation can panic. -/
  | compute (next : Prog w α)

inductive Ending (α : Type) where
  | returned (value : α)
  /-- A computation panicked, or a cell or a lock was addressed that does not exist. -/
  | panicked
  /-- It waits for a lock that nobody will give back. -/
  | blocked
  deriving DecidableEq, Repr

namespace Prog

variable {w : Width} {α β : Type}

/-- First `p`, then what `f` makes of its value. -/
def bind : Prog w α → (α → Prog w β) → Prog w β
  | ret a, f => f a
  | read cell next, f => read cell fun v => (next v).bind f
  | write cell value next, f => write cell value (next.bind f)
  | modify cell transform next, f => modify cell transform fun v => (next v).bind f
  | acquire guard next, f => acquire guard fun b => (next b).bind f
  | release guard next, f => release guard (next.bind f)
  | compute next, f => compute (next.bind f)

theorem bind_assoc {γ : Type} (p : Prog w α) (f : α → Prog w β) (g : β → Prog w γ) :
    (p.bind f).bind g = p.bind fun a => (f a).bind g := by
  induction p with
  | ret a => rfl
  | read cell next ih => simp only [bind, ih]
  | write cell value next ih => simp only [bind, ih]
  | modify cell transform next ih => simp only [bind, ih]
  | acquire guard next ih => simp only [bind, ih]
  | release guard next ih => simp only [bind, ih]
  | compute next ih => simp only [bind, ih]

/-! ## Running alone -/

/-- The surroundings of a program that runs alone. -/
structure Alone (w : Width) where
  store : Store w
  /-- The locks it holds, the last taken first. -/
  held : List Guard := []
  /-- How many computations succeed before one panics; none does when there is no such number. -/
  fuse : Option Nat := none
  deriving DecidableEq

namespace Alone

/-- The holder dies: it lets go of its locks. -/
def die (s : Alone w) : Alone w := { s with store := s.store.abandon s.held, held := [] }

/-- One computation. It panics when the fuse has burnt down, and that spends the fuse. -/
def tick (s : Alone w) : Option (Alone w) :=
  match s.fuse with
  | none => some s
  | some 0 => none
  | some (n + 1) => some { s with fuse := some n }

end Alone

/-- Runs a program with no other thread about. -/
def run : Prog w α → Alone w → Ending α × Alone w
  | ret a, s => (.returned a, s)
  | read cell next, s =>
    match s.store.cells.load? cell with
    | none => (.panicked, s.die)
    | some v => (next v).run s
  | write cell value next, s =>
    match s.store.cells.load? cell with
    | none => (.panicked, s.die)
    | some _ => next.run { s with store := s.store.write cell value }
  | modify cell transform next, s =>
    match s.store.cells.load? cell with
    | none => (.panicked, s.die)
    | some seen =>
      match s.tick with
      | none => (.panicked, { s.die with fuse := none })
      | some s => (next seen).run { s with store := s.store.write cell (transform seen) }
  | acquire guard next, s =>
    match s.store.locks[guard.lock]? with
    | none => (.panicked, s.die)
    | some lock =>
      if lock.isFree guard.mode then
        (next lock.poisoned).run
          { s with store := s.store.take guard, held := guard :: s.held }
      else (.blocked, s)
  | release guard next, s =>
    next.run { s with store := s.store.drop guard, held := s.held.erase guard }
  | compute next, s =>
    match s.tick with
    | none => (.panicked, { s.die with fuse := none })
    | some s => next.run s

/-- A program runs its first part to the end, and goes on only if that part returned. -/
theorem run_bind (p : Prog w α) (f : α → Prog w β) (s : Alone w) :
    (p.bind f).run s = match p.run s with
      | (.returned a, s) => (f a).run s
      | (.panicked, s) => (.panicked, s)
      | (.blocked, s) => (.blocked, s) := by
  induction p generalizing s with
  | ret a => rfl
  | read cell next ih =>
    simp only [bind, run]
    cases s.store.cells.load? cell with
    | none => rfl
    | some v => exact ih v s
  | write cell value next ih =>
    simp only [bind, run]
    cases s.store.cells.load? cell with
    | none => rfl
    | some v => exact ih _
  | modify cell transform next ih =>
    simp only [bind, run]
    cases s.store.cells.load? cell with
    | none => rfl
    | some seen =>
      cases s.tick with
      | none => rfl
      | some s => exact ih seen _
  | acquire guard next ih =>
    simp only [bind, run]
    cases s.store.locks[guard.lock]? with
    | none => rfl
    | some lock =>
      by_cases h : lock.isFree guard.mode = true
      · simp only [h, if_true]
        exact ih _ _
      · simp only [h]
        rfl
  | release guard next ih => exact ih _
  | compute next ih =>
    simp only [bind, run]
    cases s.tick with
    | none => rfl
    | some s => exact ih s

end Prog

end SharedBits
