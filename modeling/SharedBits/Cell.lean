import SharedBits.Word

/-!
# Atomic cells

A cell holds one word and is read, overwritten or swapped in one step. `Cells` is a row of them,
and `Cells.update?` is the optimistic update of one: read, compute, swap if nothing has changed,
else compute again from what is there now.
-/

namespace SharedBits

/-! ## One cell -/

/-- What a compare-and-swap finds. -/
inductive Swap (w : Width) where
  /-- The expected word was there and has been replaced. -/
  | swapped (old : Word w)
  /-- Another word was there and stays. -/
  | found (actual : Word w)
  deriving DecidableEq

/-- Replaces the word `stored` by `new` if it is the expected one. -/
def compareSwap {w : Width} (stored expected new : Word w) : Swap w × Word w :=
  if stored = expected then (.swapped stored, new) else (.found stored, stored)

/-- One access to a cell. -/
inductive CellOp (w : Width) where
  | load
  | store (value : Word w)
  | compareSwap (expected new : Word w)
  deriving DecidableEq

/-- What an access gives back. -/
inductive CellAnswer (w : Width) where
  | value (word : Word w)
  | stored
  | swap (swap : Swap w)
  deriving DecidableEq

/-- One access to a cell that holds `word`: its answer, and what the cell holds then. -/
def CellOp.run {w : Width} : CellOp w → Word w → CellAnswer w × Word w
  | load, word => (.value word, word)
  | store value, _ => (.stored, value)
  | compareSwap expected new, word =>
    let (swap, now) := SharedBits.compareSwap word expected new
    (.swap swap, now)

/-! ## The retry loop on one cell -/

/-- How an optimistic update ended. -/
structure Replaced (w : Width) where
  previous : Word w
  /-- How often it computed its transform. -/
  calls : Nat
  /-- The word it left behind. -/
  word : Word w
  deriving DecidableEq

/-- The retry loop, having seen the word `seen`, against rivals: during each attempt the next of
`rivals`, if there is one, is stored over the cell before the swap. -/
def retry {w : Width} (transform : Word w → Word w) (seen : Word w) : List (Word w) → Replaced w
  | [] => ⟨seen, 1, transform seen⟩
  | rival :: rivals =>
    match compareSwap rival seen (transform seen) with
    | (.swapped old, now) => ⟨old, 1, now⟩
    | (.found actual, _) =>
      let rest := retry transform actual rivals
      { rest with calls := rest.calls + 1 }

/-! ## A row of cells -/

/-- A fixed number of cells. -/
structure Cells (w : Width) where
  words : Array (Word w)
  deriving DecidableEq

namespace Cells

variable {w : Width}

/-- `size` cells that hold zero. -/
def zeros (size : Nat) : Cells w := ⟨Array.replicate size 0⟩

def size (cells : Cells w) : Nat := cells.words.size

def isEmpty (cells : Cells w) : Bool := cells.words.isEmpty

/-- The word in cell `i`, if there is such a cell. -/
def load? (cells : Cells w) (i : Nat) : Option (Word w) := cells.words[i]?

/-- The cells after `value` is stored in cell `i`. -/
def store (cells : Cells w) (i : Nat) (value : Word w) : Cells w :=
  ⟨cells.words.setIfInBounds i value⟩

/-- Stores `value` in cell `i`, if there is such a cell. -/
def store? (cells : Cells w) (i : Nat) (value : Word w) : Option (Cells w) :=
  if i < cells.size then some (cells.store i value) else none

/-- Replaces the word in cell `i` by its transform, against `rivals`. -/
def update? (cells : Cells w) (i : Nat) (transform : Word w → Word w) (rivals : List (Word w)) :
    Option (Replaced w × Cells w) :=
  match cells.load? i with
  | none => none
  | some seen =>
    let done := retry transform seen rivals
    some (done, cells.store i done.word)

@[simp] theorem size_zeros (n : Nat) : (zeros n : Cells w).size = n := Array.size_replicate

@[simp] theorem size_store (cells : Cells w) (i : Nat) (v : Word w) :
    (cells.store i v).size = cells.size := by
  simp [store, size]

theorem load?_eq_none {cells : Cells w} {i : Nat} : cells.load? i = none ↔ cells.size ≤ i := by
  simp [load?, size]

theorem load?_zeros {n i : Nat} (h : i < n) : (zeros n : Cells w).load? i = some 0 := by
  simp [load?, zeros, h]

/-- A store changes its own cell and no other. -/
theorem load?_store (cells : Cells w) (i j : Nat) (v : Word w) :
    (cells.store i v).load? j = if i = j ∧ j < cells.size then some v else cells.load? j := by
  simp only [load?, store, size, Array.getElem?_setIfInBounds]
  by_cases hij : i = j
  · subst hij
    by_cases hi : i < cells.words.size <;> simp [hi]
  · simp [hij]

end Cells

end SharedBits
