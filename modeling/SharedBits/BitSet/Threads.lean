import SharedBits.BitSet
import SharedBits.Machine.InTurn

/-!
# Threads that share a bitset

The systems whose machines are threads making calls of one bitset. They differ in what a thread does
after a refusal: a persistent one makes its next call, a strict one stops. A panic stops both.
-/

namespace SharedBits

/-- Whether a call ended without a refusal. -/
def Ending.isOk {ε α : Type} : Ending (Except ε α) → Bool
  | .returned (.ok _) => true
  | _ => false

/-- Whether a call came to a return. -/
def Ending.isReturn {α : Type} : Ending α → Bool
  | .returned _ => true
  | _ => false

namespace BitSet

variable {w : Width}

/-- Threads that go on after a refused step. -/
def persistent (b : BitSet w) : System w Step Reply where
  code := b.strategy.stepCode w b.capacity
  stops ending := !ending.isReturn

/-- Threads that stop at the first refused call. -/
def strict (b : BitSet w) : System w Call Reply where
  code := b.strategy.code w b.capacity
  stops ending := !ending.isOk

/-- A thread's list of steps, `n` times over. -/
def repeated (n : Nat) (steps : List Step) : List Step :=
  if steps.isEmpty then [] else (List.replicate n steps).flatten

/-- The bitset with the store that a machine left. -/
def after {κ ρ : Type} (b : BitSet w) (m : Machine w κ ρ) : BitSet w := { b with store := m.store }

end BitSet

end SharedBits
