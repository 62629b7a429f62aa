/-!
# Words and the updates of their bits

A word is the unit of storage and of synchronisation: it is loaded, stored and swapped whole. An
update takes the bits selected by a mask to one, to zero, or to their opposite, and leaves the rest.
-/

namespace SharedBits

/-- The widths a storage word may have. -/
inductive Width where
  | w8
  | w16
  | w32
  | w64
  deriving DecidableEq, Repr

namespace Width

def bits : Width → Nat
  | w8 => 8
  | w16 => 16
  | w32 => 32
  | w64 => 64

/-- The width with this many bits. -/
def ofBits? : Nat → Option Width
  | 8 => some w8
  | 16 => some w16
  | 32 => some w32
  | 64 => some w64
  | _ => none

theorem bits_pos : ∀ w : Width, 0 < w.bits
  | w8 => by decide
  | w16 => by decide
  | w32 => by decide
  | w64 => by decide

end Width

abbrev Word (w : Width) : Type := BitVec w.bits

def Word.ones {w : Width} (word : Word w) : Nat := word.cpop.toNat

/-- A change of the bits that a mask selects. -/
inductive BitOp where
  | set
  | clear
  | flip
  deriving DecidableEq, Hashable, Repr

namespace BitOp

/-- The word after the change; bits outside `mask` keep their value. -/
def apply {n : Nat} (op : BitOp) (word mask : BitVec n) : BitVec n :=
  match op with
  | set => word ||| mask
  | clear => word &&& ~~~mask
  | flip => word ^^^ mask

/-- The name of the change, as written in commands and reports. -/
def name : BitOp → String
  | set => "set"
  | clear => "clear"
  | flip => "flip"

/-- What the change makes of one selected bit. -/
def onBit : BitOp → Bool → Bool
  | set, _ => true
  | clear, _ => false
  | flip, b => !b

/-- Bit by bit: a selected bit changes as `onBit` says, any other stays. -/
theorem getLsbD_apply {n : Nat} (op : BitOp) (word mask : BitVec n) (j : Nat) :
    (op.apply word mask).getLsbD j
      = if mask.getLsbD j then op.onBit (word.getLsbD j) else word.getLsbD j := by
  by_cases hj : j < n
  · simp only [BitVec.getLsbD_eq_getElem hj]
    cases op <;> cases hm : mask[j] <;> simp [apply, onBit, hm]
  · have hm : mask.getLsbD j = false := BitVec.getLsbD_of_ge mask j (by omega)
    have hw : (op.apply word mask).getLsbD j = word.getLsbD j := by
      rw [BitVec.getLsbD_of_ge _ j (by omega), BitVec.getLsbD_of_ge _ j (by omega)]
    rw [hw, hm]
    rfl

end BitOp

end SharedBits
