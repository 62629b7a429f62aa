import SharedBits.Word
import SharedBits.Error

/-!
# Where a bit lives

Bit `i` of a bitset is bit `i % bits` of word `i / bits`. `locate_eq_iff` and `index_locate` say
that nothing is addressed twice and nothing is left out; `wordsFor` is the number of words needed.
-/

namespace SharedBits

/-- The place of one bit in packed words. -/
structure Address where
  /-- Which word holds the bit. -/
  word : Nat
  /-- Position of the bit in that word. -/
  offset : Nat
  deriving DecidableEq, Repr

namespace Address

/-- The place of bit `index`. -/
def locate (w : Width) (index : Nat) : Address := ⟨index / w.bits, index % w.bits⟩

/-- The bit that lives at an address. -/
def index (w : Width) (a : Address) : Nat := a.word * w.bits + a.offset

/-- The mask that selects this bit within its word. -/
def mask (w : Width) (a : Address) : Word w := 1#w.bits <<< a.offset

/-- Whether this bit is set in `word`. -/
def bitIn {w : Width} (a : Address) (word : Word w) : Bool := word &&& a.mask w != 0

theorem offset_lt (w : Width) (i : Nat) : (locate w i).offset < w.bits :=
  Nat.mod_lt _ w.bits_pos

theorem index_locate (w : Width) (i : Nat) : (locate w i).index w = i := by
  simp only [index, locate]
  rw [Nat.mul_comm]
  exact Nat.div_add_mod i w.bits

theorem locate_eq_iff {w : Width} {i j : Nat} : locate w i = locate w j ↔ i = j := by
  refine ⟨fun h => ?_, fun h => h ▸ rfl⟩
  rw [← index_locate w i, ← index_locate w j, h]

theorem getLsbD_mask (w : Width) (a : Address) (j : Nat) :
    (a.mask w).getLsbD j = (decide (j < w.bits) && decide (j = a.offset)) := by
  have hw := w.bits_pos
  simp only [mask, BitVec.getLsbD_shiftLeft, BitVec.getLsbD_one]
  rcases Nat.lt_trichotomy j a.offset with h | h | h
  · simp [h, Nat.ne_of_lt h]
  · simp [h, hw]
  · have h₀ : j - a.offset ≠ 0 := by omega
    simp [h₀, Nat.ne_of_gt h, Nat.not_lt_of_gt h]

end Address

/-- Number of words that hold `capacity` bits: the quotient rounded up. -/
def wordsFor (w : Width) (capacity : Nat) : Nat :=
  capacity / w.bits + if capacity % w.bits = 0 then 0 else 1

/-- A bitset holds at least one bit. -/
def requireCapacity (capacity : Nat) : Except Error Unit :=
  if capacity = 0 then .error .invalidCapacity else .ok ()

/-- The largest index that a refusal can name. -/
def maxIndex : Nat := Nat.pow 2 63 - 1

/-- An index addresses a bit when it is below the capacity. -/
def requireIndex (index capacity : Nat) : Except Error Unit :=
  if index < capacity then .ok ()
  else .error (.indexOutOfRange (min index maxIndex) capacity)

/-- The index that a signed number stands for. A negative one addresses nothing; `capacity` only
fills in the refusal, and the upper bound is left to the bitset. -/
def signedIndex (index : Int) (capacity : Nat) : Except Error Nat :=
  if index < 0 then .error (.indexOutOfRange index capacity) else .ok index.toNat

theorem requireIndex_eq_ok_iff {index capacity : Nat} :
    requireIndex index capacity = .ok () ↔ index < capacity := by
  unfold requireIndex
  split <;> simp_all

theorem word_lt_wordsFor (w : Width) {i capacity : Nat} (h : i < capacity) :
    (Address.locate w i).word < wordsFor w capacity := by
  have hw := w.bits_pos
  have h₁ := Nat.div_add_mod i w.bits
  have h₂ := Nat.div_add_mod capacity w.bits
  have h₃ := Nat.mod_lt i hw
  have hle : i / w.bits ≤ capacity / w.bits := Nat.div_le_div_right (Nat.le_of_lt h)
  simp only [Address.locate, wordsFor]
  split
  · rename_i hm
    rcases Nat.lt_or_ge (i / w.bits) (capacity / w.bits) with hlt | hge
    · omega
    · have heq : i / w.bits = capacity / w.bits := Nat.le_antisymm hle hge
      rw [heq] at h₁
      omega
  · omega

end SharedBits
