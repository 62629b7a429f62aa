import Mathlib.Algebra.BigOperators.Intervals
import SharedBits.Cell
import SharedBits.Plain

/-!
# The plain bits, packed into words

`Plain.packed` is the row of words that holds a list of bits and nothing else: the bits of the last
word that no index addresses are zero. A change of one bit of the list is a change of one word of the
row (`packed_update`), a bit of a word is the bit that its address stands for (`bitIn_word`), and the
set bits of the words add up to those of the list (`sum_ones_word`).
-/

namespace SharedBits

namespace Plain

/-- Bit `i`, clear where there is none. -/
def bit (p : Plain) (i : Nat) : Bool := p.bits.getD i false

/-- The bits `start`, `start + 1`, …, `n` of them, the first of them lowest. -/
def bitsFrom (p : Plain) (start : Nat) : (n : Nat) → BitVec n
  | 0 => 0#0
  | n + 1 => BitVec.cons (p.bit (start + n)) (bitsFrom p start n)

/-- The bits of word `k`. -/
def word (p : Plain) (w : Width) (k : Nat) : Word w := p.bitsFrom (k * w.bits) w.bits

/-- The words that hold the bits. -/
def packed (p : Plain) (w : Width) : Cells w :=
  ⟨Array.ofFn fun k : Fin (wordsFor w p.capacity) => p.word w k⟩

@[simp] theorem capacity_clear (n : Nat) : (clear n).capacity = n := List.length_replicate

@[simp] theorem capacity_update (p : Plain) (op : BitOp) (i : Nat) :
    (p.update op i).capacity = p.capacity :=
  List.length_modify op.onBit p.bits i

@[simp] theorem bit_clear (n i : Nat) : (clear n).bit i = false := by
  rw [clear, bit, List.getD_eq_getElem?_getD, List.getElem?_replicate]
  split <;> rfl

theorem bit_of_ge {p : Plain} {i : Nat} (h : p.capacity ≤ i) : p.bit i = false := by
  rw [bit, List.getD_eq_getElem?_getD, List.getElem?_eq_none h, Option.getD_none]

theorem getElem?_bits {p : Plain} {i : Nat} (h : i < p.capacity) : p.bits[i]? = some (p.bit i) := by
  rw [bit, List.getD_eq_getElem?_getD, List.getElem?_eq_getElem h, Option.getD_some]

theorem bit_update (p : Plain) (op : BitOp) (i j : Nat) (h : i < p.capacity) :
    (p.update op i).bit j = if i = j then op.onBit (p.bit j) else p.bit j := by
  simp only [bit, update, List.getD_eq_getElem?_getD, List.getElem?_modify]
  by_cases hij : i = j
  · subst hij
    rw [List.getElem?_eq_getElem h]
    simp
  · simp [hij]

theorem update_of_ge {p : Plain} {op : BitOp} {i : Nat} (hi : p.capacity ≤ i) :
    p.update op i = p := by
  rw [update, List.modify_eq_self hi]

/-! ## Words -/

variable {w : Width}

theorem getLsbD_bitsFrom (p : Plain) (start j : Nat) :
    ∀ n : Nat, (p.bitsFrom start n).getLsbD j = (decide (j < n) && p.bit (start + j))
  | 0 => by simp
  | n + 1 => by
    rw [bitsFrom, BitVec.getLsbD_cons, getLsbD_bitsFrom p start j n]
    by_cases h : j = n
    · simp [h]
    · rw [if_neg h, show decide (j < n + 1) = decide (j < n) from decide_eq_decide.2 (by omega)]

theorem getLsbD_word (p : Plain) (k j : Nat) :
    (p.word w k).getLsbD j = (decide (j < w.bits) && p.bit (k * w.bits + j)) :=
  getLsbD_bitsFrom p (k * w.bits) j w.bits

theorem word_clear (n k : Nat) : (clear n).word w k = 0 := by
  refine BitVec.eq_of_getLsbD_eq fun j hj => ?_
  rw [getLsbD_word, bit_clear]
  simp

/-- Bit `j` of word `k` is bit `i` of the list exactly when `i` lives there. -/
theorem index_eq_iff {i k j : Nat} (hj : j < w.bits) :
    i = k * w.bits + j ↔ i / w.bits = k ∧ i % w.bits = j := by
  constructor
  · rintro rfl
    rw [Nat.add_comm, Nat.add_mul_div_right _ _ w.bits_pos, Nat.add_mul_mod_self_right,
      Nat.div_eq_of_lt hj, Nat.mod_eq_of_lt hj]
    omega
  · rintro ⟨rfl, rfl⟩
    rw [Nat.mul_comm]
    exact (Nat.div_add_mod i w.bits).symm

/-- A change of one bit changes the word in which it lives by its mask, and no other word. -/
theorem word_update (p : Plain) (op : BitOp) {i : Nat} (h : i < p.capacity) (k : Nat) :
    (p.update op i).word w k
      = if (Address.locate w i).word = k
        then op.apply (p.word w k) ((Address.locate w i).mask w) else p.word w k := by
  refine BitVec.eq_of_getLsbD_eq fun j hj => ?_
  have hi := index_eq_iff (i := i) (k := k) hj
  rw [getLsbD_word, bit_update p op i _ h]
  by_cases hk : i / w.bits = k
  · simp only [Address.locate, hk, if_true, BitOp.getLsbD_apply, Address.getLsbD_mask, getLsbD_word,
      hj, decide_true, Bool.true_and, decide_eq_true_eq]
    simp only [hk, true_and] at hi
    by_cases hij : i % w.bits = j
    · rw [if_pos (hi.2 hij), if_pos hij.symm]
    · rw [if_neg (fun h => hij (hi.1 h)), if_neg (Ne.symm hij)]
  · simp only [Address.locate, hk, if_false, getLsbD_word]
    rw [if_neg (fun h => hk (hi.1 h).1)]

theorem bitIn_iff (a : Address) (h : a.offset < w.bits) (v : Word w) :
    a.bitIn v = v.getLsbD a.offset := by
  unfold Address.bitIn
  cases hv : v.getLsbD a.offset with
  | true =>
    have : v &&& a.mask w ≠ 0 := by
      intro h0
      have hb : (v &&& a.mask w).getLsbD a.offset = false := by
        rw [h0]
        exact BitVec.getLsbD_zero
      rw [BitVec.getLsbD_and, Address.getLsbD_mask, hv] at hb
      simp [h] at hb
    simpa using this
  | false =>
    have : v &&& a.mask w = 0 := by
      refine BitVec.eq_of_getLsbD_eq fun j _ => ?_
      by_cases hj : j = a.offset
      · simp [hj, hv]
      · simp [Address.getLsbD_mask, hj]
    simp [this]

/-- Reading a bit out of its word. -/
theorem bitIn_word (p : Plain) (i : Nat) :
    (Address.locate w i).bitIn (p.word w (Address.locate w i).word) = p.bit i := by
  rw [bitIn_iff _ (Address.offset_lt w i), getLsbD_word]
  simp only [Address.offset_lt, decide_true, Bool.true_and]
  exact congrArg p.bit (Address.index_locate w i)

/-! ## Rows of words -/

@[simp] theorem size_packed (p : Plain) : (p.packed w).size = wordsFor w p.capacity :=
  Array.size_ofFn

theorem load?_packed (p : Plain) {k : Nat} (h : k < wordsFor w p.capacity) :
    (p.packed w).load? k = some (p.word w k) := by
  simp [packed, Cells.load?, h]

/-- The word of a bit that is in range. -/
theorem load?_locate (p : Plain) {i : Nat} (h : i < p.capacity) :
    (p.packed w).load? (Address.locate w i).word = some (p.word w (Address.locate w i).word) :=
  load?_packed p (word_lt_wordsFor w h)

/-- A bit of the word that is loaded for it. -/
theorem bitIn_of_load? {p : Plain} {i : Nat} (hi : i < p.capacity) {v : Word w}
    (hv : (p.packed w).load? (Address.locate w i).word = some v) :
    (Address.locate w i).bitIn v = p.bit i := by
  obtain rfl := Option.some.inj ((p.load?_locate hi).symm.trans hv)
  exact p.bitIn_word i

theorem packed_clear (n : Nat) : (clear n).packed w = Cells.zeros (wordsFor w n) := by
  simp only [packed, Cells.zeros, word_clear]
  refine congrArg Cells.mk (Array.ext (by simp) fun i _ _ => ?_)
  simp

end Plain

theorem Cells.ext_load? {w : Width} {a b : Cells w} (h : ∀ k, a.load? k = b.load? k) : a = b := by
  cases a
  cases b
  exact congrArg Cells.mk (Array.ext_getElem? h)

namespace Plain

variable {w : Width}

/-- A change of one bit is a change of the word that holds it. -/
theorem packed_update (p : Plain) (op : BitOp) {i : Nat} (h : i < p.capacity) :
    (p.update op i).packed w
      = (p.packed w).store (Address.locate w i).word
          (op.apply (p.word w (Address.locate w i).word) ((Address.locate w i).mask w)) := by
  refine Cells.ext_load? fun k => ?_
  rw [Cells.load?_store, size_packed]
  by_cases hk : k < wordsFor w p.capacity
  · rw [load?_packed _ (by simpa using hk), load?_packed _ hk, word_update p op h]
    by_cases hik : (Address.locate w i).word = k
    · subst hik
      simp [hk]
    · simp [hik]
  · rw [Cells.load?_eq_none.2 (by simpa using hk), if_neg (fun h => hk h.2),
      Cells.load?_eq_none.2 (by simpa using hk)]

/-! ## Counting -/

theorem ones_eq_sum (p : Plain) : p.ones = ∑ i ∈ Finset.range p.capacity, (p.bit i).toNat := by
  obtain ⟨bits⟩ := p
  simp only [ones, capacity, bit]
  induction bits with
  | nil => rfl
  | cons b bits ih =>
    rw [List.count_cons, ih, List.length_cons, Finset.sum_range_succ']
    cases b <;> simp

theorem cpopNatRec_eq_sum {n : Nat} (v : BitVec n) :
    ∀ k : Nat, v.cpopNatRec k 0 = ∑ j ∈ Finset.range k, (v.getLsbD j).toNat
  | 0 => rfl
  | k + 1 => by
    rw [BitVec.cpopNatRec_succ, BitVec.cpopNatRec_eq, cpopNatRec_eq_sum v k, Finset.sum_range_succ]
    omega

theorem ones_word (p : Plain) (k : Nat) :
    (p.word w k).ones = ∑ j ∈ Finset.range w.bits, (p.bit (k * w.bits + j)).toNat := by
  rw [Word.ones, BitVec.toNat_cpop, cpopNatRec_eq_sum]
  refine Finset.sum_congr rfl fun j hj => ?_
  rw [getLsbD_word, decide_eq_true (Finset.mem_range.1 hj), Bool.true_and]

theorem sum_ones_words (p : Plain) :
    ∀ n : Nat, ∑ k ∈ Finset.range n, (p.word w k).ones
      = ∑ i ∈ Finset.range (n * w.bits), (p.bit i).toNat
  | 0 => by simp
  | n + 1 => by
    rw [Finset.sum_range_succ, sum_ones_words p n, ones_word, Nat.succ_mul, Finset.sum_range_add]

theorem capacity_le_words (w : Width) (n : Nat) : n ≤ wordsFor w n * w.bits := by
  have h := Nat.div_add_mod n w.bits
  have hm := Nat.mod_lt n w.bits_pos
  rw [wordsFor, Nat.add_mul, Nat.mul_comm (n / w.bits)]
  split <;> omega

/-- The set bits of all words are the set bits of the list: the last word has none to spare. -/
theorem sum_ones_word (p : Plain) :
    ∑ k ∈ Finset.range (wordsFor w p.capacity), (p.word w k).ones = p.ones := by
  rw [sum_ones_words, ones_eq_sum]
  refine (Finset.sum_subset (Finset.range_mono (capacity_le_words w p.capacity)) ?_).symm
  intro i _ hi
  rw [bit_of_ge (by simpa using hi)]
  rfl

end Plain

end SharedBits
