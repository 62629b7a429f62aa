import Mathlib.Algebra.Order.BigOperators.Group.Finset
import SharedBits.Proofs.Panics
import SharedBits.Proofs.Rest

/-!
# Two ways of counting

A strategy may count word by word, padding and all, or bit by bit. On words that hold plain bits the
two agree (`Fragile.countsAlike`): the padding of the last word is zero, and since every word holds a
bit that some index addresses, a poisoned lock that stops one way stops the other. Both hold in every
state that calls leave behind, made one after another or at the same time
(`count_agrees_with_countBits`).
-/

namespace SharedBits

variable {w : Width}

/-- The bits at and beyond `capacity` are zero. -/
def IsPadded (cells : Cells w) (capacity : Nat) : Prop :=
  ∀ k v j, cells.load? k = some v → capacity ≤ k * w.bits + j → v.getLsbD j = false

/-- Counting word by word and counting bit by bit are the same on this bitset. -/
structure CountsAlike (b : BitSet w) : Prop where
  padded : IsPadded b.store.cells b.capacity
  /-- Both ways end alike, and leave the bitset alike. -/
  alike : b.run none (b.strategy.count w b.capacity) = b.run none (b.strategy.countBits w b.capacity)
  /-- They fail when a lock is poisoned. -/
  refused : (b.run none (b.strategy.count w b.capacity)).1 = .returned (.error .lockPoisoned)
    ↔ ∃ (l : Nat) (lock : Lock), b.store.locks[l]? = some lock ∧ lock.poisoned = true
  /-- They succeed otherwise, and count what there is. -/
  counted : (∀ (l : Nat) (lock : Lock), b.store.locks[l]? = some lock → lock.poisoned = false) →
    (b.run none (b.strategy.count w b.capacity)).1
      = .returned (.ok (∑ k ∈ Finset.range b.words, (b.store.cells.load? k).elim 0 Word.ones))
  /-- The count stays within the capacity at each of its words. -/
  bounded : ∀ n, ∑ k ∈ Finset.range n, (b.store.cells.load? k).elim 0 Word.ones ≤ b.capacity

/-! ## Words and bits -/

theorem mul_bits_lt {k n : Nat} (h : k < wordsFor w n) : k * w.bits < n := by
  have hw := w.bits_pos
  have hdiv := Nat.div_add_mod n w.bits
  have hle : k ≤ n / w.bits := by
    unfold wordsFor at h
    split at h <;> omega
  have hmul := Nat.mul_le_mul_right w.bits hle
  rw [Nat.mul_comm (n / w.bits)] at hmul
  rcases Nat.eq_or_lt_of_le hle with rfl | hlt
  · have hmod : n % w.bits ≠ 0 := by
      intro hmod
      simp [wordsFor, hmod] at h
    omega
  · have := Nat.mul_lt_mul_of_pos_right hlt hw
    rw [Nat.mul_comm (n / w.bits)] at this
    omega

namespace Plain

theorem isPadded_packed (p : Plain) : IsPadded (p.packed w) p.capacity := by
  intro k v j hv hj
  have hk : k < wordsFor w p.capacity := by
    by_contra hk
    rw [Cells.load?_eq_none.2 (by simpa using hk)] at hv
    cases hv
  rw [load?_packed p hk] at hv
  cases hv
  rw [getLsbD_word, bit_of_ge hj, Bool.and_false]

theorem ones_le_capacity (p : Plain) : p.ones ≤ p.capacity := List.count_le_length

theorem elim_load?_packed (p : Plain) (k : Nat) :
    ((p.packed w).load? k).elim 0 Word.ones
      = if k < wordsFor w p.capacity then (p.word w k).ones else 0 := by
  split
  · rename_i hk
    rw [load?_packed p hk]
    rfl
  · rename_i hk
    rw [Cells.load?_eq_none.2 (by simpa using hk)]
    rfl

theorem sum_load?_packed (p : Plain) :
    ∑ k ∈ Finset.range (p.packed w).size, ((p.packed w).load? k).elim 0 Word.ones = p.ones := by
  rw [size_packed, ← sum_ones_word (w := w)]
  refine Finset.sum_congr rfl fun k hk => ?_
  rw [elim_load?_packed, if_pos (Finset.mem_range.1 hk)]

theorem sum_load?_packed_le (p : Plain) (n : Nat) :
    ∑ k ∈ Finset.range n, ((p.packed w).load? k).elim 0 Word.ones ≤ p.capacity := by
  refine le_trans ?_ p.ones_le_capacity
  rw [← sum_load?_packed (w := w), size_packed]
  refine Finset.sum_le_sum_of_ne_zero fun k _ hne => Finset.mem_range.2 ?_
  by_contra hk
  exact hne (by rw [elim_load?_packed, if_neg hk])

end Plain

theorem mem_map_div {n k : Nat} :
    k ∈ (List.range n).map (fun i => i / w.bits) ↔ k < wordsFor w n := by
  rw [List.mem_map]
  constructor
  · rintro ⟨i, hi, rfl⟩
    exact word_lt_wordsFor w (List.mem_range.1 hi)
  · intro hk
    exact ⟨k * w.bits, List.mem_range.2 (mul_bits_lt hk), Nat.mul_div_cancel k w.bits_pos⟩

namespace Strategy

variable {s : Strategy}

theorem mem_countedWords {n k : Nat} : k ∈ s.countedWords w n ↔ k < wordsFor w n := by
  unfold countedWords
  split
  · exact mem_map_div
  · exact List.mem_range

/-- Every lock guards a word, and every word is guarded by a lock that exists. -/
theorem lt_locksFor_iff {n l : Nat} (hn : 0 < n) :
    l < s.locksFor n ↔ ∃ k < n, s.lockOfWord k = some l := by
  unfold locksFor lockOfWord
  rcases s.discipline with ⟨_ | _, reading⟩ | _ | _
  · simp only [Span.lockOf, Option.some.injEq]
    constructor
    · intro hl
      exact ⟨0, hn, by omega⟩
    · rintro ⟨k, hk, rfl⟩
      omega
  · simp [Span.lockOf]
  · simp
  · simp

end Strategy

/-! ## Counts of a bitset -/

namespace Fragile

variable {f : Fragile} {s : Strategy}

theorem stopsCount_none_eq_none_iff :
    ∀ ks : List Nat, f.stopsCount s none ks = none ↔ ∀ k ∈ ks, f.isPoisoned s k = false
  | [] => by simp [stopsCount]
  | k :: ks => by
    have ih := stopsCount_none_eq_none_iff ks
    cases hp : f.isPoisoned s k <;> simp [stopsCount, burn, hp, ih]

/-- How a count ends that nothing makes panic. -/
theorem run_of_counts {program : Prog w (Except Error Nat)} {ks : List Nat} {ones : Nat}
    (h : Counts f s program ks ones none) : (f.bitSet s w).run none program
      = (.returned (if ∀ k ∈ ks, f.isPoisoned s k = false then .ok ones else .error .lockPoisoned),
        f.bitSet s w) := by
  obtain ⟨left, hrun⟩ := h
  have hstop := stopsCount_none_eq_none_iff (f := f) (s := s) ks
  simp only [bitSet, BitSet.run]
  rw [show ({ store := f.store s w, fuse := none } : Prog.Alone w) = f.alone s w none from rfl, hrun]
  rcases hks : f.stopsCount s none ks with _ | ⟨k, _ | _⟩
  · rw [if_pos (hstop.1 hks)]
    rfl
  · rw [if_neg fun hall => by simp [hstop.2 hall] at hks]
    rfl
  · exact absurd hks (stopsCount_none_ne f s k ks)

theorem poisoned_lock_iff (hc : 0 < f.plain.capacity) :
    (∃ (l : Nat) (lock : Lock), (f.store s w).locks[l]? = some lock ∧ lock.poisoned = true)
      ↔ ∃ k < wordsFor w f.plain.capacity, f.isPoisoned s k = true := by
  have hn : 0 < wordsFor w f.plain.capacity := wordsFor_pos hc
  simp only [getElem?_locks, isPoisoned, Option.any_eq_true]
  constructor
  · rintro ⟨l, lock, hl, hp⟩
    split at hl
    · rename_i hlt
      cases hl
      obtain ⟨k, hk, hlock⟩ := (Strategy.lt_locksFor_iff hn).1 hlt
      exact ⟨k, hk, l, hlock, hp⟩
    · cases hl
  · rintro ⟨k, hk, l, hlock, hp⟩
    have hlt : l < s.locksFor (wordsFor w f.plain.capacity) :=
      (Strategy.lt_locksFor_iff hn).2 ⟨k, hk, hlock⟩
    exact ⟨l, _, if_pos hlt, hp⟩

/-- Whatever the bits, and whichever locks are poisoned, both ways of counting agree. -/
theorem countsAlike (hc : 0 < f.plain.capacity) : CountsAlike (f.bitSet s w) := by
  have hcount := run_of_counts (counts_count (s := s) (w := w) hc none)
  have hbits := run_of_counts (counts_countBits (f := f) (s := s) (w := w) none)
  simp only [Strategy.mem_countedWords] at hcount
  simp only [mem_map_div] at hbits
  have hpoisoned := poisoned_lock_iff (w := w) (s := s) hc
  refine ⟨f.plain.isPadded_packed, hcount.trans hbits.symm, ?_, fun hnone => ?_,
    f.plain.sum_load?_packed_le⟩
  · simp only [bitSet] at hcount ⊢
    rw [hcount, hpoisoned]
    split <;> simp_all
  · have hall : ∀ k < wordsFor w f.plain.capacity, f.isPoisoned s k = false := by
      intro k hk
      by_contra hp
      obtain ⟨l, lock, hl, hlock⟩ := hpoisoned.2 ⟨k, hk, by simpa using hp⟩
      simp [hnone l lock hl] at hlock
    rw [if_pos hall] at hcount
    simp only [bitSet] at hcount ⊢
    rw [hcount]
    exact congrArg (Ending.returned ∘ Except.ok) f.plain.sum_load?_packed.symm

end Fragile

/-- Counting word by word is counting bit by bit, on a bitset of any strategy that any calls have left,
with some of them panicked; and if the strategy loses no update, also where threads have made their
calls at the same time. The padding is zero at every moment of their run. -/
theorem count_agrees_with_countBits (s : Strategy) (w : Width) {capacity : Nat} (hc : 0 < capacity) :
    ∃ b, BitSet.create s w capacity = .ok b
      ∧ (∀ turns, CountsAlike (b.actAll turns).2)
      ∧ (s.isSynchronized = true → ∀ stops calls labels (m : Machine w Call Reply),
        Run (b.callers stops) (.start b.store calls) labels m →
          IsPadded m.store.cells capacity ∧ (m.IsResting → CountsAlike (b.after m))) := by
  have hcap : 0 < (Fragile.fresh capacity).plain.capacity := by simpa [Fragile.fresh] using hc
  refine ⟨_, Fragile.create_eq hc s w, fun turns => ?_, fun hs stops calls labels m h => ⟨?_, fun hrest => ?_⟩⟩
  · rw [Fragile.actAll_bitSet turns hcap]
    exact Fragile.countsAlike (by rwa [Fragile.capacity_actAll])
  · have hpadded := ((Fragile.fresh capacity).plain.after labels).isPadded_packed (w := w)
    rw [(h.recorded_bitSet hs).2.cells]
    simpa [Fragile.fresh] using hpadded
  · rw [h.rests hs hrest]
    exact Fragile.countsAlike (by rwa [Plain.capacity_after])

/-- Ten bits in bytes. A lone caller sets the last bit, which both ways count. Of two threads the first
then panics in the other word while the second waits for its lock; both ways now fail. -/
theorem count_agrees_ten : 0 < 10 ∧ ∃ (b : BitSet .w8) (labels : List (Label .w8 Call Reply))
    (m : Machine .w8 Call Reply), BitSet.create .stripedRwLock .w8 10 = .ok b
      ∧ CountsAlike (b.actAll [(none, .call (.update .set 9))]).2
      ∧ ((b.actAll [(none, .call (.update .set 9))]).2.perform .count).1 = .returned (.ok (.count 1))
      ∧ Run (b.callers fun _ => false)
        (.start b.store [[.update .set 9, .update .flip 3], [.update .set 1]]) labels m
      ∧ IsPadded m.store.cells 10 ∧ m.IsResting ∧ CountsAlike (b.after m)
      ∧ ((b.after m).perform .count).1 = .returned (.error .lockPoisoned) := by
  obtain ⟨b, hb, hcalls, hruns⟩ :=
    count_agrees_with_countBits .stripedRwLock .w8 (by decide : 0 < 10)
  cases hb
  obtain ⟨⟨labels, m⟩, hf, hdone, hcount⟩ : ∃ r : List (Label .w8 Call Reply) × Machine .w8 Call Reply,
      (BitSet.callers ⟨.stripedRwLock, 10, .fresh 2 2⟩ fun _ => false).follow
          (.start (.fresh 2 2) [[.update .set 9, .update .flip 3], [.update .set 1]])
          [⟨0, .none⟩, ⟨0, .none⟩, ⟨0, .none⟩, ⟨0, .none⟩, ⟨0, .none⟩, ⟨0, .none⟩, ⟨0, .none⟩,
            ⟨0, .none⟩, ⟨0, .none⟩, ⟨1, .none⟩, ⟨0, .none⟩, ⟨0, .panic⟩, ⟨1, .none⟩, ⟨1, .none⟩,
            ⟨1, .none⟩] = some r
        ∧ r.2.isDone = true
        ∧ ((BitSet.after ⟨.stripedRwLock, 10, .fresh 2 2⟩ r.2).perform .count).1
          = .returned (.error .lockPoisoned) :=
    ⟨_, rfl, rfl, rfl⟩
  have hrun := Run.of_follow .start hf
  have hrest := Machine.isResting_of_isDone hdone
  obtain ⟨hpadded, halike⟩ := hruns rfl (fun _ => false) _ labels m hrun
  exact ⟨by decide, _, labels, m, rfl, hcalls _, rfl, hrun, hpadded, hrest, halike hrest, hcount⟩

end SharedBits
