import SharedBits.Proofs.Actions

/-!
# Where a lone caller panics

How many computations a step has is `Fragile.computations`: one for each bit that is in range and whose
lock is not poisoned, and for a count one for each word, or bit, before the first poisoned lock. More
of them than the fuse allows, and the step panics, with the updates before the panic made and the
others not, and with the lock poisoned that `Strategy.lockLost` names (`Fragile.act_of_lt`). No more,
and the step ends as without a fuse (`Fragile.act_of_le`).
-/

namespace SharedBits

variable {w : Width}

namespace Action

/-- The updates that an action asks for, in order. -/
def updates : Action → List (BitOp × Nat)
  | call (.update op i) => [(op, i)]
  | series us => us
  | _ => []

/-- Whether an action changes bits. -/
def isUpdate : Action → Bool
  | call (.update _ _) => true
  | series _ => true
  | _ => false

end Action

/-- The lock that a panic in the use of a word poisons. -/
def Strategy.lockLost : Strategy → (isUpdate : Bool) → (word : Nat) → Option Nat
  | fullMutex, _, _ => some 0
  | globalRwLock, true, _ => some 0
  | stripedMutex, _, word => some word
  | stripedRwLock, true, word => some word
  | _, _, _ => none

namespace Fragile

/-- Whether a bit exists and no poisoned lock keeps it back. -/
def serves (f : Fragile) (s : Strategy) (w : Width) (i : Nat) : Bool :=
  decide (i < f.plain.capacity) && !f.isPoisoned s (i / w.bits)

/-- The words that an action computes with, one computation after another, if none panics. -/
def computations (f : Fragile) (s : Strategy) (w : Width) : Action → List Nat
  | .call (.get i) => if f.serves s w i then [i / w.bits] else []
  | .call (.update _ i) => if f.serves s w i then [i / w.bits] else []
  | .call .count => (s.countedWords w f.plain.capacity).takeWhile fun k => !f.isPoisoned s k
  | .series us => (us.takeWhile fun u => f.serves s w u.2).map fun u => u.2 / w.bits

variable {f : Fragile} {s : Strategy}

theorem panic_reading (f : Fragile) (s : Strategy) (word : Nat) :
    f.panic s word s.readsAlone
      = { f with poisoned := (s.lockLost false word).toList ++ f.poisoned } := by
  cases s <;> rfl

theorem panic_update (f : Fragile) (s : Strategy) (word : Nat) :
    f.panic s word true = { f with poisoned := (s.lockLost true word).toList ++ f.poisoned } := by
  cases s <;> rfl

theorem serves_iff {i : Nat} : f.serves s w i = true
    ↔ ¬ f.plain.capacity ≤ i ∧ ¬ f.isPoisoned s (i / w.bits) = true := by
  simp [serves]

theorem get_of_serves {i : Nat} (h : f.serves s w i = true) (fuse : Option Nat) :
    f.get s w fuse i = match burn fuse with
      | none => (.panicked, f.panic s (i / w.bits) s.readsAlone)
      | some _ => (.returned (f.plain.perform (.get i)).1, f) := by
  obtain ⟨hi, hp⟩ := serves_iff.1 h
  unfold Fragile.get
  cases burn fuse <;> simp only [if_neg hi, if_neg hp]

theorem get_of_not_serves {i : Nat} (h : ¬ f.serves s w i = true) :
    ∃ e, ∀ fuse, f.get s w fuse i = (.returned (.error e), f) := by
  simp only [Fragile.get]
  split_ifs with hi hp
  · exact ⟨_, fun _ => rfl⟩
  · exact ⟨_, fun _ => rfl⟩
  · exact absurd (serves_iff.2 ⟨hi, hp⟩) h

theorem update_of_serves {i : Nat} (h : f.serves s w i = true) (fuse : Option Nat) (op : BitOp) :
    f.update s w fuse op i = match burn fuse with
      | none => (.panicked, none, f.panic s (i / w.bits) true)
      | some fuse' => (.returned (.ok .done), fuse', { f with plain := f.plain.update op i }) := by
  obtain ⟨hi, hp⟩ := serves_iff.1 h
  unfold Fragile.update
  cases burn fuse <;> simp only [if_neg hi, if_neg hp]

theorem update_of_not_serves {i : Nat} (h : ¬ f.serves s w i = true) (op : BitOp) :
    ∃ e, ∀ fuse, f.update s w fuse op i = (.returned (.error e), fuse, f) := by
  simp only [Fragile.update]
  split_ifs with hi hp
  · exact ⟨_, fun _ => rfl⟩
  · exact ⟨_, fun _ => rfl⟩
  · exact absurd (serves_iff.2 ⟨hi, hp⟩) h

/-- A change of bits keeps back no bit and frees none. -/
theorem serves_update (f : Fragile) (s : Strategy) (w : Width) (op : BitOp) (i : Nat) :
    ({ f with plain := f.plain.update op i } : Fragile).serves s w = f.serves s w := by
  funext j
  rw [serves, serves, Plain.capacity_update]
  rfl

theorem stopsCount_of_lt (f : Fragile) (s : Strategy) :
    ∀ (ks : List Nat) (k : Nat) (h : k < (ks.takeWhile fun j => !f.isPoisoned s j).length),
      f.stopsCount s (some k) ks = some ((ks.takeWhile fun j => !f.isPoisoned s j)[k], true)
  | [], _, h => by simp at h
  | j :: ks, k, h => by
    cases hp : f.isPoisoned s j with
    | true => simp [hp] at h
    | false =>
      simp only [List.takeWhile_cons, hp, Bool.not_false, if_true, List.length_cons] at h ⊢
      cases k with
      | zero => simp [stopsCount, hp, burn]
      | succ k =>
        have ih := stopsCount_of_lt f s ks k (by omega)
        simp [stopsCount, hp, burn, ih]

theorem stopsCount_of_le (f : Fragile) (s : Strategy) :
    ∀ (ks : List Nat) (k : Nat), (ks.takeWhile fun j => !f.isPoisoned s j).length ≤ k →
      f.stopsCount s (some k) ks = f.stopsCount s none ks
  | [], _, _ => rfl
  | j :: ks, k, h => by
    cases hp : f.isPoisoned s j with
    | true => simp [stopsCount, hp]
    | false =>
      simp only [List.takeWhile_cons, hp, Bool.not_false, if_true, List.length_cons] at h
      cases k with
      | zero => omega
      | succ k => simp [stopsCount, hp, burn, stopsCount_of_le f s ks k (by omega)]

theorem stopsCount_none_ne (f : Fragile) (s : Strategy) (j : Nat) :
    ∀ ks : List Nat, f.stopsCount s none ks ≠ some (j, true)
  | [] => by simp [stopsCount]
  | i :: ks => by
    have ih := stopsCount_none_ne f s j ks
    cases hp : f.isPoisoned s i <;> simp [stopsCount, hp, burn, ih]

theorem series_of_lt (s : Strategy) (w : Width) :
    ∀ (us : List (BitOp × Nat)) (f : Fragile) (k : Nat)
      (h : k < (us.takeWhile fun u => f.serves s w u.2).length),
      f.series s w (some k) us = (.panicked,
        { plain := f.plain.updateAll (us.take k)
          poisoned := (s.lockLost true ((us.takeWhile fun u => f.serves s w u.2)[k].2 / w.bits)).toList
            ++ f.poisoned })
  | [], _, _, h => by simp at h
  | (op, i) :: us, f, k, h => by
    by_cases hs : f.serves s w i = true
    · simp only [List.takeWhile_cons, hs, if_true, List.length_cons] at h ⊢
      rw [series, update_of_serves hs]
      cases k with
      | zero => simp [burn, panic_update, Plain.updateAll]
      | succ k =>
        have ih := series_of_lt s w us { f with plain := f.plain.update op i } k
          (by rw [serves_update]; omega)
        simp only [serves_update] at ih
        simp [burn, ih, Plain.updateAll]
    · simp [hs] at h

theorem series_of_le (s : Strategy) (w : Width) :
    ∀ (us : List (BitOp × Nat)) (f : Fragile) (k : Nat),
      (us.takeWhile fun u => f.serves s w u.2).length ≤ k →
      f.series s w (some k) us = f.series s w none us
  | [], _, _, _ => rfl
  | (op, i) :: us, f, k, h => by
    by_cases hs : f.serves s w i = true
    · simp only [List.takeWhile_cons, hs, if_true, List.length_cons] at h
      simp only [series, update_of_serves hs]
      cases k with
      | zero => omega
      | succ k =>
        have ih := series_of_le s w us { f with plain := f.plain.update op i } k
          (by rw [serves_update]; omega)
        simpa [burn] using ih
    · obtain ⟨e, he⟩ := update_of_not_serves hs op
      simp only [series, he]

/-- Without a fuse, updates neither panic nor poison a lock. -/
theorem series_none (s : Strategy) (w : Width) :
    ∀ (us : List (BitOp × Nat)) (f : Fragile), (f.series s w none us).1 ≠ .panicked
      ∧ (f.series s w none us).2.poisoned = f.poisoned
  | [], _ => ⟨by simp [series], rfl⟩
  | (op, i) :: us, f => by
    by_cases hs : f.serves s w i = true
    · have ih := series_none s w us { f with plain := f.plain.update op i }
      simpa only [series, update_of_serves hs, burn] using ih
    · obtain ⟨e, he⟩ := update_of_not_serves hs op
      simp [series, he]

/-- A fuse shorter than the computations of a step: the computation at its end panics. -/
theorem act_of_lt (f : Fragile) (s : Strategy) (w : Width) {k : Nat} :
    ∀ (action : Action) (h : k < (f.computations s w action).length),
      f.act s w (some k) action = (.panicked,
        { plain := f.plain.updateAll (action.updates.take k)
          poisoned := (s.lockLost action.isUpdate (f.computations s w action)[k]).toList
            ++ f.poisoned })
  | .call (.get i), h => by
    by_cases hs : f.serves s w i = true
    · simp only [computations, hs, if_true, List.length_singleton] at h ⊢
      obtain rfl : k = 0 := by omega
      rw [act, performStep, get_of_serves hs]
      exact congrArg (Prod.mk _) (panic_reading f s _)
    · simp [computations, hs] at h
  | .call (.update op i), h => by
    by_cases hs : f.serves s w i = true
    · simp only [computations, hs, if_true, List.length_singleton] at h ⊢
      obtain rfl : k = 0 := by omega
      simp only [act, performStep, update_of_serves hs]
      exact congrArg (Prod.mk _) (panic_update f s _)
    · simp [computations, hs] at h
  | .call .count, h => by
    have hu : (Action.call .count).updates.take k = [] := List.take_nil
    simp only [act, performStep, Fragile.count, stopsCount_of_lt f s _ k h, hu]
    exact congrArg (Prod.mk _) (panic_reading f s _)
  | .series us, h => by
    simp only [computations, List.length_map] at h
    simp only [act, series_of_lt s w us f k h, computations, List.getElem_map]
    rfl

/-- A fuse that outlasts the computations of a step does nothing. -/
theorem act_of_le (f : Fragile) (s : Strategy) (w : Width) {k : Nat} :
    ∀ action : Action, (f.computations s w action).length ≤ k →
      f.act s w (some k) action = f.act s w none action
  | .call (.get i), h => by
    by_cases hs : f.serves s w i = true
    · simp only [computations, hs, if_true, List.length_singleton] at h
      obtain ⟨n, rfl⟩ := Nat.exists_eq_add_of_le h
      simp only [act, performStep, get_of_serves hs, Nat.add_comm 1 n, burn]
    · obtain ⟨e, he⟩ := get_of_not_serves hs
      simp only [act, performStep, he]
  | .call (.update op i), h => by
    by_cases hs : f.serves s w i = true
    · simp only [computations, hs, if_true, List.length_singleton] at h
      obtain ⟨n, rfl⟩ := Nat.exists_eq_add_of_le h
      simp only [act, performStep, update_of_serves hs, Nat.add_comm 1 n, burn]
    · obtain ⟨e, he⟩ := update_of_not_serves hs op
      simp only [act, performStep, he]
  | .call .count, h => by
    simp only [act, performStep, Fragile.count, stopsCount_of_le f s _ k h]
  | .series us, h => by
    rw [computations, List.length_map] at h
    exact series_of_le s w us f k h

/-- Without a fuse, a step neither panics nor poisons a lock. -/
theorem act_none (f : Fragile) (s : Strategy) (w : Width) :
    ∀ action : Action, (f.act s w none action).1 ≠ .panicked
      ∧ (f.act s w none action).2.poisoned = f.poisoned
  | .call (.get i) => by
    by_cases hs : f.serves s w i = true
    · simp [act, performStep, get_of_serves hs, burn]
    · obtain ⟨e, he⟩ := get_of_not_serves hs
      simp [act, performStep, he]
  | .call (.update op i) => by
    by_cases hs : f.serves s w i = true
    · simp [act, performStep, update_of_serves hs, burn]
    · obtain ⟨e, he⟩ := update_of_not_serves hs op
      simp [act, performStep, he]
  | .call .count => by
    have hn := fun j => stopsCount_none_ne f s j (s.countedWords w f.plain.capacity)
    simp only [act, performStep, Fragile.count]
    split
    · simp
    · simp
    · rename_i h
      exact absurd h (hn _)
  | .series us => series_none s w us f

end Fragile

/-! ## Panics of the bitset -/

/-- Steps of a new bitset, each under its own fuse, end as those of the plain bits and poisoned locks,
and leave the words and locks that these stand for. In the state they have reached, a step panics
exactly if its fuse is less than the number of its computations. The panic leaves the updates before
it made and no other, and poisons the lock that the strategy loses. Any other fuse does nothing, and
a step without a panic poisons nothing. -/
theorem armed_steps_follow_fragile (s : Strategy) (w : Width) {capacity : Nat} (hc : 0 < capacity)
    (turns : List (Option Nat × Action)) :
    ∃ b f, BitSet.create s w capacity = .ok b
      ∧ b.actAll turns = (((Fragile.fresh capacity).actAll s w turns).1, f.bitSet s w)
      ∧ ((Fragile.fresh capacity).actAll s w turns).2 = f
      ∧ (∀ fuse step, (f.bitSet s w).performStep fuse step = (f.bitSet s w).act fuse step.action
        ∧ f.performStep s w fuse step = f.act s w fuse step.action)
      ∧ ∀ action, ((f.bitSet s w).act none action).1 ≠ .panicked
        ∧ (f.act s w none action).2.poisoned = f.poisoned
        ∧ (∀ k, ((f.bitSet s w).act (some k) action).1 = .panicked
            ↔ k < (f.computations s w action).length)
        ∧ (∀ k (h : k < (f.computations s w action).length),
          ((f.bitSet s w).act (some k) action).2 = Fragile.bitSet
            { plain := f.plain.updateAll (action.updates.take k)
              poisoned := (s.lockLost action.isUpdate (f.computations s w action)[k]).toList
                ++ f.poisoned } s w)
        ∧ ∀ k, (f.computations s w action).length ≤ k →
          (f.bitSet s w).act (some k) action = (f.bitSet s w).act none action := by
  have hcap : 0 < (Fragile.fresh capacity).plain.capacity := by simpa [Fragile.fresh] using hc
  have hf : 0 < ((Fragile.fresh capacity).actAll s w turns).2.plain.capacity := by
    rwa [Fragile.capacity_actAll]
  refine ⟨_, _, Fragile.create_eq hc s w, Fragile.actAll_bitSet turns hcap, rfl,
    fun fuse step => ⟨Fragile.performStep_eq_act _ fuse step,
      Fragile.fragile_performStep_eq_act _ s w fuse step⟩, fun action => ?_⟩
  have hact := fun fuse => Fragile.act_bitSet (s := s) (w := w) hf fuse action
  obtain ⟨hnone, hpoisoned⟩ := Fragile.act_none
    ((Fragile.fresh capacity).actAll s w turns).2 s w action
  refine ⟨?_, hpoisoned, fun k => ⟨fun h => ?_, fun h => ?_⟩, fun k h => ?_, fun k h => ?_⟩
  · rwa [hact]
  · by_contra hk
    rw [hact, Fragile.act_of_le _ s w action (Nat.le_of_not_lt hk)] at h
    exact hnone h
  · rw [hact, Fragile.act_of_lt _ s w action h]
  · rw [hact, Fragile.act_of_lt _ s w action h]
  · rw [hact, hact, Fragile.act_of_le _ s w action h]

/-- A series that panics in its second word keeps the change of its first, and only the lock of the
second word is lost. -/
theorem armed_steps_two_words : 0 < 20 ∧ ∃ (b : BitSet .w8) (f : Fragile),
    BitSet.create .stripedMutex .w8 20 = .ok b
    ∧ b.actAll [(some 1, .series [(.set, 1), (.flip, 9), (.set, 2)]), (none, .call (.get 1)),
        (some 0, .call (.update .clear 10)), (some 2, .call .count)]
      = ([.panicked, .returned (.ok (.bit true)), .returned (.error .lockPoisoned),
        .returned (.error .lockPoisoned)], f.bitSet .stripedMutex .w8)
    ∧ f = ⟨(Plain.clear 20).update .set 1, [1]⟩
    ∧ ((f.bitSet .stripedMutex .w8).act (some 0) (.call .count)).1 = .panicked := by
  obtain ⟨b, f, hb, hrun, hf, -, hstep⟩ := armed_steps_follow_fragile .stripedMutex .w8 (by decide : 0 < 20)
    [(some 1, .series [(.set, 1), (.flip, 9), (.set, 2)]), (none, .call (.get 1)),
      (some 0, .call (.update .clear 10)), (some 2, .call .count)]
  have hends : f = ⟨(Plain.clear 20).update .set 1, [1]⟩ := by
    rw [← hf]
    decide
  refine ⟨by decide, b, f, hb, ?_, hends, ?_⟩
  · rw [hrun]
    exact congrArg (Prod.mk · _) (by decide)
  · refine ((hstep (.call .count)).2.2.1 0).2 ?_
    rw [hends]
    decide

end SharedBits
