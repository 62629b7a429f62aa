import SharedBits.Proofs.History
import SharedBits.Proofs.Sequential
import SharedBits.Proofs.Serving

/-!
# A bitset at rest

Between calls nobody is at the locks, so a run that has come to rest leaves a bitset as a lone caller
could have left it: plain bits, packed, and locks of which some are poisoned (`Run.rests`), none of
them if no thread has panicked (`Run.rests_calm`). The bits are those after the history of the run.
-/

namespace SharedBits

variable {w : Width} {κ ρ : Type}

def Machine.IsResting (m : Machine w κ ρ) : Prop := ∀ t ∈ m.threads, t.current = none

theorem Machine.isResting_of_isDone {m : Machine w κ ρ} (h : m.isDone = true) : m.IsResting := by
  intro t ht
  exact (Thread.isDone_iff.1 (List.all_eq_true.1 h t ht)).2

theorem Machine.holders_of_isResting {m : Machine w κ ρ} (h : m.IsResting) :
    m.holders = fun _ => 0 := by
  funext guard
  refine List.count_eq_zero.2 fun hmem => ?_
  obtain ⟨t, ht, hheld⟩ := List.mem_flatMap.1 hmem
  rw [Thread.held, h t ht] at hheld
  exact List.not_mem_nil hheld

def Event.isPanic : Event w ρ → Bool
  | panicked => true
  | _ => false

/-- The locks whose holder died. -/
def Store.poisonedLocks (store : Store w) : List Nat :=
  (List.range store.locks.size).filter fun l => store.locks[l]?.any Lock.poisoned

theorem Store.mem_poisonedLocks {store : Store w} {l : Nat} :
    l ∈ store.poisonedLocks ↔ ∃ lock, store.locks[l]? = some lock ∧ lock.poisoned = true := by
  rw [poisonedLocks, List.mem_filter, List.mem_range]
  constructor
  · rintro ⟨hl, hany⟩
    rw [Array.getElem?_eq_getElem hl] at hany ⊢
    exact ⟨_, rfl, hany⟩
  · rintro ⟨lock, hl, hp⟩
    exact ⟨(Array.getElem?_eq_some_iff.1 hl).1, by rw [hl]; exact hp⟩

theorem Fragile.books_store (f : Fragile) (s : Strategy) (w : Width) :
    (f.store s w).Books fun _ => 0 := by
  refine Store.books_of_isIdle fun l lock hl => ?_
  rw [Fragile.getElem?_locks] at hl
  split at hl
  · cases hl
    rfl
  · cases hl

section Runs

variable {f : Fragile} {p : Plain} {s : Strategy} {stops : Ending Reply → Bool}
  {calls : List (List Call)} {labels : List (Label w Call Reply)} {m : Machine w Call Reply}

theorem Run.recorded_bitSet (hs : s.isSynchronized = true)
    (h : Run ((f.bitSet s w).callers stops) (.start (f.bitSet s w).store calls) labels m) :
    Holding s s.modeOf m ∧ Recorded s f.plain labels m :=
  h.recorded hs rfl (f.books_store s w) rfl

theorem Run.cells_bitSet (hs : s.isSynchronized = true)
    (h : Run ((p.bitSet s w).callers stops) (.start (p.bitSet s w).store calls) labels m) :
    m.store.cells = (p.after labels).packed w := (h.recorded_bitSet hs).2.cells

theorem Run.size_locks_bitSet
    (h : Run ((f.bitSet s w).callers stops) (.start (f.bitSet s w).store calls) labels m) :
    m.store.locks.size = s.locksFor (wordsFor w f.plain.capacity) := by
  rw [h.size_locks]
  simp [Machine.start, Fragile.bitSet, Fragile.store]

/-- A run that has come to rest leaves the bits after its history, and locks of which some are
poisoned. -/
theorem Run.rests (hs : s.isSynchronized = true)
    (h : Run ((f.bitSet s w).callers stops) (.start (f.bitSet s w).store calls) labels m)
    (hrest : m.IsResting) : (f.bitSet s w).after m
      = (Fragile.mk (f.plain.after labels) m.store.poisonedLocks).bitSet s w := by
  obtain ⟨hh, hr⟩ := h.recorded_bitSet hs
  have hbooks := hh.books
  rw [Machine.holders_of_isResting hrest] at hbooks
  have hsize := h.size_locks_bitSet
  have hlocks : m.store.locks
      = ((Fragile.mk (f.plain.after labels) m.store.poisonedLocks).store s w).locks := by
    refine Array.ext_getElem? fun l => ?_
    rw [Fragile.getElem?_locks, Plain.capacity_after, ← hsize]
    split
    · rename_i hl
      obtain ⟨readers, writer, -⟩ := hbooks.present l _ (Array.getElem?_eq_getElem hl)
      have hpoisoned : m.store.poisonedLocks.contains l = m.store.locks[l].poisoned := by
        rw [Bool.eq_iff_iff, List.contains_iff_mem, Store.mem_poisonedLocks]
        simp [hl]
      rw [Array.getElem?_eq_getElem hl, hpoisoned]
      rcases hlock : m.store.locks[l] with ⟨_, _, _⟩
      simp_all
    · exact Array.getElem?_eq_none (by omega)
  have hstore : m.store = (Fragile.mk (f.plain.after labels) m.store.poisonedLocks).store s w := by
    calc m.store = ⟨m.store.cells, m.store.locks⟩ := rfl
      _ = _ := by
        rw [hr.cells, hlocks]
        rfl
  simp only [BitSet.after, Fragile.bitSet, Plain.capacity_after]
  exact congrArg _ hstore

def IsCalm (labels : List (Label w Call Reply)) : Prop := ∀ l ∈ labels, l.event ≠ .panicked

theorem isCalm_iff : IsCalm labels ↔ labels.all (fun l => !l.event.isPanic) = true := by
  rw [IsCalm, List.all_eq_true]
  refine forall_congr' fun l => forall_congr' fun _ => ?_
  cases l.event <;> simp [Event.isPanic]

theorem Plain.unpoisoned_bitSet (p : Plain) (s : Strategy) (w : Width) (l : Nat) (lock : Lock)
    (hl : (p.bitSet s w).store.locks[l]? = some lock) : lock.poisoned = false := by
  rw [bitSet, Fragile.bitSet, Fragile.getElem?_locks] at hl
  split at hl
  · cases hl
    rfl
  · cases hl

/-- While no thread panics, no lock is found poisoned. -/
theorem Run.not_acquired_poisoned
    (h : Run ((p.bitSet s w).callers stops) (.start (p.bitSet s w).store calls) labels m)
    (hcalm : IsCalm labels) {l : Label w Call Reply} (hl : l ∈ labels) (guard : Guard) :
    l.event ≠ .acquired guard true := by
  intro he
  obtain ⟨l', hl', hpanicked⟩ := h.panicked_of_acquired (p.unpoisoned_bitSet s w) hl he
  exact hcalm l' hl' hpanicked

/-- A run without a panic that has come to rest leaves the bits after its history, with no lock
poisoned. -/
theorem Run.rests_calm (hs : s.isSynchronized = true)
    (h : Run ((p.bitSet s w).callers stops) (.start (p.bitSet s w).store calls) labels m)
    (hcalm : IsCalm labels) (hrest : m.IsResting) :
    (p.bitSet s w).after m = (p.after labels).bitSet s w := by
  have hnone : m.store.poisonedLocks = [] := by
    refine List.eq_nil_iff_forall_not_mem.2 fun l hl => ?_
    obtain ⟨lock, hlock, hpoisoned⟩ := Store.mem_poisonedLocks.1 hl
    obtain ⟨l', hl', hpanicked⟩ :=
      h.panicked_of_poisoned (p.unpoisoned_bitSet s w) l lock hlock hpoisoned
    exact hcalm l' hl' hpanicked
  have hrests := h.rests hs hrest
  rwa [hnone] at hrests

end Runs

end SharedBits
