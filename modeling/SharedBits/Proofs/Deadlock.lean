import SharedBits.Proofs.Locked
import SharedBits.Proofs.Rest

/-!
# No deadlock at the locks

A thread that obeys the locks holds none while it waits for one. So whoever holds a lock can go on, and
when nobody does, every lock is free for whoever waits: some thread can always go on
(`Holding.exists_step`). When all threads have come to rest, every lock has been given back, whether its
holder returned, was refused or died (`Holding.idle_of_isResting`). `locked_deadlock_free` says so of the
four strategies with locks, on locks of which any may be poisoned at the start.
-/

namespace SharedBits

variable {w : Width} {κ ρ : Type}

/-- How the threads of a machine stand at the locks. -/
structure AtLocks (sys : System w κ ρ) (m : Machine w κ ρ) : Prop where
  counted : m.store.Books m.holders
  /-- A thread holds one lock at most. -/
  one : ∀ t ∈ m.threads, t.held.length ≤ 1
  /-- A thread that waits for a lock holds none. -/
  waiting : ∀ t ∈ m.threads, ∀ a guard next, t.current = some a → a.rest = .acquire guard next →
    t.held = []
  /-- Some thread can go on without a panic, and takes no lock that anybody holds. -/
  goes_on : m.isDone = false → ∃ i t label m', m.threads[i]? = some t ∧ t.isDone = false
    ∧ sys.step m ⟨i, .none⟩ = some (label, m') ∧ label.event ≠ .panicked
    ∧ ∀ guard poisoned, label.event = .acquired guard poisoned →
      ∀ mode, m.holders ⟨guard.lock, mode⟩ = 0
  /-- Between calls nobody has a lock. -/
  released : m.IsResting → ∀ (l : Nat) lock, m.store.locks[l]? = some lock → lock.isIdle = true

section Holding

variable {s : Strategy} {mode : κ → Mode} {sys : System w κ ρ} {m m' : Machine w κ ρ} {i : Nat}
  {t : Thread w κ ρ} {a : Active w κ ρ}

/-- The locks that nobody holds are idle. -/
theorem Store.Books.isIdle {store : Store w} {n : Guard → Nat} (h : store.Books n)
    {l : Nat} {lock : Lock} (hl : store.locks[l]? = some lock) (hn : ∀ mode, n ⟨l, mode⟩ = 0) :
    lock.isIdle = true := by
  obtain ⟨hreaders, hwriter, -⟩ := h.present l lock hl
  rw [hn] at hreaders hwriter
  simpa [Lock.isIdle, hreaders] using hwriter

theorem Holding.held_cases (h : Holding s mode m) (ht : t ∈ m.threads) :
    t.held = [] ∨ ∃ a guard, t.current = some a ∧ a.held = [guard] ∧ t.held = [guard] := by
  obtain ⟨i, ht⟩ := List.getElem?_of_mem ht
  rcases hc : t.current with _ | a
  · exact .inl (by rw [Thread.held, hc])
  · have hheld := Thread.held_of_current hc
    rcases (h.obeys i t a ht hc).held_cases with hnil | ⟨guard, hone⟩
    · exact .inl (hheld.trans hnil)
    · exact .inr ⟨a, guard, rfl, hone, hheld.trans hone⟩

theorem Holding.not_waiting (h : Holding s mode m) (ht : m.threads[i]? = some t)
    (hc : t.current = some a) (hheld : a.held ≠ []) (guard : Guard) (next : Bool → Prog w ρ) :
    a.rest ≠ .acquire guard next := by
  intro hr
  have hobeys := h.obeys i t a ht hc
  rw [hr] at hobeys
  exact hheld hobeys.1.1

theorem Holding.idle_of_isResting (h : Holding s mode m) (hrest : m.IsResting) {l : Nat} {lock : Lock}
    (hl : m.store.locks[l]? = some lock) : lock.isIdle = true := by
  refine h.books.isIdle hl fun mode => ?_
  rw [Machine.holders_of_isResting hrest]

/-- Where a thread is unfinished some thread can go on: one that holds a lock, if there is one, and
else any. -/
theorem Holding.exists_step (h : Holding s mode m) (sys : System w κ ρ) (hdone : m.isDone = false) :
    ∃ i t label m', m.threads[i]? = some t ∧ t.isDone = false
      ∧ sys.step m ⟨i, .none⟩ = some (label, m')
      ∧ ∀ guard poisoned, label.event = .acquired guard poisoned →
        ∀ mode, m.holders ⟨guard.lock, mode⟩ = 0 := by
  by_cases hall : ∀ t ∈ m.threads, t.held = []
  · have hnone : m.holders = fun _ => 0 := by
      funext guard
      refine List.count_eq_zero.2 fun hmem => ?_
      obtain ⟨t, ht, hguard⟩ := List.mem_flatMap.1 hmem
      rw [hall t ht] at hguard
      exact List.not_mem_nil hguard
    obtain ⟨t, ht, hunfinished⟩ : ∃ t ∈ m.threads, t.isDone = false := by
      simpa [Machine.isDone] using hdone
    obtain ⟨i, ht⟩ := List.getElem?_of_mem ht
    obtain ⟨label, m', hstep⟩ := sys.exists_step ht hunfinished
      fun a guard next lock _ _ hl =>
        Lock.isFree_of_isIdle (h.books.isIdle hl fun mode => by rw [hnone]) guard.mode
    exact ⟨i, t, label, m', ht, hunfinished, hstep, fun guard poisoned _ mode => by rw [hnone]⟩
  · simp only [not_forall] at hall
    obtain ⟨t, ht, hholds⟩ := hall
    obtain ⟨a, guard, hc, hone, -⟩ := (h.held_cases ht).resolve_left hholds
    obtain ⟨i, ht⟩ := List.getElem?_of_mem ht
    have hwaits := h.not_waiting ht hc (by simp [hone])
    have hunfinished : t.isDone = false := by simp [Thread.isDone, hc]
    obtain ⟨label, m', hstep⟩ := sys.exists_step ht hunfinished
      fun b guard next lock hb hr => by
        cases hc.symm.trans hb
        exact absurd hr (hwaits guard next)
    refine ⟨i, t, label, m', ht, hunfinished, hstep, fun guard poisoned he => ?_⟩
    -- It is not at a lock, so it takes none.
    obtain ⟨t', call, event, store, t'', ht', hm, rfl, -⟩ := System.step_cases hstep
    cases ht.symm.trans ht'
    subst he
    cases hm with
    | passes hc' hp =>
      cases hc.symm.trans hc'
      cases hp with
      | acquired _ hr => exact absurd hr (hwaits _ _)

theorem Holding.atLocks (h : Holding s mode m) (hserved : Served sys m) : AtLocks sys m where
  counted := h.books
  one t ht := by
    rcases h.held_cases ht with hnil | ⟨_, guard, -, -, hone⟩
    · simp [hnil]
    · simp [hone]
  waiting t ht a guard next hc hr := by
    obtain ⟨i, ht⟩ := List.getElem?_of_mem ht
    rw [Thread.held_of_current hc]
    by_contra hheld
    exact h.not_waiting ht hc hheld guard next hr
  goes_on hdone := by
    obtain ⟨i, t, label, m', ht, hunfinished, hstep, hfree⟩ := h.exists_step sys hdone
    exact ⟨i, t, label, m', ht, hunfinished, hstep, hserved.not_panicked hstep (by simp), hfree⟩
  released hrest l lock hl := h.idle_of_isResting hrest hl

end Holding

section Callers

variable {s : Strategy} {f : Fragile} {stops : Ending Reply → Bool} {calls : List (List Call)}
  {labels : List (Label w Call Reply)} {m : Machine w Call Reply}

theorem Fragile.served (f : Fragile) (s : Strategy) (w : Width) (stops : Ending Reply → Bool)
    (calls : List (List Call)) :
    Served ((f.bitSet s w).callers stops) (.start (f.bitSet s w).store calls) := by
  refine .start calls fun call => ?_
  have hcells : (f.bitSet s w).store.cells.size = wordsFor w f.plain.capacity :=
    f.plain.size_packed
  have hlocks : (f.bitSet s w).store.locks.size = s.locksFor (wordsFor w f.plain.capacity) := by
    simp [Fragile.bitSet, Fragile.store]
  rw [hcells, hlocks]
  exact s.code_staysWithin f.plain.capacity call

/-- Threads that share a bitset with locks come to no deadlock and leak no lock: however they
interleave, wherever a computation panics, and whichever locks were poisoned before. -/
theorem locked_deadlock_free
    (hs : s ∈ [Strategy.fullMutex, .globalRwLock, .stripedRwLock, .stripedMutex])
    (h : Run ((f.bitSet s w).callers stops) (.start (f.bitSet s w).store calls) labels m) :
    AtLocks ((f.bitSet s w).callers stops) m :=
  (h.recorded_bitSet (Strategy.locked_of_mem hs).1).1.atLocks (h.served (f.served s w stops calls))

/-- Two words, of which the lock of the first is poisoned. A thread is refused there; another takes the
lock of the second word, on which a third waits, and dies with it. -/
theorem locked_deadlock_free_two_words : ∃ (b : BitSet .w8) (labels labels' : List (Label .w8 Call Reply))
    (m m' : Machine .w8 Call Reply), b = (Fragile.mk (.clear 10) [0]).bitSet .stripedRwLock .w8
      ∧ .stripedRwLock ∈ [Strategy.fullMutex, .globalRwLock, .stripedRwLock, .stripedMutex]
      ∧ Run (b.callers fun _ => false)
        (.start b.store [[.update .set 0], [.update .flip 9], [.get 9, .get 10]]) labels m
      ∧ AtLocks (b.callers fun _ => false) m
      ∧ m.threads.map Thread.held = [[⟨0, .exclusive⟩], [⟨1, .exclusive⟩], []]
      ∧ (b.callers fun _ => false).step m ⟨2, .none⟩ = none
      ∧ Run (b.callers fun _ => false) m labels' m'
      ∧ AtLocks (b.callers fun _ => false) m'
      ∧ m'.isDone = true ∧ m'.store.locks = #[{ poisoned := true }, { poisoned := true }]
      ∧ m'.endings = [[.returned (.error .lockPoisoned)], [.panicked],
        [.returned (.error .lockPoisoned), .returned (refusalOf 10 10)]] := by
  have hruns : ∀ b : BitSet .w8,
      b = ⟨.stripedRwLock, 10, ⟨.zeros 2, #[{ poisoned := true }, {}]⟩⟩ →
      ∃ labels m, (b.callers fun _ => false).follow
          (.start b.store [[.update .set 0], [.update .flip 9], [.get 9, .get 10]])
          ([0, 1, 2, 0, 1].map fun i => ⟨i, .none⟩) = some (labels, m)
        ∧ m.threads.map Thread.held = [[⟨0, .exclusive⟩], [⟨1, .exclusive⟩], []]
        ∧ (b.callers fun _ => false).step m ⟨2, .none⟩ = none
        ∧ ∃ labels' m', (b.callers fun _ => false).follow m
            ([⟨1, .none⟩, ⟨1, .panic⟩] ++ [0, 0, 2, 2, 2, 2, 2].map fun i => ⟨i, .none⟩)
            = some (labels', m')
          ∧ m'.isDone = true ∧ m'.store.locks = #[{ poisoned := true }, { poisoned := true }]
          ∧ m'.endings = [[.returned (.error .lockPoisoned)], [.panicked],
            [.returned (.error .lockPoisoned), .returned (refusalOf 10 10)]] := by
    rintro _ rfl
    exact ⟨_, _, rfl, rfl, rfl, _, _, rfl, rfl, rfl, rfl⟩
  have hb : (Fragile.mk (.clear 10) [0]).bitSet .stripedRwLock .w8
      = ⟨.stripedRwLock, 10, ⟨.zeros 2, #[{ poisoned := true }, {}]⟩⟩ := by decide +kernel
  obtain ⟨labels, m, hf, hheld, hwaits, labels', m', hf', hends⟩ := hruns _ hb
  have hrun := Run.of_follow .start hf
  exact ⟨_, labels, labels', m, m', rfl, by decide, hrun, locked_deadlock_free (by decide) hrun,
    hheld, hwaits, Run.of_follow .start hf',
    locked_deadlock_free (by decide) (Run.of_follow hrun hf'), hends⟩

end Callers

end SharedBits
