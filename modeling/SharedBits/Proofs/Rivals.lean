import Mathlib.Order.Bounds.Basic
import SharedBits.Proofs.Chains

/-!
# The retry loop against rivals

An optimistic update of a word into which somebody stores during each of its attempts. The loop has no
bound of its own: it ends with the first attempt that finds the word that it has seen, because no rival
is left or because the rival happens to be that word, and a rival may well bring back an earlier word.
`lastAttempt` is the number of that attempt, and `update_outlasts_rivals` says what the update has then
done. The rivals of `Cells.update?` are a second thread: in the interleaving in which that thread stores
before each attempt, the machine makes the same attempts and leaves the same words (`Replays`).
-/

namespace SharedBits

variable {w : Width}

/-- Attempt `n` finds the word that it has seen: no rival is left, or the rival is that word. What it has
seen is the word that was there first, or the rival before. -/
def Undisturbed (seen : Word w) (rivals : List (Word w)) (n : Nat) : Prop :=
  n = rivals.length ∨ rivals[n]? = (seen :: rivals)[n]?

/-- The number of the attempt that commits, counted from 0. -/
def lastAttempt (seen : Word w) : List (Word w) → Nat
  | [] => 0
  | rival :: rivals => if rival = seen then 0 else lastAttempt rival rivals + 1

section Loop

variable {seen rival : Word w} {rivals : List (Word w)} {transform : Word w → Word w}

theorem undisturbed_cons_zero : Undisturbed seen (rival :: rivals) 0 ↔ rival = seen := by
  simp [Undisturbed]

theorem undisturbed_cons_succ (n : Nat) :
    Undisturbed seen (rival :: rivals) (n + 1) ↔ Undisturbed rival rivals n := by
  simp [Undisturbed]

theorem lastAttempt_cons_of_ne (h : rival ≠ seen) :
    lastAttempt seen (rival :: rivals) = lastAttempt rival rivals + 1 := if_neg h

theorem isLeast_lastAttempt : ∀ (rivals : List (Word w)) (seen : Word w),
    IsLeast {n | Undisturbed seen rivals n} (lastAttempt seen rivals)
  | [], _ => ⟨.inl rfl, fun _ _ => Nat.zero_le _⟩
  | rival :: rivals, seen => by
    by_cases h : rival = seen
    · rw [lastAttempt, if_pos h]
      exact ⟨undisturbed_cons_zero.2 h, fun _ _ => Nat.zero_le _⟩
    · obtain ⟨hmem, hle⟩ := isLeast_lastAttempt rivals rival
      rw [lastAttempt_cons_of_ne h]
      refine ⟨(undisturbed_cons_succ _).2 hmem, fun n hn => ?_⟩
      rcases n with _ | n
      · exact absurd (undisturbed_cons_zero.1 hn) h
      · exact Nat.succ_le_succ (hle ((undisturbed_cons_succ n).1 hn))

theorem retry_eq (transform : Word w → Word w) : ∀ (rivals : List (Word w)) (seen : Word w),
    ∃ previous, (seen :: rivals)[lastAttempt seen rivals]? = some previous
      ∧ retry transform seen rivals = ⟨previous, lastAttempt seen rivals + 1, transform previous⟩
  | [], seen => ⟨seen, rfl, rfl⟩
  | rival :: rivals, seen => by
    by_cases h : rival = seen
    · refine ⟨seen, by simp [lastAttempt, h], ?_⟩
      simp [retry, compareSwap, lastAttempt, h]
    · obtain ⟨previous, hprevious, hretry⟩ := retry_eq transform rivals rival
      refine ⟨previous, by rw [lastAttempt_cons_of_ne h, List.getElem?_cons_succ, hprevious], ?_⟩
      simp only [retry, compareSwap, if_neg h, hretry, lastAttempt_cons_of_ne h]

/-- The rivals after the attempt that commits do not matter. -/
theorem retry_take (transform : Word w → Word w) (others : List (Word w)) :
    ∀ (rivals : List (Word w)) (seen : Word w), lastAttempt seen rivals < rivals.length →
      retry transform seen (rivals.take (lastAttempt seen rivals + 1) ++ others)
        = retry transform seen rivals
  | [], _, h => absurd h (Nat.not_lt_zero _)
  | rival :: rivals, seen, h => by
    by_cases hrival : rival = seen
    · simp [retry, compareSwap, lastAttempt, hrival]
    · rw [lastAttempt_cons_of_ne hrival] at h ⊢
      have ih := retry_take transform others rivals rival (Nat.lt_of_succ_lt_succ h)
      rw [List.take_succ_cons, List.cons_append]
      simp only [retry, compareSwap, if_neg hrival, ih]

end Loop

/-! ## Rivals as a second thread -/

/-- Threads whose calls are programs, and that go on after every ending. -/
def Prog.threads (w : Width) : System w (Prog w (Word w)) (Word w) where
  code := id
  stops _ := false

/-- Stores a word whatever was there. -/
def Prog.overwrite (cell : Nat) (value : Word w) : Prog w (Word w) := write cell value (ret value)

/-- So many attempts of the first thread. Before each of them the second makes its next store, if it has
one left. -/
def rounds : (attempts stores : Nat) → List Move
  | 0, _ => []
  | n + 1, 0 => ⟨0, .none⟩ :: rounds n 0
  | n + 1, k + 1 => ⟨1, .none⟩ :: ⟨1, .none⟩ :: ⟨1, .none⟩ :: ⟨0, .none⟩ :: rounds n k

/-- The first thread begins and looks at its word, makes so many attempts, and returns. -/
def duel (attempts stores : Nat) : List Move :=
  ⟨0, .none⟩ :: ⟨0, .none⟩ :: (rounds attempts stores ++ [⟨0, .none⟩])

/-- The cell and the word of a store. -/
def Label.stored? {κ ρ : Type} (l : Label w κ ρ) : Option (Nat × Word w) :=
  match l.event with
  | .stored cell _ new => some (cell, new)
  | _ => none

/-- One thread is to update cell `i`, another to store the rivals into it. -/
def Cells.contested (cells : Cells w) (i : Nat) (transform : Word w → Word w)
    (rivals : List (Word w)) : Machine w (Prog w (Word w)) (Word w) :=
  .start ⟨cells, #[]⟩ [[(CellCall.update i transform).code], rivals.map (Prog.overwrite i)]

/-- What the first thread does from `opening` on, and what the second has stored and what not, when
attempt `k` is the one that commits. -/
structure Replays (i : Nat) (transform : Word w → Word w) (rivals : List (Word w)) (seen : Word w)
    (k : Nat) (previous : Word w) (opening : List (Event w (Word w)))
    (labels : List (Label w (Prog w (Word w)) (Word w))) (m : Machine w (Prog w (Word w)) (Word w)) :
    Prop where
  /-- Every attempt before the last misses the word that it has seen. -/
  attempts : eventsOf labels 0 0 = opening
    ++ ((List.zipWith (Event.missed i) (seen :: rivals) rivals).take k
      ++ [.committed i previous (transform previous), .returned previous])
  stored : labels.filterMap Label.stored? = (rivals.take (k + 1)).map (Prod.mk i)
  /-- The rivals after those are not stored. -/
  left : m.threads[1]?.map Thread.waiting = some ((rivals.drop (k + 1)).map (Prog.overwrite i))

section Machine

variable {cells : Cells w} {i : Nat} {transform : Word w → Word w}

/-- The first thread has seen `seen` and makes its attempt next; the second has these rivals left. -/
def Cells.underWay (cells : Cells w) (i : Nat) (transform : Word w → Word w) (seen : Word w)
    (rivals : List (Word w)) (made : Array (Prog w (Word w) × Ending (Word w))) :
    Machine w (Prog w (Word w)) (Word w) :=
  ⟨⟨cells, #[]⟩,
    [{ waiting := []
       current := some { call := (CellCall.update i transform).code
                         rest := (CellCall.update i transform).code, seen := some seen } },
      { waiting := rivals.map (Prog.overwrite i), finished := made }]⟩

theorem Cells.store_store (cells : Cells w) (i : Nat) (v v' : Word w) :
    (cells.store i v).store i v' = cells.store i v' := by
  simp [store]

theorem Cells.load?_store_self {v : Word w} (h : cells.load? i = some v) (v' : Word w) :
    (cells.store i v').load? i = some v' := by
  have hi : i < cells.size := by
    by_contra hi
    rw [Cells.load?_eq_none.2 (by omega)] at h
    cases h
  rw [load?_store, if_pos ⟨rfl, hi⟩]

/-- The second thread stores a rival. -/
theorem follow_store (transform : Word w → Word w) (seen rival : Word w) (rivals : List (Word w))
    (made : Array (Prog w (Word w) × Ending (Word w))) {v : Word w} (hv : cells.load? i = some v)
    (moves : List Move) :
    (Prog.threads w).follow (cells.underWay i transform seen (rival :: rivals) made)
        (⟨1, .none⟩ :: ⟨1, .none⟩ :: ⟨1, .none⟩ :: moves)
      = ((Prog.threads w).follow ((cells.store i rival).underWay i transform seen rivals
          (made.push (Prog.overwrite i rival, .returned rival))) moves).map fun (labels, m) =>
        (⟨1, made.size, Prog.overwrite i rival, .began⟩
          :: ⟨1, made.size, Prog.overwrite i rival, .stored i v rival⟩
          :: ⟨1, made.size, Prog.overwrite i rival, .returned rival⟩ :: labels, m) := by
  simp [System.follow, System.step, System.stepThread, Cells.underWay, Prog.threads, Active.step,
    Active.proceed, Prog.overwrite, hv, Thread.finish, Store.write, Function.comp_def]

/-- An attempt that finds another word than it has seen. -/
theorem follow_miss (transform : Word w → Word w) (rivals : List (Word w))
    (made : Array (Prog w (Word w) × Ending (Word w))) {seen v : Word w}
    (hv : cells.load? i = some v) (hne : v ≠ seen) (moves : List Move) :
    (Prog.threads w).follow (cells.underWay i transform seen rivals made) (⟨0, .none⟩ :: moves)
      = ((Prog.threads w).follow (cells.underWay i transform v rivals made) moves).map
        fun (labels, m) =>
          (⟨0, 0, (CellCall.update i transform).code, .missed i seen v⟩ :: labels, m) := by
  simp [System.follow, System.step, System.stepThread, Cells.underWay, Active.step,
    Active.proceed, CellCall.code, hv, compareSwap, hne]

/-- An attempt that finds the word that it has seen, and the return after it. -/
theorem follow_commit {seen : Word w} {rivals : List (Word w)}
    {made : Array (Prog w (Word w) × Ending (Word w))} (hv : cells.load? i = some seen) :
    (Prog.threads w).follow (cells.underWay i transform seen rivals made)
        [⟨0, .none⟩, ⟨0, .none⟩]
      = some ([⟨0, 0, (CellCall.update i transform).code, .committed i seen (transform seen)⟩,
          ⟨0, 0, (CellCall.update i transform).code, .returned seen⟩],
        ⟨⟨cells.store i (transform seen), #[]⟩,
          [{ waiting := []
             finished := #[((CellCall.update i transform).code, .returned seen)] },
            { waiting := rivals.map (Prog.overwrite i), finished := made }]⟩) := by
  simp [System.follow, System.step, System.stepThread, Cells.underWay, Active.step, Store.write,
    Active.proceed, CellCall.code, hv, compareSwap, Thread.finish, Prog.threads]

theorem follow_rounds (transform : Word w → Word w) : ∀ (rivals : List (Word w)) {cells : Cells w}
    {seen : Word w} (made : Array (Prog w (Word w) × Ending (Word w))), cells.load? i = some seen →
    ∃ previous labels m, (seen :: rivals)[lastAttempt seen rivals]? = some previous
      ∧ (Prog.threads w).follow (cells.underWay i transform seen rivals made)
        (rounds (lastAttempt seen rivals + 1) rivals.length ++ [⟨0, .none⟩]) = some (labels, m)
      ∧ Replays i transform rivals seen (lastAttempt seen rivals) previous [] labels m
      ∧ m.store.cells = cells.store i (transform previous)
  | [], _, seen, _, hv => ⟨seen, _, _, rfl, follow_commit hv, ⟨rfl, rfl, rfl⟩, rfl⟩
  | rival :: rivals, cells, seen, made, hv => by
    have hstored := Cells.load?_store_self hv rival
    by_cases h : rival = seen
    · subst h
      have hlast : lastAttempt rival (rival :: rivals) = 0 := if_pos rfl
      have hfollow := follow_store transform rival rival rivals made hv [⟨0, .none⟩, ⟨0, .none⟩]
      rw [follow_commit hstored] at hfollow
      rw [hlast]
      exact ⟨rival, _, _, rfl, hfollow, ⟨rfl, rfl, rfl⟩, Cells.store_store ..⟩
    · obtain ⟨previous, labels, m, hprevious, hfollow, hreplays, hcells⟩ :=
        follow_rounds transform rivals (made.push (Prog.overwrite i rival, .returned rival)) hstored
      rw [lastAttempt_cons_of_ne h]
      have hmiss := follow_miss transform rivals
        (made.push (Prog.overwrite i rival, .returned rival)) hstored h
        (rounds (lastAttempt rival rivals + 1) rivals.length ++ [⟨0, .none⟩])
      have hstore := follow_store transform seen rival rivals made hv
        (⟨0, .none⟩ :: (rounds (lastAttempt rival rivals + 1) rivals.length ++ [⟨0, .none⟩]))
      rw [hmiss, hfollow] at hstore
      refine ⟨previous, _, m, hprevious, hstore, ⟨?_, ?_, hreplays.left⟩, ?_⟩
      · have hattempts := hreplays.attempts
        simp only [eventsOf, labelsOf] at hattempts
        simp [eventsOf, labelsOf, hattempts]
      · rw [List.take_succ_cons, List.map_cons, ← hreplays.stored]
        rfl
      · rw [hcells, Cells.store_store]

/-- The first thread begins and looks at its word. -/
theorem follow_opening (transform : Word w → Word w) (rivals : List (Word w)) {seen : Word w}
    (hv : cells.load? i = some seen) (moves : List Move) :
    (Prog.threads w).follow (cells.contested i transform rivals)
        (⟨0, .none⟩ :: ⟨0, .none⟩ :: moves)
      = ((Prog.threads w).follow (cells.underWay i transform seen rivals #[]) moves).map
        fun (labels, m) => (⟨0, 0, (CellCall.update i transform).code, .began⟩
          :: ⟨0, 0, (CellCall.update i transform).code, .observed i seen⟩ :: labels, m) := by
  simp [System.follow, System.step, System.stepThread, Cells.contested, Machine.start, Thread.start,
    Cells.underWay, Active.step, Active.proceed, CellCall.code, Prog.threads, hv, Function.comp_def]

/-- Where there is no such cell, the first thread panics when it looks for its word. -/
theorem follow_panic (transform : Word w → Word w) (rivals : List (Word w))
    (hv : cells.load? i = none) :
    ∃ m, (Prog.threads w).follow (cells.contested i transform rivals) [⟨0, .none⟩, ⟨0, .none⟩]
        = some ([⟨0, 0, (CellCall.update i transform).code, .began⟩,
          ⟨0, 0, (CellCall.update i transform).code, .panicked⟩], m)
      ∧ m.store.cells = cells := by
  refine ⟨⟨⟨cells, #[]⟩,
    [{ waiting := [], finished := #[((CellCall.update i transform).code, .panicked)] },
      .start (rivals.map (Prog.overwrite i))]⟩, ?_, rfl⟩
  simp [System.follow, System.step, System.stepThread, Cells.contested, Machine.start, Thread.start,
    Active.step, Active.proceed, CellCall.code, Prog.threads, hv, Active.die, Store.abandon,
    Thread.finish]

end Machine

/-- An update of cell `i`, which holds `seen`, is `done` in attempt `k` and leaves `cells'`. -/
structure Outlasts (cells : Cells w) (i : Nat) (transform : Word w → Word w) (rivals : List (Word w))
    (seen : Word w) (k : Nat) (done : Replaced w) (cells' : Cells w) : Prop where
  update : cells.update? i transform rivals = some (done, cells')
  /-- Whatever rivals come after those of the attempts, they make no difference. -/
  unread : k < rivals.length → ∀ others,
    cells.update? i transform (rivals.take (k + 1) ++ others) = some (done, cells')
  first : IsLeast {n | Undisturbed seen rivals n} k
  /-- Each attempt has called the transform once. -/
  calls : done.calls = k + 1
  /-- What is given back is the word that attempt `k` has seen. -/
  previous : (seen :: rivals)[k]? = some done.previous
  word : done.word = transform done.previous
  present : cells'.load? i = some (transform done.previous)
  others : ∀ j, j ≠ i → cells'.load? j = cells.load? j
  /-- A thread that updates the word does the same when another stores the rivals into it. -/
  replayed : ∃ labels m, (Prog.threads w).follow (cells.contested i transform rivals)
      (duel (k + 1) rivals.length) = some (labels, m)
    ∧ Replays i transform rivals seen k done.previous [.began, .observed i seen] labels m
    ∧ m.store.cells = cells'

/-- Against any rivals an update ends with the first attempt that finds the word that it has seen, and
where there is no such cell it panics before its first. -/
theorem update_outlasts_rivals (cells : Cells w) (i : Nat) (transform : Word w → Word w)
    (rivals : List (Word w)) :
    (∀ seen, cells.load? i = some seen →
      ∃ k done cells', Outlasts cells i transform rivals seen k done cells')
    ∧ (cells.size ≤ i → cells.update? i transform rivals = none
      ∧ ∃ labels m, (Prog.threads w).follow (cells.contested i transform rivals)
          [⟨0, .none⟩, ⟨0, .none⟩] = some (labels, m)
        ∧ labels.map Label.event = [.began, .panicked] ∧ m.store.cells = cells) := by
  refine ⟨fun seen hv => ?_, fun hi => ?_⟩
  · obtain ⟨previous, hprevious, hretry⟩ := retry_eq transform rivals seen
    refine ⟨lastAttempt seen rivals, ⟨previous, lastAttempt seen rivals + 1, transform previous⟩,
      cells.store i (transform previous), ?_, fun hk others => ?_, isLeast_lastAttempt rivals seen, rfl,
      hprevious, rfl, Cells.load?_store_self hv _, fun j hj => ?_, ?_⟩
    · simp only [Cells.update?, hv, hretry]
    · simp only [Cells.update?, hv, retry_take transform others rivals seen hk, hretry]
    · rw [Cells.load?_store, if_neg fun h => hj h.1.symm]
    · obtain ⟨previous', labels, m, hprevious', hfollow, hreplays, hcells⟩ :=
        follow_rounds transform rivals #[] hv
      obtain rfl := Option.some.inj (hprevious.symm.trans hprevious')
      have hopening := follow_opening transform rivals hv
        (rounds (lastAttempt seen rivals + 1) rivals.length ++ [⟨0, .none⟩])
      rw [hfollow] at hopening
      refine ⟨_, m, hopening, ⟨?_, hreplays.stored, hreplays.left⟩, hcells⟩
      have hattempts := hreplays.attempts
      simp only [eventsOf, labelsOf] at hattempts
      simp [eventsOf, labelsOf, hattempts]
  · have hv := Cells.load?_eq_none.2 hi
    obtain ⟨m, hfollow, hcells⟩ := follow_panic transform rivals hv
    exact ⟨by simp only [Cells.update?, hv], _, m, hfollow, rfl, hcells⟩

/-- The second rival brings back the word that was there first, and so does the third, which is why the
update commits; the fourth is never stored. -/
theorem update_outlasts_rivals_restored :
    (Cells.mk #[0, 7, 0] : Cells .w8).load? 1 = some 7
    ∧ (∃ done cells', Outlasts (w := .w8) ⟨#[0, 7, 0]⟩ 1 (2 * ·) [3, 7, 7, 9] 7 2 done cells'
      ∧ done = ⟨7, 3, 14⟩ ∧ cells' = ⟨#[0, 14, 0]⟩)
    ∧ (Cells.mk #[0, 7, 0] : Cells .w8).size ≤ 3
    ∧ (Cells.mk #[0, 7, 0] : Cells .w8).update? 3 (2 * ·) [3, 7, 7, 9] = none := by
  obtain ⟨k, done, cells', h⟩ :=
    (update_outlasts_rivals (w := .w8) ⟨#[0, 7, 0]⟩ 1 (2 * ·) [3, 7, 7, 9]).1 7 rfl
  have hupdate : (⟨7, 3, 14⟩, ⟨#[0, 14, 0]⟩) = (done, cells') := Option.some.inj h.update
  cases hupdate
  obtain rfl : k = 2 := (Nat.succ.inj h.calls).symm
  exact ⟨rfl, ⟨_, _, h, rfl, rfl⟩, by decide,
    ((update_outlasts_rivals (w := .w8) ⟨#[0, 7, 0]⟩ 3 (2 * ·) [3, 7, 7, 9]).2 (by decide)).1⟩

end SharedBits
