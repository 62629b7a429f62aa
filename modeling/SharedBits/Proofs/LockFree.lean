import SharedBits.Proofs.Paths

/-!
# The lock-free bitset

Threads that share a lock-free bitset, in every interleaving of their loads and swaps: a swap may fail
spuriously, a thread may hold a stale word for as long as it likes, and the word may have been changed
and changed back meanwhile. `LockFreeRun` says what holds at each point of such a run, and
`lockFree_linearizes` that it does: the updates take effect one at a time, where they commit, each
exactly once if it returns, and a read is one of the bits that they have left there.
-/

namespace SharedBits

variable {w : Width}

/-- The updates of a lock-free bitset take effect at their commits, and its reads at their loads. -/
structure LockFreeRun (capacity : Nat) (labels : List (Label w Call Reply))
    (m : Machine w Call Reply) : Prop where
  /-- The words are those of clear bits after the commits, in their order. -/
  words : m.store.cells = (bitsAfter capacity labels).packed w
  /-- An update that has returned has committed once on its way, after attempts that changed nothing. -/
  updated : ∀ i n op k r, ⟨i, n, .update op k, .returned r⟩ ∈ labels → k < capacity →
    r = .ok .done ∧ ∃ tries old, (∀ e ∈ tries, Event.isAttempt e = true)
      ∧ eventsOf labels i n = .began :: (tries ++ [.committed (Address.locate w k).word old
        (op.apply old ((Address.locate w k).mask w)), .returned r])
  /-- No call has committed twice, whether it has returned or not. -/
  once : ∀ l ∈ labels, (eventsOf labels l.thread l.number).countP Event.isWrite ≤ 1
  /-- A read that has returned has loaded its word once, and gives the bit after the commits before. -/
  read : ∀ i n k r, ⟨i, n, .get k, .returned r⟩ ∈ labels → k < capacity → ∃ pre post v,
    labels = pre ++ ⟨i, n, .get k, .loaded (Address.locate w k).word v⟩ :: post
      ∧ r = .ok (.bit ((bitsAfter capacity pre).bit k))
      ∧ eventsOf labels i n
        = [.began, .loaded (Address.locate w k).word v, .computed, .returned r]
  /-- A call that is out of range touches nothing. -/
  refused : ∀ l ∈ labels, ∀ k, l.call.index? = some k → capacity ≤ k →
    l.event = .began ∨ l.event = .returned (refusalOf k capacity)

namespace Strategy

open Prog

variable {k capacity : Nat}

theorem code_lockFree_get (hk : k < capacity) : lockFree.code w capacity (.get k)
    = read (Address.locate w k).word fun v =>
      compute (ret (.ok (.bit ((Address.locate w k).bitIn v)))) := by
  simp only [code, Strategy.get, requireIndex_eq_ok_iff.2 hk, getAt, discipline, readBit]
  rfl

theorem code_lockFree_update (hk : k < capacity) (op : BitOp) :
    lockFree.code w capacity (.update op k) = modify (Address.locate w k).word
      (fun v => op.apply v ((Address.locate w k).mask w)) fun _ => ret (.ok .done) := by
  simp only [code, Strategy.update, requireIndex_eq_ok_iff.2 hk, updateAt, discipline, modifyBit]
  rfl

end Strategy

/-! ## The ways of the calls -/

section Paths

variable {capacity k : Nat} {a b : Active w Call Reply} {es : List (Event w Reply)} {r : Reply}

/-- The way of an update that returns. -/
theorem Active.Follows.lockFree_update {op : BitOp} (h : a.Follows es b) (hk : k < capacity)
    (ha : a.rest = Strategy.lockFree.code w capacity (.update op k)) (hr : b.rest = .ret r) :
    r = .ok .done ∧ ∃ tries old, (∀ e ∈ tries, Event.isAttempt e = true)
      ∧ es = tries ++ [.committed (Address.locate w k).word old
        (op.apply old ((Address.locate w k).mask w))] := by
  rw [Strategy.code_lockFree_update hk] at ha
  rcases h.of_modify ha with ⟨-, hb⟩ | ⟨tries, old, es', rfl, htries, hf⟩
  · rw [hb, ha] at hr
    cases hr
  · obtain ⟨rfl, rfl⟩ := hf.of_ret rfl
    cases hr
    exact ⟨rfl, tries, old, htries, rfl⟩

/-- The way of a read that returns. -/
theorem Active.Follows.lockFree_get (h : a.Follows es b) (hk : k < capacity)
    (ha : a.rest = Strategy.lockFree.code w capacity (.get k)) (hr : b.rest = .ret r) :
    ∃ v, es = [.loaded (Address.locate w k).word v, .computed]
      ∧ r = .ok (.bit ((Address.locate w k).bitIn v)) := by
  rw [Strategy.code_lockFree_get hk] at ha
  rcases h.of_read ha with ⟨rfl, rfl⟩ | ⟨v, es', rfl, hload⟩
  · rw [ha] at hr
    cases hr
  · rcases hload.of_compute rfl with ⟨rfl, rfl⟩ | ⟨es'', rfl, hcompute⟩
    · cases hr
    · obtain ⟨rfl, rfl⟩ := hcompute.of_ret rfl
      cases hr
      exact ⟨v, rfl, rfl⟩

end Paths

/-- Threads that share a new lock-free bitset linearise, however they interleave. -/
theorem lockFree_linearizes {capacity : Nat} {b : BitSet w}
    (hb : BitSet.create .lockFree w capacity = .ok b) {stops : Ending Reply → Bool}
    {calls : List (List Call)} {labels : List (Label w Call Reply)} {m : Machine w Call Reply}
    (h : Run (b.callers stops) (.start b.store calls) labels m) :
    LockFreeRun capacity labels m := by
  have hwords := h.cells_eq rfl hb
  obtain rfl := BitSet.eq_of_create hb
  refine ⟨hwords, fun i n op k r hl hk => ?_, fun l hl => h.writes_le_one hl,
    fun i n k r hl hk => ?_, fun l hl k hi hk => h.event_of_refused hl hi hk⟩
  · obtain ⟨es, a, hes, hf, hr⟩ := h.events_of_returned hl
    obtain ⟨rfl, tries, old, htries, rfl⟩ := hf.lockFree_update hk rfl hr
    refine ⟨rfl, tries, old, htries, ?_⟩
    rw [hes, List.append_assoc]
    rfl
  · obtain ⟨es, a, hes, hf, hr⟩ := h.events_of_returned hl
    obtain ⟨v, rfl, rfl⟩ := hf.lockFree_get hk rfl hr
    have hmem := h.label_of_event hl (e := .loaded (Address.locate w k).word v) (by simp [hes])
    obtain ⟨pre, post, hsplit⟩ := List.append_of_mem hmem
    refine ⟨pre, post, v, hsplit, ?_, hes⟩
    rw [bitIn_bitsAfter hk (h.load_eq rfl hb hsplit)]

/-- While the first thread holds the word that it has seen, the second changes the word and changes it
back, and a swap of the first fails spuriously; then the first commits. -/
theorem lockFree_linearizes_aba : ∃ (b : BitSet .w8) (labels : List (Label .w8 Call Reply))
    (m : Machine .w8 Call Reply), BitSet.create .lockFree .w8 10 = .ok b
      ∧ Run (b.callers fun _ => false)
        (.start b.store [[.update .set 0, .get 10], [.update .flip 3, .update .flip 3]]) labels m
      ∧ LockFreeRun 10 labels m
      ∧ history labels = [(.flip, 3), (.flip, 3), (.set, 0)]
      ∧ eventsOf labels 0 0
        = [.began, .observed 0 0, .missed 0 0 0, .committed 0 0 1, .returned (.ok .done)]
      ∧ eventsOf labels 0 1 = [.began, .returned (refusalOf 10 10)] := by
  obtain ⟨⟨labels, m⟩, hf, hlabels⟩ : ∃ r : List (Label .w8 Call Reply) × Machine .w8 Call Reply,
      (BitSet.callers ⟨.lockFree, 10, .fresh 2 0⟩ fun _ => false).follow
          (.start (.fresh 2 0) [[.update .set 0, .get 10], [.update .flip 3, .update .flip 3]])
          [⟨0, .none⟩, ⟨0, .none⟩, ⟨1, .none⟩, ⟨1, .none⟩, ⟨1, .none⟩, ⟨1, .none⟩, ⟨1, .none⟩,
            ⟨1, .none⟩, ⟨1, .none⟩, ⟨1, .none⟩, ⟨0, .spuriousFailure⟩, ⟨0, .none⟩, ⟨0, .none⟩,
            ⟨0, .none⟩, ⟨0, .none⟩] = some r
        ∧ history r.1 = [(.flip, 3), (.flip, 3), (.set, 0)]
        ∧ eventsOf r.1 0 0
          = [.began, .observed 0 0, .missed 0 0 0, .committed 0 0 1, .returned (.ok .done)]
        ∧ eventsOf r.1 0 1 = [.began, .returned (refusalOf 10 10)] :=
    ⟨_, rfl, rfl, rfl, rfl⟩
  have hrun := Run.of_follow .start hf
  exact ⟨_, labels, m, rfl, hrun, lockFree_linearizes rfl hrun, hlabels⟩

end SharedBits
