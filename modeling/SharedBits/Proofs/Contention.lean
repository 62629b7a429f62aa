import SharedBits.Proofs.Budget
import SharedBits.Proofs.LockFree
import SharedBits.Proofs.Serving

/-!
# Contention

A swap that does not fail spuriously fails only because the thread has seen a word that is no longer
there, and somebody has changed it since (`Thread.Watching`). A write makes no more threads stale than
there are others, and a failed swap brings its thread up to date: so in a run without spurious failures
there are no more failed swaps than writes times other threads (`Run.misses_le`), and the run is bounded
(`Run.length_le_of_faithful`). For a lock-free bitset, where only commits write and no thread waits, this
is `lockFree_progress`.
-/

namespace SharedBits

variable {w : Width} {κ ρ : Type}

/-- No swap has failed where the expected word was there. -/
def IsFaithful (labels : List (Label w κ ρ)) : Prop :=
  ∀ l ∈ labels, ∀ cell v, l.event ≠ .missed cell v v

namespace Event

/-- The cell that an attempt at an optimistic update has read, and the word that was there. -/
def seen? : Event w ρ → Option (Nat × Word w)
  | observed cell v => some (cell, v)
  | missed cell _ v => some (cell, v)
  | _ => none

/-- Whether an event leaves another word in this cell. -/
def Changes (cell : Nat) (e : Event w ρ) : Prop :=
  ∃ old new, (e = .stored cell old new ∨ e = .committed cell old new) ∧ old ≠ new

/-- Whether an event is a swap, failed or not. -/
def isSwap : Event w ρ → Bool
  | committed _ _ _ => true
  | missed _ _ _ => true
  | _ => false

theorem changes_of_load? {e : Event w ρ} {store : Store w} {cell : Nat} (hf : e.Fits store)
    (h : (e.after store).cells.load? cell ≠ store.cells.load? cell) : e.Changes cell := by
  have hwrite : ∀ {other : Nat} {old new : Word w}, store.cells.load? other = some old →
      (store.write other new).cells.load? cell ≠ store.cells.load? cell →
      other = cell ∧ old ≠ new := by
    intro other old new hold hne
    simp only [Store.write, Cells.load?_store] at hne
    split at hne
    · rename_i hcell
      obtain ⟨rfl, -⟩ := hcell
      rw [hold] at hne
      exact ⟨rfl, fun heq => hne (by rw [heq])⟩
    · exact absurd rfl hne
  cases e with
  | stored other old new =>
    obtain ⟨rfl, hne⟩ := hwrite hf h
    exact ⟨old, new, .inl rfl, hne⟩
  | committed other old new =>
    obtain ⟨rfl, hne⟩ := hwrite hf h
    exact ⟨old, new, .inr rfl, hne⟩
  | _ => exact absurd rfl h

theorem cells_after_of_not_isWrite {e : Event w ρ} (h : e.isWrite = false) (store : Store w) :
    (e.after store).cells = store.cells := by
  cases e <;> first | rfl | cases h

end Event

/-! ## Between the attempts -/

namespace Active

/-- Only in an optimistic update does a call keep a word that it has seen. -/
def IsTidy (a : Active w κ ρ) : Prop :=
  a.seen ≠ none → ∃ cell transform next, a.rest = .modify cell transform next

variable {a a' b : Active w κ ρ} {e : Event w ρ} {es : List (Event w ρ)}

theorem IsTidy.seen_eq_none (h : a.IsTidy) (hr : ∀ cell transform next, a.rest ≠ .modify cell transform next) :
    a.seen = none := by
  by_contra hs
  obtain ⟨cell, transform, next, hrest⟩ := h hs
  exact hr cell transform next hrest

/-- The word that a call has seen after an event is the one that the event has read. -/
theorem IsTidy.seen_of_passes (h : a.IsTidy) (hp : a.Passes e a') {v : Word w} (hv : a'.seen = some v) :
    ∃ cell transform next, a'.rest = .modify cell transform next ∧ e.seen? = some (cell, v) := by
  cases hp with
  | observed v' hr hs =>
    cases hv
    exact ⟨_, _, _, hr, rfl⟩
  | missed actual hr hs =>
    cases hv
    exact ⟨_, _, _, hr, rfl⟩
  | committed hr hs => cases hv
  | _ =>
    rename_i hr
    have hnone := h.seen_eq_none (by simp [hr])
    simp [hnone] at hv

theorem IsTidy.passes (h : a.IsTidy) (hp : a.Passes e a') : a'.IsTidy := by
  intro hs
  obtain ⟨v, hv⟩ := Option.ne_none_iff_exists'.1 hs
  obtain ⟨cell, transform, next, hr, -⟩ := h.seen_of_passes hp hv
  exact ⟨cell, transform, next, hr⟩

theorem Follows.isTidy (h : a.Follows es b) : a.IsTidy → b.IsTidy := by
  induction h with
  | nil => exact id
  | cons hp _ ih => exact fun ha => ih (ha.passes hp)

/-- Whether the word that a call would replace is no longer there. -/
def isStale (cells : Cells w) (a : Active w κ ρ) : Bool :=
  match a.rest, a.seen with
  | .modify cell _ _, some v => cells.load? cell != some v
  | _, _ => false

theorem isStale_of_seen_eq_none {cells : Cells w} (h : a.seen = none) : a.isStale cells = false := by
  unfold isStale
  split
  · rename_i hs
    cases h.symm.trans hs
  · rfl

end Active

def Thread.isStale (cells : Cells w) (t : Thread w κ ρ) : Bool := t.current.any (Active.isStale cells)

/-- How many threads have seen a word that is no longer there. -/
def Machine.stale (m : Machine w κ ρ) : Nat := m.threads.countP (Thread.isStale m.store.cells)

section Threads

variable {sys : System w κ ρ} {store store' : Store w} {mishap : Mishap} {t t' : Thread w κ ρ}
  {call : κ} {e : Event w ρ}

/-- Whoever has just moved has seen what is there. -/
theorem Thread.Moves.not_isStale (hm : t.Moves sys store mishap call e store' t')
    (htidy : ∀ a, t.current = some a → a.IsTidy) : t'.isStale store'.cells = false := by
  cases hm with
  | begins => exact Active.isStale_of_seen_eq_none rfl
  | @passes a a' _ hc hp hf =>
    show a'.isStale (e.after store).cells = false
    rcases hs : a'.seen with _ | v
    · exact Active.isStale_of_seen_eq_none hs
    · obtain ⟨cell, transform, next, hr, hseen⟩ := (htidy a hc).seen_of_passes hp hs
      have hload : (e.after store).cells.load? cell = some v := by
        cases e <;> cases hseen <;> exact hf
      simp [Active.isStale, hr, hs, hload]
  | returns => rfl
  | panics => rfl

theorem Thread.Moves.isStale_of_isMiss (hm : t.Moves sys store mishap call e store' t')
    (he : e.isMiss = true) (hfaithful : ∀ cell v, e ≠ .missed cell v v) :
    t.isStale store.cells = true := by
  cases hm with
  | @passes a a' _ hc hp hf =>
    cases hp with
    | @missed cell transform next seen actual hr hs =>
      have hne : actual ≠ seen := by
        rintro rfl
        exact hfaithful cell actual rfl
      have hload : store.cells.load? cell = some actual := hf
      simp [Thread.isStale, hc, Active.isStale, hr, hs, hload, hne]
    | _ => cases he
  | _ => cases he

theorem Thread.Moves.cells_eq (hm : t.Moves sys store mishap call e store' t')
    (he : e.isWrite = false) : store'.cells = store.cells := by
  cases hm with
  | begins => rfl
  | passes => exact Event.cells_after_of_not_isWrite he store
  | returns => rfl
  | panics => exact store.cells_abandon _

theorem Thread.Moves.changes (hm : t.Moves sys store mishap call e store' t') {cell : Nat}
    (h : store'.cells.load? cell ≠ store.cells.load? cell) : e.Changes cell := by
  cases hm with
  | begins => exact absurd rfl h
  | passes _ _ hf => exact Event.changes_of_load? hf h
  | returns => exact absurd rfl h
  | panics => exact absurd (by rw [store.cells_abandon]) h

end Threads

section Runs

variable {sys : System w κ ρ} {store : Store w} {calls : List (List κ)} {m m₀ : Machine w κ ρ}
  {labels : List (Label w κ ρ)} {i : Nat} {t : Thread w κ ρ}

theorem Run.length_threads (h : Run sys m₀ labels m) : m.threads.length = m₀.threads.length := by
  refine h.of_moves (fun _ m => m.threads.length = m₀.threads.length) rfl ?_
  intro labels m mishap i t call e store t' _ ih _ _
  rw [List.length_set, ih]

theorem Run.isTidy (h : Run sys (.start store calls) labels m) (ht : m.threads[i]? = some t) {a : Active w κ ρ}
    (hc : t.current = some a) : a.IsTidy := by
  obtain ⟨es, -, hf⟩ := (h.traced.2 i t ht).current a hc
  exact hf.isTidy fun hs => absurd rfl hs

theorem IsFaithful.of_append {labels' : List (Label w κ ρ)} (h : IsFaithful (labels ++ labels')) :
    IsFaithful labels := fun l hl => h l (List.mem_append_left _ hl)

/-- A write makes at most the other threads stale, and a swap that fails was of a stale thread. -/
theorem Thread.Moves.stale_le {store' : Store w} {mishap : Mishap} {t' : Thread w κ ρ} {call : κ}
    {e : Event w ρ} (hm : t.Moves sys m.store mishap call e store' t') (ht : m.threads[i]? = some t)
    (htidy : ∀ a, t.current = some a → a.IsTidy) (hfaithful : ∀ cell v, e ≠ .missed cell v v) :
    e.isMiss.toNat + (Machine.mk store' (m.threads.set i t')).stale
      ≤ m.stale + e.isWrite.toNat * (m.threads.length - 1) := by
  have hfresh := hm.not_isStale htidy
  cases hw : e.isWrite with
  | true =>
    have hmiss : e.isMiss = false := by cases e <;> first | rfl | cases hw
    have hmem : t' ∈ m.threads.set i t' :=
      List.mem_of_getElem? ((getElem?_set_thread ht).2 (.inl ⟨rfl, rfl⟩))
    have hlt : (Machine.mk store' (m.threads.set i t')).stale < (m.threads.set i t').length :=
      List.countP_lt_length_iff.2 ⟨t', hmem, by simp [hfresh]⟩
    rw [List.length_set] at hlt
    simp only [hmiss, Bool.toNat_false, Bool.toNat_true]
    omega
  | false =>
    have hcells := hm.cells_eq hw
    have hset := sum_map_set (fun t => (t.isStale m.store.cells).toNat) t' ht
    rw [sum_map_toNat, sum_map_toNat] at hset
    rw [hcells] at hfresh
    simp only [Machine.stale, hcells, hfresh, Bool.toNat_false, Nat.zero_mul] at hset ⊢
    cases hmiss : e.isMiss with
    | true =>
      rw [hm.isStale_of_isMiss hmiss hfaithful, Bool.toNat_true] at hset
      simp only [Bool.toNat_true]
      omega
    | false =>
      simp only [Bool.toNat_false]
      omega

theorem countP_snoc {T : Type} (p : T → Bool) (l : List T) (x : T) :
    (l ++ [x]).countP p = l.countP p + (p x).toNat := by
  rw [List.countP_append, List.countP_singleton]
  cases p x <;> rfl

/-- There are no more failed swaps than writes times other threads. -/
theorem Run.misses_le (h : Run sys (.start store calls) labels m) (hfaithful : IsFaithful labels) :
    labels.countP (fun l => l.event.isMiss) + m.stale
      ≤ labels.countP (fun l => l.event.isWrite) * (calls.length - 1) := by
  refine h.of_moves (fun labels m => IsFaithful labels →
    labels.countP (fun l => l.event.isMiss) + m.stale
      ≤ labels.countP (fun l => l.event.isWrite) * (calls.length - 1)) ?_ ?_ hfaithful
  · intro _
    have hnone : (Machine.start store calls : Machine w κ ρ).stale = 0 := by
      refine List.countP_eq_zero.2 fun t ht => ?_
      simp [Thread.isStale, Machine.current_start ht]
    simp [hnone]
  · intro labels m mishap i t call e store' t' hr ih ht hm hfaithful
    have ih := ih hfaithful.of_append
    have hstep := hm.stale_le ht (fun a hc => hr.isTidy ht hc) fun cell v =>
      hfaithful ⟨i, t.finished.size, call, e⟩ (by simp) cell v
    have hlength : m.threads.length = calls.length := by simpa [Machine.start] using hr.length_threads
    rw [hlength] at hstep
    simp only [countP_snoc, Nat.add_mul]
    omega

/-- Since a thread has seen the word that it would replace, it has done nothing, and if the word is no
longer there somebody has changed it. -/
def Thread.Watching (labels : List (Label w κ ρ)) (cells : Cells w) (i : Nat) (t : Thread w κ ρ) : Prop :=
  ∀ a cell transform next v, t.current = some a → a.rest = .modify cell transform next →
    a.seen = some v → ∃ before e between,
      labels = before ++ ⟨i, t.finished.size, a.call, e⟩ :: between ∧ e.seen? = some (cell, v)
        ∧ (∀ l ∈ between, l.thread ≠ i)
        ∧ (cells.load? cell ≠ some v → ∃ l ∈ between, l.event.Changes cell)

theorem Run.watching (h : Run sys (.start store calls) labels m) :
    ∀ (i : Nat) (t : Thread w κ ρ), m.threads[i]? = some t → t.Watching labels m.store.cells i := by
  refine h.of_moves (fun labels m => ∀ (i : Nat) (t : Thread w κ ρ), m.threads[i]? = some t →
    t.Watching labels m.store.cells i) ?_ ?_
  · intro i t ht a cell transform next v hc
    cases (Machine.current_start (List.mem_of_getElem? ht)).symm.trans hc
  · intro labels m mishap i t call e store' t' hr ih ht hm j u hu b cell transform next v hb hrest hseen
    rcases (getElem?_set_thread ht).1 hu with ⟨rfl, rfl⟩ | ⟨hj, hu⟩
    · have hfresh := hm.not_isStale fun a hc => hr.isTidy ht hc
      cases hm with
      | begins =>
        cases hb
        cases hseen
      | @passes a a' _ hc hp hf =>
        cases hb
        obtain ⟨cell', transform', next', hrest', he⟩ := (hr.isTidy ht hc).seen_of_passes hp hseen
        cases hrest.symm.trans hrest'
        rw [← hp.call_eq]
        refine ⟨labels, e, [], rfl, he, by simp, fun hne => absurd ?_ hne⟩
        simpa [Thread.isStale, Active.isStale, hrest, hseen] using hfresh
      | returns => cases hb
      | panics => cases hb
    · obtain ⟨before, e', between, rfl, he', hquiet, hchanged⟩ :=
        ih j u hu b cell transform next v hb hrest hseen
      refine ⟨before, e', between ++ [⟨i, t.finished.size, call, e⟩], by simp, he', ?_, fun hne => ?_⟩
      · intro l hl
        rcases List.mem_append.1 hl with hl | hl
        · exact hquiet l hl
        · rw [List.mem_singleton.1 hl]
          exact Ne.symm hj
      · by_cases hold : m.store.cells.load? cell = some v
        · have hchanges : e.Changes cell := hm.changes (by rwa [hold])
          exact ⟨_, List.mem_append_right _ (List.mem_singleton_self _), hchanges⟩
        · obtain ⟨l, hl, hchanges⟩ := hchanged hold
          exact ⟨l, List.mem_append_left _ hl, hchanges⟩

/-- Before a swap fails, and since its thread has read the cell, another thread has changed it. -/
theorem Run.changed_of_missed (h : Run sys (.start store calls) labels m) (hfaithful : IsFaithful labels)
    {pre post : List (Label w κ ρ)} {n cell : Nat} {call : κ} {expected actual : Word w}
    (hl : labels = pre ++ ⟨i, n, call, .missed cell expected actual⟩ :: post) :
    ∃ before e between, pre = before ++ ⟨i, n, call, e⟩ :: between
      ∧ e.seen? = some (cell, expected) ∧ (∀ l ∈ between, l.thread ≠ i)
      ∧ ∃ l ∈ between, l.event.Changes cell := by
  obtain ⟨m₁, mishap, t, store', t', hr, ht, hm, rfl⟩ := h.split hl
  have hne : actual ≠ expected := by
    rintro rfl
    exact hfaithful ⟨i, t.finished.size, call, .missed cell actual actual⟩ (by simp [hl]) cell actual rfl
  cases hm with
  | passes hc hp hf =>
    cases hp with
    | missed _ hrest hs =>
      obtain ⟨before, e, between, hpre, he, hquiet, hchanged⟩ := hr.watching i t ht _ _ _ _ _ hc hrest hs
      refine ⟨before, e, between, hpre, he, hquiet, hchanged ?_⟩
      have hload : m₁.store.cells.load? cell = some actual := hf
      rw [hload]
      exact fun heq => hne (Option.some.inj heq)

/-- A swap of a thread to which nothing happens does not fail spuriously. -/
theorem Active.proceed_faithful {a : Active w κ ρ} {cell : Nat} {v : Word w} {outcome : Outcome w κ ρ} :
    a.proceed store ≠ some (.missed cell v v, outcome) := by
  intro h
  unfold proceed at h
  split at h
  · cases h
  · split at h <;> cases h
  · split at h <;> cases h
  · split at h
    · cases h
    · split at h
      · cases h
      · unfold compareSwap at h
        split_ifs at h with hv
        · cases h
        · cases h
          exact hv rfl
  · split at h
    · cases h
    · split_ifs at h
      cases h
  · cases h
  · cases h

theorem System.step_faithful {label : Label w κ ρ} {m' : Machine w κ ρ}
    (h : sys.step m ⟨i, .none⟩ = some (label, m')) (cell : Nat) (v : Word w) :
    label.event ≠ .missed cell v v := by
  intro he
  unfold step at h
  split at h
  · cases h
  · split at h
    · cases h
    · rename_i call event store t' hst
      cases h
      subst he
      unfold stepThread at hst
      split at hst
      · split at hst
        · cases hst
        · split_ifs at hst
          cases hst
      · split at hst
        · cases hst
        · rename_i hs
          cases hst
          exact Active.proceed_faithful hs
        · rename_i hs
          cases hst
          exact Active.proceed_faithful hs

end Runs

/-! ## Callers of a bitset -/

section Callers

variable {b : BitSet w} {s : Strategy} {capacity : Nat} {stops : Ending Reply → Bool}
  {calls : List (List Call)} {store : Store w} {labels : List (Label w Call Reply)}
  {m : Machine w Call Reply}

/-- However callers of a bitset interleave, they come to an end if no swap fails spuriously. -/
theorem Run.length_le_of_faithful (h : Run (b.callers stops) (.start store calls) labels m)
    (hfaithful : IsFaithful labels) : labels.length
      ≤ (b.callers stops).stepsFor calls + changesAsked b.capacity calls * (calls.length - 1) := by
  have hlength := h.length_le
  have hmisses := h.misses_le hfaithful
  have hwrites := Nat.mul_le_mul_right (calls.length - 1) h.writes_le_changes
  omega

theorem countP_isSwap_le (labels : List (Label w κ ρ)) : labels.countP (fun l => l.event.isSwap)
    ≤ labels.countP (fun l => l.event.isWrite) + labels.countP fun l => l.event.isMiss := by
  simp only [← sum_map_toNat]
  induction labels with
  | nil => exact Nat.le_refl 0
  | cons l labels ih =>
    have hl : l.event.isSwap.toNat ≤ l.event.isWrite.toNat + l.event.isMiss.toNat := by
      cases l.event <;> simp [Event.isSwap, Event.isWrite, Event.isMiss]
    simp only [List.map_cons, List.sum_cons]
    omega

theorem Run.swaps_le (h : Run (b.callers stops) (.start store calls) labels m)
    (hfaithful : IsFaithful labels) :
    labels.countP (fun l => l.event.isSwap) ≤ changesAsked b.capacity calls * calls.length := by
  have hswaps := countP_isSwap_le labels
  have hmisses := h.misses_le hfaithful
  have hwrites := h.writes_le_changes
  rcases calls with _ | ⟨thread, calls⟩
  · have hnone : changesAsked b.capacity [] = 0 := rfl
    simp only [List.length_nil, Nat.zero_sub, Nat.mul_zero] at hmisses ⊢
    omega
  · have hmul := Nat.mul_le_mul_right calls.length hwrites
    simp only [List.length_cons, Nat.add_sub_cancel, Nat.mul_succ] at hmisses ⊢
    omega

/-- A lock-free bitset is changed by commits only. -/
theorem Run.not_stored (hb : BitSet.create .lockFree w capacity = .ok b)
    (h : Run (b.callers stops) (.start b.store calls) labels m) {l : Label w Call Reply}
    (hl : l ∈ labels) (cell : Nat) (old new : Word w) : l.event ≠ .stored cell old new := by
  intro he
  obtain ⟨pre, post, rfl⟩ := List.append_of_mem hl
  obtain ⟨m₁, mishap, t, store', t', hr, ht, hm, -⟩ := h.split rfl
  obtain ⟨i, n, call, e⟩ := l
  cases he
  cases hm with
  | passes hc hp =>
    cases hp with
    | stored _ hrest =>
      have hobeys := (hr.holding_callers rfl hb).obeys _ _ _ ht hc
      rw [hrest] at hobeys
      exact hobeys.1.2.2 rfl

end Callers

/-- What holds at each point of a run of threads whose calls ask for so many changes. -/
structure Contended (sys : System w κ ρ) (threads changes : Nat) (labels : List (Label w κ ρ))
    (m : Machine w κ ρ) : Prop where
  /-- Before a swap fails, and since its thread has last read the cell, which was then as expected,
  another thread has committed another word there. -/
  charged : ∀ pre post i n call cell expected actual,
    labels = pre ++ ⟨i, n, call, .missed cell expected actual⟩ :: post → ∃ before e between,
      pre = before ++ ⟨i, n, call, e⟩ :: between ∧ e.seen? = some (cell, expected)
        ∧ (∀ l ∈ between, l.thread ≠ i)
        ∧ ∃ l ∈ between, ∃ old new, l.event = .committed cell old new ∧ old ≠ new
  swaps : labels.countP (fun l => l.event.isSwap) ≤ changes * threads
  /-- No thread waits. -/
  goes_on : ∀ i t, m.threads[i]? = some t → t.isDone = false → ∃ label m',
    sys.step m ⟨i, .none⟩ = some (label, m') ∧ IsFaithful (labels ++ [label])

/-- Threads that share a new lock-free bitset make progress together, however unfairly they are
scheduled: a swap fails only because another has succeeded, so there are few swaps, and no run goes on
for ever or ends before all threads have. -/
theorem lockFree_progress {capacity : Nat} {b : BitSet w}
    (hb : BitSet.create .lockFree w capacity = .ok b) (stops : Ending Reply → Bool)
    (calls : List (List Call)) :
    (∀ labels m, Run (b.callers stops) (.start b.store calls) labels m → IsFaithful labels →
      Contended (b.callers stops) calls.length (changesAsked capacity calls) labels m)
    ∧ ∃ N, ∀ labels m, Run (b.callers stops) (.start b.store calls) labels m → IsFaithful labels →
      labels.length ≤ N := by
  have hcapacity : b.capacity = capacity := by rw [BitSet.eq_of_create hb]
  refine ⟨fun labels m h hfaithful => ?_, _, fun labels m h hfaithful =>
    h.length_le_of_faithful hfaithful⟩
  refine ⟨fun pre post i n call cell expected actual hl => ?_, ?_, fun i t ht hdone => ?_⟩
  · obtain ⟨before, e, between, rfl, he, hquiet, l, hmem, old, new, hchange, hne⟩ :=
      h.changed_of_missed hfaithful hl
    refine ⟨before, e, between, rfl, he, hquiet, l, hmem, old, new, ?_, hne⟩
    exact hchange.resolve_left (h.not_stored hb (by rw [hl]; simp [hmem]) cell old new)
  · rw [← hcapacity]
    exact h.swaps_le hfaithful
  · obtain ⟨label, m', hstep⟩ := (b.callers stops).exists_step ht hdone
      fun a guard next lock hc hr hlock => by
        have hlocks : m.store.locks.size = 0 := by
          rw [h.size_locks, BitSet.eq_of_create hb]
          rfl
        exact absurd (Array.getElem?_eq_some_iff.1 hlock).1 (by omega)
    refine ⟨label, m', hstep, List.forall_mem_append.2 ⟨hfaithful, ?_⟩⟩
    simpa using System.step_faithful hstep

/-- A thread has seen a word, and another commits twice: first a change that leaves the word as it is,
then one that does not. So the swap of the first thread fails, and succeeds when it is tried again. -/
theorem lockFree_progress_retry : ∃ (b : BitSet .w8) (labels : List (Label .w8 Call Reply))
    (m : Machine .w8 Call Reply), BitSet.create .lockFree .w8 10 = .ok b
      ∧ Run (b.callers fun _ => false)
        (.start b.store [[.update .set 0], [.update .clear 5, .update .flip 3, .get 10]]) labels m
      ∧ IsFaithful labels
      ∧ Contended (b.callers fun _ => false) 2 3 labels m
      ∧ (∃ N, ∀ labels m, Run (b.callers fun _ => false)
        (.start b.store [[.update .set 0], [.update .clear 5, .update .flip 3, .get 10]]) labels m →
        IsFaithful labels → labels.length ≤ N)
      ∧ eventsOf labels 0 0
        = [.began, .observed 0 0, .missed 0 0 8, .committed 0 8 9, .returned (.ok .done)]
      ∧ labels.countP (fun l => l.event.isSwap) = 4 ∧ m.threads.map Thread.isDone = [true, false] := by
  obtain ⟨⟨labels, m⟩, hf, hlabels, hevents, hswaps, hdone⟩ :
      ∃ r : List (Label .w8 Call Reply) × Machine .w8 Call Reply,
      (BitSet.callers ⟨.lockFree, 10, .fresh 2 0⟩ fun _ => false).follow
          (.start (.fresh 2 0) [[.update .set 0], [.update .clear 5, .update .flip 3, .get 10]])
          ([0, 0, 1, 1, 1, 1, 1, 1, 1, 1, 0, 0, 0].map fun i => ⟨i, .none⟩) = some r
        ∧ r.1.map Label.event = [.began, .observed 0 0, .began, .observed 0 0, .committed 0 0 0,
          .returned (.ok .done), .began, .observed 0 0, .committed 0 0 8, .returned (.ok .done),
          .missed 0 0 8, .committed 0 8 9, .returned (.ok .done)]
        ∧ eventsOf r.1 0 0
          = [.began, .observed 0 0, .missed 0 0 8, .committed 0 8 9, .returned (.ok .done)]
        ∧ r.1.countP (fun l => l.event.isSwap) = 4 ∧ r.2.threads.map Thread.isDone = [true, false] :=
    ⟨_, rfl, rfl, rfl, rfl, rfl⟩
  have hfaithful : IsFaithful labels := by
    intro l hl cell v he
    have hmem := List.mem_map_of_mem (f := Label.event) hl
    simp only [hlabels, he] at hmem
    obtain ⟨rfl, rfl, hv⟩ : cell = 0 ∧ v = 0 ∧ v = 8 := by simpa using hmem
    cases hv
  have hrun := Run.of_follow .start hf
  have hb : BitSet.create .lockFree .w8 10 = .ok ⟨.lockFree, 10, .fresh 2 0⟩ := rfl
  obtain ⟨hcontended, hbounded⟩ := lockFree_progress hb (fun _ => false)
    [[.update .set 0], [.update .clear 5, .update .flip 3, .get 10]]
  exact ⟨_, labels, m, hb, hrun, hfaithful, hcontended labels m hrun hfaithful, hbounded, hevents,
    hswaps, hdone⟩

end SharedBits
