import SharedBits.Proofs.Rest
import SharedBits.Proofs.Ways

/-!
# Runs to the end

When all threads have made all their calls and none has panicked, what they leave behind is decided by
the history of the run: the bits, their count, and how many calls of each thread have failed, which are
those with an index out of range (`CompleteRun.remains_eq`). In the history each thread has made the
changes of its calls, in their order (`Run.changes_of_thread`).
-/

namespace SharedBits

variable {w : Width}

def Thread.failures (t : Thread w Call Reply) : Nat :=
  t.finished.toList.countP fun x => !x.2.isOk

/-- What can be seen when all threads have come to rest. -/
structure Remains where
  contents : List (Option Bool)
  count : Ending Reply
  /-- How many calls of each thread have failed. -/
  failures : List Nat
  deriving DecidableEq

def BitSet.remains (b : BitSet w) (m : Machine w Call Reply) : Remains where
  contents := (b.after m).contents
  count := ((b.after m).perform .count).1
  failures := m.threads.map Thread.failures

/-- Threads that share the bits `p` and have made all their calls, without a panic. -/
structure EndedRun (p : Plain) (s : Strategy) (w : Width) (calls : List (List Call))
    (labels : List (Label w Call Reply)) (m : Machine w Call Reply) : Prop where
  run : ∃ stops, Run ((p.bitSet s w).callers stops) (.start (p.bitSet s w).store calls) labels m
  isDone : m.isDone = true
  /-- No thread has stopped before its last call. -/
  made : m.threads.map (fun t => t.finished.toList.map Prod.fst) = calls
  isCalm : IsCalm labels

/-- So they have under a strategy that loses no update. -/
structure CompleteRun (p : Plain) (s : Strategy) (w : Width) (calls : List (List Call))
    (labels : List (Label w Call Reply)) (m : Machine w Call Reply) : Prop
    extends EndedRun p s w calls labels m where
  isSynchronized : s.isSynchronized = true

/-! ## Series -/

section Series

variable {S T : Type}

theorem filter_lt_append_filter_eq (number : S → Nat) (N : Nat) : ∀ {l : List S},
    (l.Pairwise fun x y => number x ≤ number y) → (∀ x ∈ l, number x < N + 1) →
      l.filter (fun x => number x < N) ++ l.filter (fun x => number x == N) = l
  | [], _, _ => rfl
  | x :: l, hl, hlt => by
    obtain ⟨hx, hl⟩ := List.pairwise_cons.1 hl
    obtain ⟨hxN, hlt⟩ := List.forall_mem_cons.1 hlt
    have ih := filter_lt_append_filter_eq number N hl hlt
    by_cases h : number x < N
    · have hne : number x ≠ N := by omega
      simp [h, hne, ih]
    · -- From here on all numbers are `N`.
      have hx' : number x = N := by omega
      have hall : ∀ y ∈ l, number y = N := by
        intro y hy
        have := hx y hy
        have := hlt y hy
        omega
      have hnone : l.filter (fun y => number y < N) = [] :=
        List.filter_eq_nil_iff.2 fun y hy => by simp [hall y hy]
      have hself : l.filter (fun y => number y == N) = l :=
        List.filter_eq_self.2 fun y hy => by simp [hall y hy]
      simp [hx', hnone, hself]

/-- A list in the order of its numbers, number by number. -/
theorem flatMap_filter_number (number : S → Nat) : ∀ (N : Nat) {l : List S},
    (l.Pairwise fun x y => number x ≤ number y) → (∀ x ∈ l, number x < N) →
      (List.range N).flatMap (fun n => l.filter fun x => number x == n) = l
  | 0, l, _, hlt => by
    have hnil : l = [] := List.eq_nil_iff_forall_not_mem.2 fun x hx => Nat.not_lt_zero _ (hlt x hx)
    simp [hnil]
  | N + 1, l, hl, hlt => by
    have ih := flatMap_filter_number number N (l := l.filter fun x => number x < N)
      (hl.filter _) (by simp)
    have hsame : (List.range N).flatMap (fun n => l.filter fun x => number x == n)
        = l.filter fun x => number x < N := by
      refine (List.flatMap_congr fun n hn => ?_).trans ih
      rw [List.filter_filter]
      refine List.filter_congr fun x _ => ?_
      have := List.mem_range.1 hn
      by_cases h : number x = n
      · simp [h, this]
      · simp [h]
    rw [List.range_succ, List.flatMap_append, hsame, List.flatMap_singleton]
    exact filter_lt_append_filter_eq number N hl hlt

theorem flatMap_range_toList (f : S → Option T) : ∀ l : List S,
    (List.range l.length).flatMap (fun n => (l[n]?.bind f).toList) = l.filterMap f
  | [] => rfl
  | x :: l => by
    rw [List.length_cons, List.range_succ_eq_map, List.flatMap_cons, List.flatMap_map]
    have ih := flatMap_range_toList f l
    cases hx : f x <;> simp [hx, ih]

end Series

/-! ## Calls -/

section Calls

variable {i n : Nat}

theorem filterMap_change_update (op : BitOp) (k : Nat) : ∀ es : List (Event w Reply),
    (es.map (Label.mk i n (.update op k))).filterMap Label.change?
      = List.replicate (es.countP Event.isWrite) (op, k)
  | [] => rfl
  | e :: es => by
    have ih := filterMap_change_update op k es
    rw [List.map_cons, List.countP_cons]
    cases e <;> simp [List.filterMap_cons, Label.change?, Event.isWrite, ih, List.replicate_succ]

theorem filterMap_change_of_change {capacity : Nat} {call : Call} {es : List (Event w Reply)}
    (hes : es.countP Event.isWrite = (call.change capacity).toList.length) :
    (es.map (Label.mk i n call)).filterMap Label.change? = (call.change capacity).toList := by
  cases call with
  | update op k =>
    rw [filterMap_change_update, hes]
    by_cases hk : k < capacity <;> simp [Call.change, hk]
  | get k =>
    refine List.filterMap_eq_nil_iff.2 fun l hl => ?_
    obtain ⟨e, -, rfl⟩ := List.mem_map.1 hl
    rfl
  | count =>
    refine List.filterMap_eq_nil_iff.2 fun l hl => ?_
    obtain ⟨e, -, rfl⟩ := List.mem_map.1 hl
    rfl

end Calls

section Runs

variable {p : Plain} {s : Strategy} {stops : Ending Reply → Bool} {calls : List (List Call)}
  {labels : List (Label w Call Reply)} {m : Machine w Call Reply} {i n : Nat}
  {t : Thread w Call Reply} {call : Call} {ending : Ending Reply}

/-- A call of a run without a panic has made its change, and is refused if its index is out of range. -/
theorem Run.call_ended
    (h : Run ((p.bitSet s w).callers stops) (.start (p.bitSet s w).store calls) labels m)
    (hcalm : IsCalm labels) (ht : m.threads[i]? = some t)
    (hn : t.finished[n]? = some (call, ending)) :
    (∀ l ∈ labelsOf labels i n, l.call = call)
      ∧ (labelsOf labels i n).filterMap Label.change? = (call.change p.capacity).toList
      ∧ ending.isOk = !call.isRefused p.capacity := by
  obtain ⟨es, hes, hends⟩ := (h.traced.2 i t ht).finished n call ending hn
  have hcall : ∀ l ∈ labelsOf labels i n, l.call = call := by
    intro l hl
    rw [hes] at hl
    obtain ⟨e, -, rfl⟩ := List.mem_map.1 hl
    rfl
  have hmem : ∀ e ∈ es, ⟨i, n, call, e⟩ ∈ labels := by
    intro e he
    have hl : ⟨i, n, call, e⟩ ∈ labelsOf labels i n := by
      rw [hes]
      exact List.mem_map_of_mem (List.mem_cons_of_mem _ he)
    exact (mem_labelsOf.1 hl).1
  cases hends with
  | panicked => exact absurd rfl (hcalm _ (hmem .panicked (by simp)))
  | @returned es a r hf hr =>
    have hhealthy := h.findsHealthy hcalm fun e he => hmem e (List.mem_append_left _ he)
    obtain ⟨hok, hwrites⟩ := Strategy.way_code (hf.way hr) hhealthy
    have hle := hf.writes_le (s.code_makes p.capacity call)
    -- No call writes more than its change, and one that finds its locks healthy writes no less.
    have heq : es.countP Event.isWrite = (call.change p.capacity).toList.length :=
      Nat.le_antisymm hle hwrites
    refine ⟨hcall, ?_, hok⟩
    rw [hes]
    exact filterMap_change_of_change (by simpa [Event.isWrite] using heq)

/-- When all threads rest, every label belongs to a call that has ended. -/
theorem Run.exists_finished
    (h : Run ((p.bitSet s w).callers stops) (.start (p.bitSet s w).store calls) labels m)
    (hcalm : IsCalm labels) (hrest : m.IsResting) {l : Label w Call Reply} (hl : l ∈ labels) :
    ∃ t ending, m.threads[l.thread]? = some t ∧ t.finished[l.number]? = some (l.call, ending) := by
  obtain ⟨t, ht⟩ : ∃ t, m.threads[l.thread]? = some t :=
    ⟨_, List.getElem?_eq_getElem (h.traced.1 l hl)⟩
  have hmem : l ∈ labelsOf labels l.thread l.number := mem_labelsOf.2 ⟨hl, rfl, rfl⟩
  rcases hn : t.finished[l.number]? with _ | ⟨call, ending⟩
  · rw [(h.traced.2 _ t ht).unbegun _ (Array.getElem?_eq_none_iff.1 hn)
      (.inl (hrest t (List.mem_of_getElem? ht)))] at hmem
    exact absurd hmem List.not_mem_nil
  · rw [(h.call_ended hcalm ht hn).1 l hmem]
    exact ⟨t, ending, ht, hn⟩

/-- What a thread has changed: the changes of the calls that have ended, in their order, and then what
the call has changed that it is in. -/
theorem Run.changes_so_far
    (h : Run ((p.bitSet s w).callers stops) (.start (p.bitSet s w).store calls) labels m)
    (hcalm : IsCalm labels) (ht : m.threads[i]? = some t) :
    (labels.filter fun l => l.thread == i).filterMap Label.change?
      = (t.finished.toList.map Prod.fst).filterMap (Call.change p.capacity)
        ++ (labelsOf labels i t.finished.size).filterMap Label.change? := by
  have hsorted : (labels.filter fun l => l.thread == i).Pairwise fun l l' => l.number ≤ l'.number := by
    refine (h.numbers_le.filter _).imp_of_mem fun {l l'} hl hl' hle => hle ?_
    simp only [List.mem_filter, beq_iff_eq] at hl hl'
    rw [hl.2, hl'.2]
  have hlt : ∀ l ∈ labels.filter (fun l => l.thread == i), l.number < t.finished.size + 1 := by
    intro l hl
    simp only [List.mem_filter, beq_iff_eq] at hl
    by_contra hle
    have hmem : l ∈ labelsOf labels i l.number := mem_labelsOf.2 ⟨hl.1, hl.2, rfl⟩
    rw [(h.traced.2 i t ht).unbegun _ (by omega) (.inr (by omega))] at hmem
    exact List.not_mem_nil hmem
  have hlabels : ∀ n, (labels.filter fun l => l.thread == i).filter (fun l => l.number == n)
      = labelsOf labels i n := by
    intro n
    rw [List.filter_filter]
    exact List.filter_congr fun l _ => Bool.and_comm _ _
  have hcall : ∀ n < t.finished.size, (labelsOf labels i n).filterMap Label.change?
      = ((t.finished.toList.map Prod.fst)[n]?.bind (Call.change p.capacity)).toList := by
    intro n hn
    have hget : t.finished[n]? = some (t.finished[n].1, t.finished[n].2) :=
      Array.getElem?_eq_getElem hn
    rw [(h.call_ended hcalm ht hget).2.1]
    simp [hn]
  have hnumbers := flatMap_filter_number Label.number _ hsorted hlt
  have hlength : (t.finished.toList.map Prod.fst).length = t.finished.size := by simp
  calc (labels.filter fun l => l.thread == i).filterMap Label.change?
    _ = (List.range (t.finished.size + 1)).flatMap fun n =>
        (labelsOf labels i n).filterMap Label.change? := by
      rw [← List.filterMap_flatMap, ← hnumbers]
      simp only [hlabels]
    _ = ((List.range t.finished.size).flatMap fun n =>
          ((t.finished.toList.map Prod.fst)[n]?.bind (Call.change p.capacity)).toList)
        ++ (labelsOf labels i t.finished.size).filterMap Label.change? := by
      rw [List.range_succ, List.flatMap_append, List.flatMap_singleton]
      rw [List.flatMap_congr fun n hn => hcall n (List.mem_range.1 hn)]
    _ = _ := by rw [← hlength, flatMap_range_toList, hlength]

/-- What a thread has changed when it rests, it has changed in the order of its calls. -/
theorem Run.changes_of_thread
    (h : Run ((p.bitSet s w).callers stops) (.start (p.bitSet s w).store calls) labels m)
    (hcalm : IsCalm labels) (hrest : m.IsResting) (ht : m.threads[i]? = some t) :
    (labels.filter fun l => l.thread == i).filterMap Label.change?
      = (t.finished.toList.map Prod.fst).filterMap (Call.change p.capacity) := by
  rw [h.changes_so_far hcalm ht, (h.traced.2 i t ht).unbegun _ (Nat.le_refl _)
    (.inl (hrest t (List.mem_of_getElem? ht))), List.filterMap_nil, List.append_nil]

end Runs

namespace EndedRun

variable {p : Plain} {s : Strategy} {calls : List (List Call)} {labels : List (Label w Call Reply)}
  {m : Machine w Call Reply} {i n : Nat}

theorem isResting (h : EndedRun p s w calls labels m) : m.IsResting :=
  Machine.isResting_of_isDone h.isDone

theorem exists_finished (h : EndedRun p s w calls labels m) {l : Label w Call Reply}
    (hl : l ∈ labels) : ∃ t ending, m.threads[l.thread]? = some t
      ∧ t.finished[l.number]? = some (l.call, ending) := by
  obtain ⟨stops, hrun⟩ := h.run
  exact hrun.exists_finished h.isCalm h.isResting hl

theorem getElem?_calls (h : EndedRun p s w calls labels m) (i : Nat) :
    calls[i]? = m.threads[i]?.map fun t => t.finished.toList.map Prod.fst := by
  rw [← h.made, List.getElem?_map]

/-- The changes of a thread are those of its calls, in their order. -/
theorem changes_of_thread (h : EndedRun p s w calls labels m) (i : Nat) :
    (labels.filter fun l => l.thread == i).filterMap Label.change?
      = (calls.getD i []).filterMap (Call.change p.capacity) := by
  obtain ⟨stops, hrun⟩ := h.run
  rw [List.getD_eq_getElem?_getD, h.getElem?_calls]
  rcases ht : m.threads[i]? with _ | t
  · have hnone : labels.filter (fun l => l.thread == i) = [] := by
      refine List.filter_eq_nil_iff.2 fun l hl hi => ?_
      obtain rfl : l.thread = i := by simpa using hi
      rw [List.getElem?_eq_getElem (hrun.traced.1 l hl)] at ht
      cases ht
    rw [hnone]
    rfl
  · exact hrun.changes_of_thread h.isCalm h.isResting ht

/-- What has changed is what calls have asked for. -/
theorem mem_history (h : EndedRun p s w calls labels m) {change : BitOp × Nat} :
    change ∈ history labels
      ↔ ∃ thread ∈ calls, ∃ call ∈ thread, call.change p.capacity = some change := by
  constructor
  · intro hmem
    obtain ⟨l, hl, hchange⟩ := List.mem_filterMap.1 hmem
    have hthread : change ∈ (labels.filter fun l' => l'.thread == l.thread).filterMap Label.change? :=
      List.mem_filterMap.2 ⟨l, List.mem_filter.2 ⟨hl, beq_self_eq_true _⟩, hchange⟩
    rw [h.changes_of_thread, List.getD_eq_getElem?_getD] at hthread
    obtain ⟨call, hcall, hc⟩ := List.mem_filterMap.1 hthread
    rcases ht : calls[l.thread]? with _ | thread
    · simp [ht] at hcall
    · rw [ht] at hcall
      exact ⟨thread, List.mem_of_getElem? ht, call, hcall, hc⟩
  · rintro ⟨thread, ht, hcall⟩
    obtain ⟨i, hi⟩ := List.getElem?_of_mem ht
    have hmem : change ∈ (calls.getD i []).filterMap (Call.change p.capacity) := by
      rw [List.getD_eq_getElem?_getD, hi]
      exact List.mem_filterMap.2 hcall
    rw [← h.changes_of_thread] at hmem
    exact history_subset List.filter_sublist hmem

theorem failures_eq (h : EndedRun p s w calls labels m) :
    m.threads.map Thread.failures = calls.map (List.countP (Call.isRefused p.capacity)) := by
  obtain ⟨stops, hrun⟩ := h.run
  rw [← h.made, List.map_map]
  refine List.map_congr_left fun t ht => ?_
  obtain ⟨i, ht⟩ := List.getElem?_of_mem ht
  simp only [Function.comp_apply, List.countP_map, Thread.failures]
  refine List.countP_congr fun x hx => ?_
  obtain ⟨n, hn⟩ := List.getElem?_of_mem hx
  have hget : t.finished[n]? = some (x.1, x.2) := by simpa using hn
  rw [(hrun.call_ended h.isCalm ht hget).2.2]
  simp

end EndedRun

/-! ## What remains -/

/-- What can be seen of a bitset with these bits, after threads have made these calls. -/
def Plain.remains (p : Plain) (calls : List (List Call)) : Remains where
  contents := (List.range p.capacity).map fun i => some (p.bit i)
  count := .returned (.ok (.count p.ones))
  failures := calls.map (List.countP (Call.isRefused p.capacity))

theorem Plain.contents_bitSet {p : Plain} (hp : 0 < p.capacity) (s : Strategy) (w : Width) :
    (p.bitSet s w).contents = (List.range p.capacity).map fun i => some (p.bit i) := by
  unfold BitSet.contents
  refine List.map_congr_left fun i hi => ?_
  have hi : i < p.capacity := List.mem_range.1 hi
  simp only [perform_bitSet hp, Plain.perform, Plain.getElem?_bits hi]

theorem CompleteRun.remains_eq {p : Plain} {s : Strategy} {calls : List (List Call)}
    {labels : List (Label w Call Reply)} {m : Machine w Call Reply} (hp : 0 < p.capacity)
    (h : CompleteRun p s w calls labels m) :
    (p.bitSet s w).remains m = (p.after labels).remains calls := by
  obtain ⟨stops, hrun⟩ := h.run
  have hrests := hrun.rests_calm h.isSynchronized h.isCalm h.isResting
  have hcap : 0 < (p.after labels).capacity := by rwa [Plain.capacity_after]
  simp only [BitSet.remains, Plain.remains, hrests, Plain.contents_bitSet hcap, perform_bitSet hcap,
    h.failures_eq, Plain.capacity_after, Plain.perform]

end SharedBits
