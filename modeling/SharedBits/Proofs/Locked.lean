import SharedBits.Proofs.Paths

/-!
# The bitsets with locks

Threads that share a bitset whose words are kept under locks, one for all words or one for each, in
every interleaving of taking locks, reading, computing, writing back and giving locks back. An update is
inside its section from when it reads the word until it writes it back (`Inside`). `LockedRun` says what
holds at each point of a run, and `locked_linearizes` that it does: sections of one word do not overlap,
the updates take effect one at a time, where they write back, and every word that is read is one that
they have left there. A panic may poison a lock; then, and only then, a call that is in range is
refused, and a refused call writes nothing.
-/

namespace SharedBits

variable {w : Width}

/-- Thread `i` is inside an update of a word: it has read `v` there, and since then has only
computed. -/
def Inside (labels : List (Label w Call Reply)) (i cell : Nat) (v : Word w) : Prop :=
  ∃ n op k before after, (labels.filter fun l => l.thread == i)
      = before ++ ⟨i, n, .update op k, .loaded cell v⟩ :: after
    ∧ ∀ l ∈ after, l.event = .computed

/-- A call was refused because a thread had panicked: it found its lock poisoned and touched no
word. -/
def FoundPoisoned (labels : List (Label w Call Reply)) (i n : Nat) (guard : Guard) (r : Reply) :
    Prop :=
  r = .error .lockPoisoned
    ∧ eventsOf labels i n = [.began, .acquired guard true, .released guard, .returned r]
    ∧ ∃ l ∈ labels, l.event = .panicked

/-- The updates of a bitset with locks take effect where they write back, and its reads where they
load. -/
structure LockedRun (s : Strategy) (capacity : Nat) (labels : List (Label w Call Reply))
    (m : Machine w Call Reply) : Prop where
  /-- No two threads are inside updates of one word. -/
  apart : ∀ i j cell v v', Inside labels i cell v → Inside labels j cell v' → i = j
  /-- Nobody changes the word that an update has read before the update writes it back. -/
  steady : ∀ i cell v, Inside labels i cell v → m.store.cells.load? cell = some v
  /-- The words are those of clear bits after the updates that have written back, in their order. -/
  words : m.store.cells = (bitsAfter capacity labels).packed w
  /-- An update that has returned has written back once on its way, under the lock of its word. -/
  updated : ∀ i n op k r, ⟨i, n, .update op k, .returned r⟩ ∈ labels → k < capacity →
    ∃ l, s.lockOfWord (Address.locate w k).word = some l
      ∧ ((r = .ok .done ∧ ∃ v old, eventsOf labels i n
        = [.began, .acquired ⟨l, .exclusive⟩ false, .loaded (Address.locate w k).word v, .computed,
          .stored (Address.locate w k).word old (op.apply v ((Address.locate w k).mask w)),
          .released ⟨l, .exclusive⟩, .returned r])
        ∨ FoundPoisoned labels i n ⟨l, .exclusive⟩ r)
  /-- No call has written twice, whether it has returned or not. -/
  once : ∀ l ∈ labels, (eventsOf labels l.thread l.number).countP Event.isWrite ≤ 1
  /-- Every word that is read is that of the updates that have written back before. -/
  loads : ∀ pre post i n call cell v, labels = pre ++ ⟨i, n, call, .loaded cell v⟩ :: post →
    ((bitsAfter capacity pre).packed w).load? cell = some v
  /-- A read that has returned has loaded its word once, under the lock of its word, and gives the bit
  of the updates that had written back before. -/
  read : ∀ i n k r, ⟨i, n, .get k, .returned r⟩ ∈ labels → k < capacity →
    ∃ l, s.lockOfWord (Address.locate w k).word = some l
      ∧ ((∃ pre post v,
          labels = pre ++ ⟨i, n, .get k, .loaded (Address.locate w k).word v⟩ :: post
            ∧ r = .ok (.bit ((bitsAfter capacity pre).bit k))
            ∧ eventsOf labels i n = [.began, .acquired ⟨l, s.modeOf (.get k)⟩ false,
              .loaded (Address.locate w k).word v, .computed, .released ⟨l, s.modeOf (.get k)⟩,
              .returned r])
        ∨ FoundPoisoned labels i n ⟨l, s.modeOf (.get k)⟩ r)
  /-- A call that is out of range touches nothing. -/
  refused : ∀ l ∈ labels, ∀ k, l.call.index? = some k → capacity ≤ k →
    l.event = .began ∨ l.event = .returned (refusalOf k capacity)

/-! ## Sections -/

section Inside

variable {labels : List (Label w Call Reply)} {i j n cell : Nat} {v : Word w} {call : Call}
  {e : Event w Reply}

theorem inside_snoc_of_ne (hj : j ≠ i) :
    Inside (labels ++ [⟨i, n, call, e⟩]) j cell v ↔ Inside labels j cell v := by
  have hne : (i == j) = false := by simpa using Ne.symm hj
  rw [Inside, Inside, List.filter_append, List.filter_singleton, hne, Bool.cond_false,
    List.append_nil]

/-- A thread comes inside by reading in an update, and stays inside while it computes. -/
theorem inside_snoc (h : Inside (labels ++ [⟨i, n, call, e⟩]) i cell v) :
    (e = .loaded cell v ∧ ∃ op k, call = .update op k) ∨ (e = .computed ∧ Inside labels i cell v) := by
  obtain ⟨n', op, k, before, after, heq, hafter⟩ := h
  rw [List.filter_append, List.filter_singleton, beq_self_eq_true, Bool.cond_true] at heq
  rcases snoc_eq_append_cons heq with ⟨-, hlast, -⟩ | ⟨after', rfl, hinit⟩
  · cases hlast
    exact .inl ⟨rfl, op, k, rfl⟩
  · exact .inr ⟨hafter ⟨i, n, call, e⟩ (by simp), n', op, k, before, after', hinit,
      fun l hl => hafter l (List.mem_append_left _ hl)⟩

variable {s : Strategy} {m : Machine w Call Reply} {capacity : Nat} {b : BitSet w}
  {stops : Ending Reply → Bool} {calls : List (List Call)}

/-- A thread inside an update holds the lock of the word alone, and finds there what it has read. -/
theorem Run.inside (hs : s.isSynchronized = true) (hb : BitSet.create s w capacity = .ok b)
    (h : Run (b.callers stops) (.start b.store calls) labels m) :
    ∀ i cell v, Inside labels i cell v → ∃ t, m.threads[i]? = some t
      ∧ t.held = s.guardOf .exclusive cell ∧ s.lockOfWord cell ≠ none
      ∧ m.store.cells.load? cell = some v := by
  refine h.of_moves (fun labels m => ∀ i cell v, Inside labels i cell v →
    ∃ t, m.threads[i]? = some t ∧ t.held = s.guardOf .exclusive cell
      ∧ s.lockOfWord cell ≠ none ∧ m.store.cells.load? cell = some v) ?_ ?_
  · rintro i cell v ⟨n, op, k, before, after, heq, -⟩
    simp at heq
  · intro labels m mishap i t call e store t' hr ih ht hm j cell v hin
    have hh := hr.holding_callers hs hb
    by_cases hj : j = i
    · subst hj
      have ht' : (m.threads.set j t')[j]? = some t' := (getElem?_set_thread ht).2 (.inl ⟨rfl, rfl⟩)
      refine ⟨t', ht', ?_⟩
      rcases inside_snoc hin with ⟨rfl, op, k, rfl⟩ | ⟨rfl, hold⟩
      · generalize hcall : Call.update op k = call at hm
        cases hm with
        | @passes a a' _ hc hp hf =>
          have hobeys := hh.obeys j t a ht hc
          cases hp with
          | loaded v hr =>
            rw [hr, ← hcall] at hobeys
            obtain ⟨⟨hheld, hlock⟩, -⟩ := hobeys
            exact ⟨hheld, hlock rfl, hf⟩
      · obtain ⟨t₁, ht₁, hheld, hlock, hv⟩ := ih j cell v hold
        obtain rfl := Option.some.inj (ht.symm.trans ht₁)
        cases hm with
        | passes hc hp hf =>
          rw [Thread.held_of_current hc] at hheld
          cases hp with
          | computed hr => exact ⟨hheld, hlock, hv⟩
    · obtain ⟨u, hu, hheld, hlock, hv⟩ := ih j cell v ((inside_snoc_of_ne hj).1 hin)
      refine ⟨u, (getElem?_set_thread ht).2 (.inr ⟨hj, hu⟩), hheld, hlock, ?_⟩
      cases hm with
      | begins hc hw => exact hv
      | passes hc hp hf =>
        exact (hh.load?_after (Ne.symm hj) ht hu hc hp hheld hlock).trans hv
      | returns hc hr => exact hv
      | panics hc hd =>
        show (m.store.abandon _).cells.load? cell = some v
        rw [Store.cells_abandon]
        exact hv

/-- Sections of one word do not overlap. -/
theorem Run.inside_unique (hs : s.isSynchronized = true) (hb : BitSet.create s w capacity = .ok b)
    (h : Run (b.callers stops) (.start b.store calls) labels m) {v' : Word w}
    (hi : Inside labels i cell v) (hj : Inside labels j cell v') : i = j := by
  by_contra hij
  obtain ⟨t, ht, hheld, hlock, -⟩ := h.inside hs hb i cell v hi
  obtain ⟨u, hu, hheld', -, -⟩ := h.inside hs hb j cell v' hj
  obtain ⟨l, hl⟩ := Option.ne_none_iff_exists'.1 hlock
  have hmem := Strategy.mem_guardOf hl .exclusive
  refine (h.holding_callers hs hb).alone hij ht hu (l := l) (hheld ▸ hmem) (hheld' ▸ hmem)

end Inside

/-! ## The ways of the calls -/

namespace Strategy

open Prog

variable {s : Strategy} {span : Span} {reading : Mode} {k capacity : Nat}

theorem lockOfWord_locked (hd : s.discipline = .locked span reading) (word : Nat) :
    s.lockOfWord word = some (span.lockOf word) := by
  simp only [lockOfWord, hd]

theorem modeOf_get_locked (hd : s.discipline = .locked span reading) :
    s.modeOf (.get k) = reading := by
  simp only [modeOf, hd]

theorem code_locked_get (hd : s.discipline = .locked span reading) (hk : k < capacity) :
    s.code w capacity (.get k)
      = acquire ⟨span.lockOf (Address.locate w k).word, reading⟩ fun poisoned =>
        if poisoned then release ⟨span.lockOf (Address.locate w k).word, reading⟩
          (ret (.error .lockPoisoned))
        else read (Address.locate w k).word fun v => compute
          (release ⟨span.lockOf (Address.locate w k).word, reading⟩
            (ret (.ok (.bit ((Address.locate w k).bitIn v))))) := by
  simp only [code, Strategy.get, requireIndex_eq_ok_iff.2 hk, getAt, hd, guarded, readBit, Prog.bind]
  refine congrArg (acquire _) (funext fun poisoned => ?_)
  cases poisoned <;> rfl

theorem code_locked_update (hd : s.discipline = .locked span reading) (hk : k < capacity)
    (op : BitOp) : s.code w capacity (.update op k)
      = acquire ⟨span.lockOf (Address.locate w k).word, .exclusive⟩ fun poisoned =>
        if poisoned then release ⟨span.lockOf (Address.locate w k).word, .exclusive⟩
          (ret (.error .lockPoisoned))
        else read (Address.locate w k).word fun v => compute
          (write (Address.locate w k).word (op.apply v ((Address.locate w k).mask w))
            (release ⟨span.lockOf (Address.locate w k).word, .exclusive⟩ (ret (.ok .done)))) := by
  simp only [code, Strategy.update, requireIndex_eq_ok_iff.2 hk, updateAt, hd, guarded, changeBit,
    Prog.bind]
  refine congrArg (acquire _) (funext fun poisoned => ?_)
  cases poisoned <;> rfl

end Strategy

section Paths

variable {s : Strategy} {span : Span} {reading : Mode} {k capacity : Nat} {r : Reply}
  {a b : Active w Call Reply} {es : List (Event w Reply)}

/-- The way of a call that finds its lock poisoned and returns. -/
theorem Active.Follows.poisoned {guard : Guard} (h : a.Follows es b)
    (ha : a.rest = .release guard (.ret (.error .lockPoisoned))) (hr : b.rest = .ret r) :
    r = .error .lockPoisoned ∧ es = [.released guard] := by
  rcases h.of_release ha with ⟨rfl, rfl⟩ | ⟨es', rfl, hrelease⟩
  · rw [ha] at hr
    cases hr
  · obtain ⟨rfl, rfl⟩ := hrelease.of_ret rfl
    cases hr
    exact ⟨rfl, rfl⟩

/-- The way of an update that returns. -/
theorem Active.Follows.locked_update (hd : s.discipline = .locked span reading) {op : BitOp}
    (h : a.Follows es b) (hk : k < capacity) (ha : a.rest = s.code w capacity (.update op k))
    (hr : b.rest = .ret r) : ∃ l, s.lockOfWord (Address.locate w k).word = some l
      ∧ ((r = .ok .done ∧ ∃ v old, es = [.acquired ⟨l, .exclusive⟩ false,
          .loaded (Address.locate w k).word v, .computed,
          .stored (Address.locate w k).word old (op.apply v ((Address.locate w k).mask w)),
          .released ⟨l, .exclusive⟩])
        ∨ (r = .error .lockPoisoned
          ∧ es = [.acquired ⟨l, .exclusive⟩ true, .released ⟨l, .exclusive⟩])) := by
  rw [Strategy.code_locked_update hd hk] at ha
  refine ⟨span.lockOf (Address.locate w k).word, Strategy.lockOfWord_locked hd _, ?_⟩
  rcases h.of_acquire ha with ⟨rfl, rfl⟩ | ⟨_ | _, es', rfl, hacquire⟩
  · rw [ha] at hr
    cases hr
  · rcases hacquire.of_read rfl with ⟨rfl, rfl⟩ | ⟨v, es', rfl, hload⟩
    · cases hr
    rcases hload.of_compute rfl with ⟨rfl, rfl⟩ | ⟨es', rfl, hcompute⟩
    · cases hr
    rcases hcompute.of_write rfl with ⟨rfl, rfl⟩ | ⟨old, es', rfl, hstore⟩
    · cases hr
    rcases hstore.of_release rfl with ⟨rfl, rfl⟩ | ⟨es', rfl, hrelease⟩
    · cases hr
    obtain ⟨rfl, rfl⟩ := hrelease.of_ret rfl
    cases hr
    exact .inl ⟨rfl, v, old, rfl⟩
  · obtain ⟨rfl, rfl⟩ := hacquire.poisoned rfl hr
    exact .inr ⟨rfl, rfl⟩

/-- The way of a read that returns. -/
theorem Active.Follows.locked_get (hd : s.discipline = .locked span reading)
    (h : a.Follows es b) (hk : k < capacity) (ha : a.rest = s.code w capacity (.get k))
    (hr : b.rest = .ret r) : ∃ l, s.lockOfWord (Address.locate w k).word = some l
      ∧ ((∃ v, r = .ok (.bit ((Address.locate w k).bitIn v))
          ∧ es = [.acquired ⟨l, s.modeOf (.get k)⟩ false, .loaded (Address.locate w k).word v,
            .computed, .released ⟨l, s.modeOf (.get k)⟩])
        ∨ (r = .error .lockPoisoned
          ∧ es = [.acquired ⟨l, s.modeOf (.get k)⟩ true, .released ⟨l, s.modeOf (.get k)⟩])) := by
  rw [Strategy.code_locked_get hd hk] at ha
  rw [Strategy.modeOf_get_locked hd]
  refine ⟨span.lockOf (Address.locate w k).word, Strategy.lockOfWord_locked hd _, ?_⟩
  rcases h.of_acquire ha with ⟨rfl, rfl⟩ | ⟨_ | _, es', rfl, hacquire⟩
  · rw [ha] at hr
    cases hr
  · rcases hacquire.of_read rfl with ⟨rfl, rfl⟩ | ⟨v, es', rfl, hload⟩
    · cases hr
    rcases hload.of_compute rfl with ⟨rfl, rfl⟩ | ⟨es', rfl, hcompute⟩
    · cases hr
    rcases hcompute.of_release rfl with ⟨rfl, rfl⟩ | ⟨es', rfl, hrelease⟩
    · cases hr
    obtain ⟨rfl, rfl⟩ := hrelease.of_ret rfl
    cases hr
    exact .inl ⟨v, rfl, rfl⟩
  · obtain ⟨rfl, rfl⟩ := hacquire.poisoned rfl hr
    exact .inr ⟨rfl, rfl⟩

end Paths

section Runs

variable {s : Strategy} {m : Machine w Call Reply} {capacity : Nat} {b : BitSet w}
  {stops : Ending Reply → Bool} {calls : List (List Call)} {labels : List (Label w Call Reply)}

theorem Run.foundPoisoned (hb : BitSet.create s w capacity = .ok b)
    (h : Run (b.callers stops) (.start b.store calls) labels m) {i n : Nat} {call : Call}
    {guard : Guard} {r : Reply} (hl : ⟨i, n, call, .returned r⟩ ∈ labels)
    (hr : r = .error .lockPoisoned)
    (hes : eventsOf labels i n
      = [.began, .acquired guard true, .released guard, .returned r]) :
    FoundPoisoned labels i n guard r := by
  have hmem := h.label_of_event hl (e := .acquired guard true) (by simp [hes])
  refine ⟨hr, hes, h.panicked_of_acquired (fun l lock hl => ?_) hmem rfl⟩
  obtain rfl := BitSet.eq_of_create hb
  rw [Store.getElem?_locks_fresh hl]

theorem Strategy.locked_of_mem
    (hs : s ∈ [fullMutex, globalRwLock, stripedRwLock, stripedMutex]) :
    s.isSynchronized = true ∧ ∃ span reading, s.discipline = .locked span reading := by
  simp only [List.mem_cons, List.not_mem_nil, or_false] at hs
  rcases hs with rfl | rfl | rfl | rfl <;> exact ⟨rfl, _, _, rfl⟩

/-- Threads that share a new bitset with locks linearise, however they interleave. -/
theorem locked_linearizes (hs : s ∈ [Strategy.fullMutex, .globalRwLock, .stripedRwLock, .stripedMutex])
    (hb : BitSet.create s w capacity = .ok b)
    (h : Run (b.callers stops) (.start b.store calls) labels m) : LockedRun s capacity labels m := by
  obtain ⟨hsync, span, reading, hd⟩ := Strategy.locked_of_mem hs
  have hstrategy : b.strategy = s ∧ b.capacity = capacity := by
    rw [BitSet.eq_of_create hb]
    exact ⟨rfl, rfl⟩
  refine
    { apart := fun i j cell v v' hi hj => h.inside_unique hsync hb hi hj
      steady := fun i cell v hi => ?_
      words := h.cells_eq hsync hb
      updated := fun i n op k r hl hk => ?_
      once := fun l hl => h.writes_le_one hl
      loads := fun pre post i n call cell v hsplit => h.load_eq hsync hb hsplit
      read := fun i n k r hl hk => ?_
      refused := fun l hl k hi hk => ?_ }
  · obtain ⟨t, -, -, -, hv⟩ := h.inside hsync hb i cell v hi
    exact hv
  · obtain ⟨es, a, hes, hf, hr⟩ := h.events_of_returned hl
    obtain ⟨l, hlock, ⟨rfl, v, old, rfl⟩ | ⟨rfl, rfl⟩⟩ :=
      hf.locked_update hd hk (by rw [← hstrategy.1, ← hstrategy.2]; rfl) hr
    · exact ⟨l, hlock, .inl ⟨rfl, v, old, hes⟩⟩
    · exact ⟨l, hlock, .inr (h.foundPoisoned hb hl rfl hes)⟩
  · obtain ⟨es, a, hes, hf, hr⟩ := h.events_of_returned hl
    obtain ⟨l, hlock, ⟨v, rfl, rfl⟩ | ⟨rfl, rfl⟩⟩ :=
      hf.locked_get hd hk (by rw [← hstrategy.1, ← hstrategy.2]; rfl) hr
    · have hmem := h.label_of_event hl (e := .loaded (Address.locate w k).word v) (by simp [hes])
      obtain ⟨pre, post, hsplit⟩ := List.append_of_mem hmem
      refine ⟨l, hlock, .inl ⟨pre, post, v, hsplit, ?_, hes⟩⟩
      rw [bitIn_bitsAfter hk (h.load_eq hsync hb hsplit)]
    · exact ⟨l, hlock, .inr (h.foundPoisoned hb hl rfl hes)⟩
  · rw [← hstrategy.2] at hk ⊢
    exact h.event_of_refused hl hi hk

/-- Two threads change one word in turn and the first then reads it, while the third is inside an update
of the other word. -/
theorem locked_linearizes_two_words : ∃ (b : BitSet .w8) (labels : List (Label .w8 Call Reply))
    (m : Machine .w8 Call Reply), BitSet.create .stripedRwLock .w8 10 = .ok b
      ∧ Run (b.callers fun _ => false) (.start b.store [[.update .set 0, .get 3], [.update .flip 3],
        [.update .flip 9]]) labels m
      ∧ LockedRun .stripedRwLock 10 labels m
      ∧ history labels = [(.set, 0), (.flip, 3)]
      ∧ eventsOf labels 0 1 = [.began, .acquired ⟨0, .shared⟩ false, .loaded 0 9, .computed,
        .released ⟨0, .shared⟩, .returned (.ok (.bit true))]
      ∧ Inside labels 2 1 0 := by
  obtain ⟨⟨labels, m⟩, hf, hlabels⟩ : ∃ r : List (Label .w8 Call Reply) × Machine .w8 Call Reply,
      (BitSet.callers ⟨.stripedRwLock, 10, .fresh 2 2⟩ fun _ => false).follow
          (.start (.fresh 2 2) [[.update .set 0, .get 3], [.update .flip 3], [.update .flip 9]])
          [⟨0, .none⟩, ⟨0, .none⟩, ⟨0, .none⟩, ⟨1, .none⟩, ⟨2, .none⟩, ⟨2, .none⟩, ⟨0, .none⟩,
            ⟨0, .none⟩, ⟨0, .none⟩, ⟨1, .none⟩, ⟨2, .none⟩, ⟨1, .none⟩, ⟨1, .none⟩, ⟨1, .none⟩,
            ⟨1, .none⟩, ⟨0, .none⟩, ⟨1, .none⟩, ⟨0, .none⟩, ⟨0, .none⟩, ⟨0, .none⟩, ⟨0, .none⟩,
            ⟨0, .none⟩, ⟨0, .none⟩] = some r
        ∧ history r.1 = [(.set, 0), (.flip, 3)]
        ∧ eventsOf r.1 0 1 = [.began, .acquired ⟨0, .shared⟩ false, .loaded 0 9, .computed,
          .released ⟨0, .shared⟩, .returned (.ok (.bit true))]
        ∧ Inside r.1 2 1 0 :=
    ⟨_, rfl, rfl, rfl, 0, .flip, 9, [⟨2, 0, .update .flip 9, .began⟩,
      ⟨2, 0, .update .flip 9, .acquired ⟨1, .exclusive⟩ false⟩], [], rfl, by simp⟩
  have hrun := Run.of_follow .start hf
  exact ⟨_, labels, m, rfl, hrun, locked_linearizes (by decide) rfl hrun, hlabels⟩

end Runs

end SharedBits
