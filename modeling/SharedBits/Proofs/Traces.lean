import SharedBits.Proofs.Steps

/-!
# The events of one call

The labels of a run, taken call by call, are the ways of the programs: the events of a call begin with
its beginning, then follow its program node by node (`Active.Follows`), and if the call has ended, its
last event says how. `Run.traced` says so of every call of every run, and `Run.events_of_returned` and
`Run.events_of_label` are what proofs about single calls use.
-/

namespace SharedBits

variable {w : Width} {κ ρ : Type}

/-- The labels of call number `n` of thread `i`, in order. -/
def labelsOf (labels : List (Label w κ ρ)) (i n : Nat) : List (Label w κ ρ) :=
  labels.filter fun l => l.thread == i && l.number == n

/-- The events of call number `n` of thread `i`, in order. -/
def eventsOf (labels : List (Label w κ ρ)) (i n : Nat) : List (Event w ρ) :=
  (labelsOf labels i n).map Label.event

section Labels

variable {labels : List (Label w κ ρ)} {i j n k : Nat} {call : κ} {event : Event w ρ}

theorem mem_labelsOf {l : Label w κ ρ} :
    l ∈ labelsOf labels i n ↔ l ∈ labels ∧ l.thread = i ∧ l.number = n := by
  simp [labelsOf]

theorem labelsOf_snoc (labels : List (Label w κ ρ)) (i n : Nat) (call : κ) (event : Event w ρ) :
    labelsOf (labels ++ [⟨i, n, call, event⟩]) i n
      = labelsOf labels i n ++ [⟨i, n, call, event⟩] := by
  simp [labelsOf]

theorem labelsOf_snoc_of_ne (h : j ≠ i ∨ k ≠ n) :
    labelsOf (labels ++ [⟨i, n, call, event⟩]) j k = labelsOf labels j k := by
  have : ¬ (i = j ∧ n = k) := fun hij => by
    rcases h with h | h
    · exact h hij.1.symm
    · exact h hij.2.symm
  simpa [labelsOf] using this

theorem eventsOf_append (labels labels' : List (Label w κ ρ)) (i n : Nat) :
    eventsOf (labels ++ labels') i n = eventsOf labels i n ++ eventsOf labels' i n := by
  simp only [eventsOf, labelsOf, List.filter_append, List.map_append]

/-- Where the first and the last label of a call stand, and those between them. -/
theorem labelsOf_span {l l' : Label w κ ρ} {between : List (Label w κ ρ)}
    (h : labelsOf labels i n = l :: (between ++ [l'])) : ∃ before during after,
      labels = before ++ l :: (during ++ l' :: after) ∧ labelsOf before i n = []
        ∧ labelsOf during i n = between := by
  obtain ⟨before, rest, rfl, hbefore, -, hrest⟩ := List.filter_eq_cons_iff.1 h
  obtain ⟨during, rest', rfl, hduring, hrest'⟩ := List.filter_eq_append_iff.1 hrest
  obtain ⟨quiet, after, rfl, hquiet, -, -⟩ := List.filter_eq_cons_iff.1 hrest'
  refine ⟨before, during ++ quiet, after, by simp, List.filter_eq_nil_iff.2 hbefore, ?_⟩
  rw [labelsOf, List.filter_append, hduring, List.filter_eq_nil_iff.2 hquiet, List.append_nil]

theorem eventsOf_of_labelsOf {es : List (Event w ρ)}
    (h : labelsOf labels i n = es.map (Label.mk i n call)) : eventsOf labels i n = es := by
  rw [eventsOf, h, List.map_map]
  exact List.map_id es

end Labels

namespace Active

/-- The calls that events lead from one to the other. -/
inductive Follows : Active w κ ρ → List (Event w ρ) → Active w κ ρ → Prop
  | nil (a : Active w κ ρ) : Follows a [] a
  | cons {a a' b : Active w κ ρ} {e : Event w ρ} {es : List (Event w ρ)} :
    a.Passes e a' → Follows a' es b → Follows a (e :: es) b

/-- All events of a call after its beginning, if it has ended. -/
inductive Ends (a : Active w κ ρ) : List (Event w ρ) → Ending ρ → Prop
  | returned {es b r} (hf : a.Follows es b) (hr : b.rest = .ret r) :
    Ends a (es ++ [.returned r]) (.returned r)
  | panicked {es b} (hf : a.Follows es b) (hr : ∀ r, b.rest ≠ .ret r) :
    Ends a (es ++ [.panicked]) .panicked

variable {a a' b : Active w κ ρ} {e : Event w ρ} {es : List (Event w ρ)}

theorem Follows.snoc (h : a.Follows es b) (hp : b.Passes e a') : a.Follows (es ++ [e]) a' := by
  induction h with
  | nil => exact .cons hp (.nil _)
  | cons hq _ ih => exact .cons hq (ih hp)

theorem Follows.call_eq (h : a.Follows es b) : b.call = a.call := by
  induction h with
  | nil => rfl
  | cons hp _ ih => exact ih.trans hp.call_eq

/-- A call does not return on its way. -/
theorem Follows.not_returned (h : a.Follows es b) (r : ρ) : .returned r ∉ es := by
  induction h with
  | nil => exact List.not_mem_nil
  | cons hp _ ih =>
    intro hmem
    rcases List.mem_cons.1 hmem with rfl | hmem
    · cases hp
    · exact ih hmem

/-! ## Node by node -/

theorem Follows.of_ret {r : ρ} (h : a.Follows es b) (hr : a.rest = .ret r) : es = [] ∧ b = a := by
  cases h with
  | nil => exact ⟨rfl, rfl⟩
  | cons hp _ => cases hp <;> simp_all

theorem Follows.of_read {cell next} (h : a.Follows es b) (hr : a.rest = .read cell next) :
    (es = [] ∧ b = a)
      ∨ ∃ v es', es = .loaded cell v :: es' ∧ { a with rest := next v }.Follows es' b := by
  cases h with
  | nil => exact .inl ⟨rfl, rfl⟩
  | cons hp hf =>
    cases hp with
    | loaded v hr' =>
      obtain ⟨rfl, rfl⟩ := Prog.read.inj (hr'.symm.trans hr)
      exact .inr ⟨v, _, rfl, hf⟩
    | _ => simp_all

theorem Follows.of_write {cell value next} (h : a.Follows es b)
    (hr : a.rest = .write cell value next) :
    (es = [] ∧ b = a)
      ∨ ∃ v es', es = .stored cell v value :: es' ∧ { a with rest := next }.Follows es' b := by
  cases h with
  | nil => exact .inl ⟨rfl, rfl⟩
  | cons hp hf =>
    cases hp with
    | stored v hr' =>
      obtain ⟨rfl, rfl, rfl⟩ := Prog.write.inj (hr'.symm.trans hr)
      exact .inr ⟨v, _, rfl, hf⟩
    | _ => simp_all

theorem Follows.of_acquire {guard next} (h : a.Follows es b) (hr : a.rest = .acquire guard next) :
    (es = [] ∧ b = a) ∨ ∃ poisoned es', es = .acquired guard poisoned :: es'
      ∧ { a with rest := next poisoned, held := guard :: a.held }.Follows es' b := by
  cases h with
  | nil => exact .inl ⟨rfl, rfl⟩
  | cons hp hf =>
    cases hp with
    | acquired p hr' =>
      obtain ⟨rfl, rfl⟩ := Prog.acquire.inj (hr'.symm.trans hr)
      exact .inr ⟨p, _, rfl, hf⟩
    | _ => simp_all

theorem Follows.of_release {guard next} (h : a.Follows es b) (hr : a.rest = .release guard next) :
    (es = [] ∧ b = a) ∨ ∃ es', es = .released guard :: es'
      ∧ { a with rest := next, held := a.held.erase guard }.Follows es' b := by
  cases h with
  | nil => exact .inl ⟨rfl, rfl⟩
  | cons hp hf =>
    cases hp with
    | released hr' =>
      obtain ⟨rfl, rfl⟩ := Prog.release.inj (hr'.symm.trans hr)
      exact .inr ⟨_, rfl, hf⟩
    | _ => simp_all

theorem Follows.of_compute {next} (h : a.Follows es b) (hr : a.rest = .compute next) :
    (es = [] ∧ b = a) ∨ ∃ es', es = .computed :: es' ∧ { a with rest := next }.Follows es' b := by
  cases h with
  | nil => exact .inl ⟨rfl, rfl⟩
  | cons hp hf =>
    cases hp with
    | computed hr' =>
      obtain rfl := Prog.compute.inj (hr'.symm.trans hr)
      exact .inr ⟨_, rfl, hf⟩
    | _ => simp_all

end Active

/-- The cell and the word of a load. -/
def Event.load? : Event w ρ → Option (Nat × Word w)
  | loaded cell word => some (cell, word)
  | _ => none

/-- Whether an event is an attempt at an optimistic update that changed nothing. -/
def Event.isAttempt : Event w ρ → Bool
  | observed _ _ => true
  | missed _ _ _ => true
  | _ => false

/-- An optimistic update: attempts that change nothing, and at most one that commits. -/
theorem Active.Follows.of_modify {a b : Active w κ ρ} {es : List (Event w ρ)} {cell transform next}
    (h : a.Follows es b) (hr : a.rest = .modify cell transform next) :
    ((∀ e ∈ es, e.isAttempt = true) ∧ b.rest = a.rest) ∨ ∃ tries v es',
      es = tries ++ .committed cell v (transform v) :: es' ∧ (∀ e ∈ tries, e.isAttempt = true)
        ∧ { a with rest := next v, seen := none }.Follows es' b := by
  induction h with
  | nil => exact .inl ⟨fun _ he => absurd he List.not_mem_nil, rfl⟩
  | @cons a a' b e es hp hf ih =>
    cases hp with
    | observed v hr' hs =>
      rcases ih hr with ⟨htry, hb⟩ | ⟨tries, v', es', rfl, htry, hf'⟩
      · exact .inl ⟨List.forall_mem_cons.2 ⟨rfl, htry⟩, hb⟩
      · exact .inr ⟨_ :: tries, v', es', rfl, List.forall_mem_cons.2 ⟨rfl, htry⟩, hf'⟩
    | missed actual hr' hs =>
      rcases ih hr with ⟨htry, hb⟩ | ⟨tries, v', es', rfl, htry, hf'⟩
      · exact .inl ⟨List.forall_mem_cons.2 ⟨rfl, htry⟩, hb⟩
      · exact .inr ⟨_ :: tries, v', es', rfl, List.forall_mem_cons.2 ⟨rfl, htry⟩, hf'⟩
    | committed hr' hs =>
      obtain ⟨rfl, rfl, rfl⟩ := Prog.modify.inj (hr'.symm.trans hr)
      exact .inr ⟨[], _, es, rfl, fun _ he => absurd he List.not_mem_nil, hf⟩
    | loaded _ hr' => simp [hr'] at hr
    | stored _ hr' => simp [hr'] at hr
    | acquired _ hr' => simp [hr'] at hr
    | released hr' => simp [hr'] at hr
    | computed hr' => simp [hr'] at hr

/-! ## Runs -/

/-- The labels of thread `i` are the ways of its calls. -/
structure Thread.Traced (sys : System w κ ρ) (labels : List (Label w κ ρ)) (i : Nat)
    (t : Thread w κ ρ) : Prop where
  /-- A call that has not begun has done nothing. -/
  unbegun : ∀ n, t.finished.size ≤ n → (t.current = none ∨ t.finished.size < n) →
    labelsOf labels i n = []
  /-- A call under way has followed its program. -/
  current : ∀ a, t.current = some a → ∃ es,
    labelsOf labels i t.finished.size
        = (Event.began :: es).map (Label.mk i t.finished.size a.call)
      ∧ (sys.opening a.call).Follows es a
  /-- A call that has ended has followed its program to the end. -/
  finished : ∀ n call ending, t.finished[n]? = some (call, ending) → ∃ es,
    labelsOf labels i n = (Event.began :: es).map (Label.mk i n call)
      ∧ (sys.opening call).Ends es ending

section Runs

variable {sys : System w κ ρ} {store : Store w} {calls : List (List κ)}
  {labels : List (Label w κ ρ)} {m : Machine w κ ρ} {i : Nat} {t t' : Thread w κ ρ}
  {a : Active w κ ρ} {e : Event w ρ}

theorem Thread.traced_start (waiting : List κ) : (start waiting).Traced sys [] i where
  unbegun _ _ _ := rfl
  current _ hc := by cases hc
  finished n _ _ hn := by simp [start] at hn

/-- What one thread does leaves no trace on another. -/
theorem Thread.Traced.snoc_of_ne {j n : Nat} {call : κ} (h : t.Traced sys labels j) (hj : j ≠ i) :
    t.Traced sys (labels ++ [⟨i, n, call, e⟩]) j := by
  have hl : ∀ k, labelsOf (labels ++ [⟨i, n, call, e⟩]) j k = labelsOf labels j k :=
    fun k => labelsOf_snoc_of_ne (.inl hj)
  refine ⟨fun k => ?_, fun a => ?_, fun k c ending => ?_⟩
  · rw [hl]
    exact h.unbegun k
  · rw [hl]
    exact h.current a
  · rw [hl]
    exact h.finished k c ending

theorem Thread.Traced.goOn (h : t.Traced sys labels i) (hc : t'.current = some a)
    (hfin : t'.finished = t.finished)
    (he : ∃ es, labelsOf (labels ++ [⟨i, t.finished.size, a.call, e⟩]) i t.finished.size
        = (Event.began :: es).map (Label.mk i t.finished.size a.call)
      ∧ (sys.opening a.call).Follows es a) :
    t'.Traced sys (labels ++ [⟨i, t.finished.size, a.call, e⟩]) i := by
  refine ⟨fun n hn hb => ?_, fun b hb => ?_, fun n call ending hn => ?_⟩
  · rw [hfin] at hn hb
    have hlt : t.finished.size < n := by
      rcases hb with hb | hb
      · simp [hc] at hb
      · exact hb
    rw [labelsOf_snoc_of_ne (.inr (by omega))]
    exact h.unbegun n hn (.inr hlt)
  · obtain rfl : a = b := Option.some.inj (hc.symm.trans hb)
    rw [hfin]
    exact he
  · rw [hfin] at hn
    have hlt : n < t.finished.size := (Array.getElem?_eq_some_iff.1 hn).1
    rw [labelsOf_snoc_of_ne (.inr (by omega))]
    exact h.finished n call ending hn

theorem Thread.Traced.finish (h : t.Traced sys labels i) (hc : t.current = some a)
    {ending : Ending ρ}
    (he : ∀ es, (sys.opening a.call).Follows es a →
      (sys.opening a.call).Ends (es ++ [e]) ending) :
    (t.finish sys.stops a.call ending).Traced sys
      (labels ++ [⟨i, t.finished.size, a.call, e⟩]) i := by
  refine ⟨fun n hn hb => ?_, fun b hb => ?_, fun n call ending' hn => ?_⟩
  · simp only [Thread.finish, Array.size_push] at hn
    rw [labelsOf_snoc_of_ne (.inr (by omega))]
    exact h.unbegun n (by omega) (.inr (by omega))
  · cases hb
  · simp only [Thread.finish, Array.getElem?_push] at hn
    split at hn
    · rename_i hn'
      cases hn
      obtain ⟨es, hes, hf⟩ := h.current a hc
      refine ⟨es ++ [e], ?_, he es hf⟩
      rw [hn', labelsOf_snoc, hes]
      simp
    · rename_i hn'
      rw [labelsOf_snoc_of_ne (.inr hn')]
      exact h.finished n call ending' hn

/-- Whatever a thread does, its labels stay the ways of its calls. -/
theorem Thread.Traced.moves {mishap : Mishap} {call : κ} {store' : Store w}
    (h : t.Traced sys labels i) (hm : t.Moves sys store mishap call e store' t') :
    t'.Traced sys (labels ++ [⟨i, t.finished.size, call, e⟩]) i := by
  cases hm with
  | @begins call waiting hc hw =>
    refine h.goOn (a := sys.opening call) rfl rfl ⟨[], ?_, .nil _⟩
    rw [labelsOf_snoc, h.unbegun _ (Nat.le_refl _) (.inl hc)]
    rfl
  | @passes a a' event hc hp hf =>
    obtain ⟨es, hes, hfollows⟩ := h.current a hc
    rw [← hp.call_eq] at hes hfollows ⊢
    refine h.goOn rfl rfl ⟨es ++ [e], ?_, hfollows.snoc hp⟩
    rw [labelsOf_snoc, hes]
    simp
  | returns hc hr => exact h.finish hc fun es hf => .returned hf hr
  | panics hc hd => exact h.finish hc fun es hf => .panicked hf hd.not_ret

theorem Run.traced (h : Run sys (.start store calls) labels m) :
    (∀ l ∈ labels, l.thread < m.threads.length)
      ∧ ∀ i (t : Thread w κ ρ), m.threads[i]? = some t → t.Traced sys labels i := by
  refine h.of_moves (fun labels m => (∀ l ∈ labels, l.thread < m.threads.length)
    ∧ ∀ i (t : Thread w κ ρ), m.threads[i]? = some t → t.Traced sys labels i) ⟨by simp, ?_⟩ ?_
  · intro i t ht
    obtain ⟨waiting, -, rfl⟩ := Machine.exists_start ht
    exact Thread.traced_start waiting
  · intro labels m mishap i t call event store' t' _ ⟨hlt, ih⟩ ht hm
    refine ⟨fun l hl => ?_, fun j u hu => ?_⟩
    · rw [List.length_set]
      rcases List.mem_append.1 hl with hl | hl
      · exact hlt l hl
      · rw [List.mem_singleton.1 hl]
        exact (List.getElem?_eq_some_iff.1 ht).1
    · rcases (getElem?_set_thread ht).1 hu with ⟨rfl, rfl⟩ | ⟨hj, hu⟩
      · exact (ih j t ht).moves hm
      · exact (ih j u hu).snoc_of_ne hj

/-- A thread makes its calls one after another. -/
theorem Run.numbers_le (h : Run sys (.start store calls) labels m) :
    labels.Pairwise fun l l' => l.thread = l'.thread → l.number ≤ l'.number := by
  refine h.of_moves (fun labels _ => labels.Pairwise fun l l' => l.thread = l'.thread →
    l.number ≤ l'.number) .nil ?_
  intro labels m mishap i t call event store' t' hr ih ht _
  refine List.pairwise_append.2 ⟨ih, List.pairwise_singleton _ _, fun l hl l' hl' heq => ?_⟩
  obtain rfl := List.mem_singleton.1 hl'
  refine Nat.le_of_not_lt fun hlt => ?_
  have hnone := (hr.traced.2 i t ht).unbegun l.number (Nat.le_of_lt hlt) (.inr hlt)
  have hmem : l ∈ labelsOf labels i l.number := mem_labelsOf.2 ⟨hl, heq, rfl⟩
  rw [hnone] at hmem
  exact List.not_mem_nil hmem

/-- Every label belongs to a call that has ended or to one under way. -/
theorem Run.call_of_label (h : Run sys (.start store calls) labels m) {l : Label w κ ρ}
    (hl : l ∈ labels) : ∃ es,
      labelsOf labels l.thread l.number
          = (Event.began :: es).map (Label.mk l.thread l.number l.call)
        ∧ ((∃ t b, m.threads[l.thread]? = some t ∧ t.current = some b
            ∧ (sys.opening l.call).Follows es b)
          ∨ ∃ ending, (sys.opening l.call).Ends es ending) := by
  obtain ⟨hlt, htr⟩ := h.traced
  obtain ⟨t, hi⟩ : ∃ t, m.threads[l.thread]? = some t := ⟨_, List.getElem?_eq_getElem (hlt _ hl)⟩
  have ht := htr _ t hi
  have hmem : l ∈ labelsOf labels l.thread l.number := mem_labelsOf.2 ⟨hl, rfl, rfl⟩
  rcases Nat.lt_or_ge l.number t.finished.size with hn | hn
  · obtain ⟨⟨c, ending⟩, hget⟩ : ∃ x, t.finished[l.number]? = some x :=
      ⟨_, Array.getElem?_eq_getElem hn⟩
    obtain ⟨es, hes, hends⟩ := ht.finished l.number c ending hget
    rw [hes] at hmem
    obtain ⟨e, he, heq⟩ := List.mem_map.1 hmem
    obtain rfl : c = l.call := congrArg Label.call heq
    exact ⟨es, hes, .inr ⟨ending, hends⟩⟩
  · rcases hc : t.current with _ | a
    · rw [ht.unbegun l.number hn (.inl hc)] at hmem
      exact absurd hmem List.not_mem_nil
    · obtain heq | hlt := Nat.eq_or_lt_of_le hn
      · obtain ⟨es, hes, hf⟩ := ht.current a hc
        rw [heq] at hes
        rw [hes] at hmem
        obtain ⟨e, he, hmk⟩ := List.mem_map.1 hmem
        have hcall : a.call = l.call := congrArg Label.call hmk
        rw [hcall] at hes hf
        exact ⟨es, hes, .inl ⟨t, a, hi, hc, hf⟩⟩
      · rw [ht.unbegun l.number hn (.inr hlt)] at hmem
        exact absurd hmem List.not_mem_nil

theorem Run.labelsOf_eq (h : Run sys (.start store calls) labels m) {l : Label w κ ρ}
    (hl : l ∈ labels) : labelsOf labels l.thread l.number
      = (eventsOf labels l.thread l.number).map (Label.mk l.thread l.number l.call) := by
  obtain ⟨es, hes, -⟩ := h.call_of_label hl
  rw [eventsOf_of_labelsOf hes, hes]

/-- The events of a call are told of that call. -/
theorem Run.label_of_event (h : Run sys (.start store calls) labels m) {l : Label w κ ρ}
    (hl : l ∈ labels) (he : e ∈ eventsOf labels l.thread l.number) :
    ⟨l.thread, l.number, l.call, e⟩ ∈ labels := by
  obtain ⟨es, hes, -⟩ := h.call_of_label hl
  rw [eventsOf_of_labelsOf hes] at he
  have hmem : ⟨l.thread, l.number, l.call, e⟩ ∈ labelsOf labels l.thread l.number := by
    rw [hes]
    exact List.mem_map_of_mem he
  exact (mem_labelsOf.1 hmem).1

theorem Run.events_of_label (h : Run sys (.start store calls) labels m) {l : Label w κ ρ}
    (hl : l ∈ labels) : ∃ es b, (sys.opening l.call).Follows es b
      ∧ (eventsOf labels l.thread l.number = .began :: es
        ∨ (∃ r, b.rest = .ret r
          ∧ eventsOf labels l.thread l.number = .began :: (es ++ [.returned r]))
        ∨ (∀ r, b.rest ≠ .ret r)
          ∧ eventsOf labels l.thread l.number = .began :: (es ++ [.panicked])) := by
  obtain ⟨es, hes, ⟨_, b, -, -, hf⟩ | ⟨ending, hends⟩⟩ := h.call_of_label hl
  · exact ⟨es, b, hf, .inl (eventsOf_of_labelsOf hes)⟩
  · rw [eventsOf_of_labelsOf hes]
    cases hends with
    | returned hf hr => exact ⟨_, _, hf, .inr (.inl ⟨_, hr, rfl⟩)⟩
    | panicked hf hr => exact ⟨_, _, hf, .inr (.inr ⟨hr, rfl⟩)⟩

/-- A call of which no end is told is under way. -/
theorem Run.current_of_label (h : Run sys (.start store calls) labels m) {l : Label w κ ρ}
    (hl : l ∈ labels) (hreturned : ∀ r, .returned r ∉ eventsOf labels l.thread l.number)
    (hpanicked : .panicked ∉ eventsOf labels l.thread l.number) : ∃ es t b,
      eventsOf labels l.thread l.number = .began :: es ∧ m.threads[l.thread]? = some t
        ∧ t.current = some b ∧ (sys.opening l.call).Follows es b := by
  obtain ⟨es, hes, ⟨t, b, ht, hc, hf⟩ | ⟨ending, hends⟩⟩ := h.call_of_label hl
  · exact ⟨es, t, b, eventsOf_of_labelsOf hes, ht, hc, hf⟩
  · rw [eventsOf_of_labelsOf hes] at hreturned hpanicked
    cases hends with
    | @returned es b r hf hr => simpa using hreturned r
    | panicked hf hr => simp at hpanicked

/-- A call that has returned has followed its program to the end. -/
theorem Run.events_of_returned (h : Run sys (.start store calls) labels m) {i n : Nat} {call : κ}
    {r : ρ} (hl : ⟨i, n, call, .returned r⟩ ∈ labels) : ∃ es b,
      eventsOf labels i n = .began :: (es ++ [.returned r])
        ∧ (sys.opening call).Follows es b ∧ b.rest = .ret r := by
  have hmem : .returned r ∈ eventsOf labels i n :=
    List.mem_map.2 ⟨_, mem_labelsOf.2 ⟨hl, rfl, rfl⟩, rfl⟩
  obtain ⟨es, b, hf, heq | ⟨r', hr, heq⟩ | ⟨-, heq⟩⟩ := h.events_of_label hl
  · simp [heq, hf.not_returned] at hmem
  · obtain rfl : r = r' := by simpa [heq, hf.not_returned] using hmem
    exact ⟨es, b, heq, hf, hr⟩
  · simp [heq, hf.not_returned] at hmem

/-- The steps of all threads from the beginning of a call to its return. -/
theorem Run.span_of_returned (h : Run sys (.start store calls) labels m) {i n : Nat} {call : κ}
    {r : ρ} (hl : ⟨i, n, call, .returned r⟩ ∈ labels) : ∃ before during after es b,
      labels = before ++ ⟨i, n, call, .began⟩ :: (during ++ ⟨i, n, call, .returned r⟩ :: after)
        ∧ labelsOf before i n = [] ∧ labelsOf during i n = es.map (Label.mk i n call)
        ∧ (sys.opening call).Follows es b ∧ b.rest = .ret r := by
  obtain ⟨es, b, hes, hf, hr⟩ := h.events_of_returned hl
  have hlabels := h.labelsOf_eq hl
  simp only [hes, List.map_cons, List.map_append, List.map_nil] at hlabels
  obtain ⟨before, during, after, hsplit, hbefore, hduring⟩ := labelsOf_span hlabels
  exact ⟨before, during, after, es, b, hsplit, hbefore, hduring, hf, hr⟩

end Runs

end SharedBits
