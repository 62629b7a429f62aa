import SharedBits.Proofs.InTurn

/-!
# Schedules

Two complete runs of the same calls may order the changes of different bits as they like, and use
different strategies and widths: if the changes of each single bit come in the same order, they leave
the same behind. Where different threads change a bit only in one way, no order matters, and every run
ends as if the threads had made their calls one after another. Both are said by `schedule_independent`.
-/

namespace SharedBits

variable {w : Width}

/-- The changes of a run in their order: which bit, by which thread, in which of its calls. -/
def effects (labels : List (Label w Call Reply)) : List (Nat × Nat × Nat) :=
  labels.filterMap fun l => l.change?.map fun change => (change.2, l.thread, l.number)

/-- The updates of a bit in the order in which they have taken effect, each by its thread and its
number there. -/
def orderOn (k : Nat) (labels : List (Label w Call Reply)) : List (Nat × Nat) :=
  ((effects labels).filter fun e => e.1 == k).map Prod.snd

/-- Any two updates of one bit by different threads are of the same kind. -/
def SameKinds (capacity : Nat) (calls : List (List Call)) : Prop :=
  ∀ i j, i ≠ j → ∀ op op' k, k < capacity → .update op k ∈ calls.getD i [] →
    .update op' k ∈ calls.getD j [] → op = op'

/-! ## One bit at a time -/

/-- The kinds of the changes of one bit, in their order. -/
def opsOn (k : Nat) (changes : List (BitOp × Nat)) : List BitOp :=
  (changes.filter fun change => change.2 == k).map Prod.fst

namespace Plain

theorem bit_updateAll {k : Nat} : ∀ (changes : List (BitOp × Nat)) {p : Plain}, k < p.capacity →
    (p.updateAll changes).bit k = (opsOn k changes).foldl (fun b op => op.onBit b) (p.bit k)
  | [], _, _ => rfl
  | (op, i) :: changes, p, hk => by
    have ih := bit_updateAll changes (p := p.update op i) (by rwa [capacity_update])
    show ((p.update op i).updateAll changes).bit k = _
    rw [ih]
    rcases Nat.lt_or_ge i p.capacity with hi | hi
    · rw [bit_update p op i k hi]
      by_cases hik : i = k <;> simp [opsOn, hik]
    · have hik : i ≠ k := by omega
      rw [update_of_ge hi]
      simp [opsOn, hik]

theorem mem_opsOn {k : Nat} {changes : List (BitOp × Nat)} {op : BitOp} :
    op ∈ opsOn k changes ↔ (op, k) ∈ changes := by
  simp [opsOn]

/-- A change that does not ask what the bit was decides what it is, if it is the last. -/
theorem bit_updateAll_of_last {p : Plain} {k : Nat} (hk : k < p.capacity)
    {changes : List (BitOp × Nat)} {op : BitOp} {b : Bool} (hop : ∀ c, op.onBit c = b)
    (h : (opsOn k changes).getLast? = some op) : (p.updateAll changes).bit k = b := by
  obtain ⟨before, hbefore⟩ := List.getLast?_eq_some_iff.1 h
  rw [bit_updateAll _ hk, hbefore, List.foldl_append]
  exact hop _

theorem bit_updateAll_of_kind {p : Plain} {k : Nat} (hk : k < p.capacity)
    {changes : List (BitOp × Nat)} {op : BitOp} {b : Bool} (hop : ∀ c, op.onBit c = b)
    (hkind : ∀ change ∈ changes, change.1 = op) (hmem : (op, k) ∈ changes) :
    (p.updateAll changes).bit k = b := by
  have hne : opsOn k changes ≠ [] := List.ne_nil_of_mem (mem_opsOn.2 hmem)
  have hlast : (opsOn k changes).getLast hne = op :=
    hkind _ (mem_opsOn.1 (List.getLast_mem hne))
  exact bit_updateAll_of_last hk hop (by rw [List.getLast?_eq_some_getLast hne, hlast])

theorem ext_bit {p q : Plain} (hcap : p.capacity = q.capacity)
    (hbit : ∀ k < p.capacity, p.bit k = q.bit k) : p = q := by
  obtain ⟨bits⟩ := p
  obtain ⟨bits'⟩ := q
  refine congrArg Plain.mk (List.ext_getElem hcap fun k hk hk' => ?_)
  have h := hbit k hk
  simpa [bit, hk, hk'] using h

/-- Only the order of the changes of each single bit matters. -/
theorem updateAll_eq_of_opsOn {p : Plain} {changes changes' : List (BitOp × Nat)}
    (h : ∀ k < p.capacity, opsOn k changes = opsOn k changes') :
    p.updateAll changes = p.updateAll changes' := by
  refine ext_bit (by rw [capacity_updateAll, capacity_updateAll]) fun k hk => ?_
  rw [capacity_updateAll] at hk
  rw [bit_updateAll _ hk, bit_updateAll _ hk, h k hk]

end Plain

/-! ## The same order -/

section Order

variable {calls : List (List Call)} {labels : List (Label w Call Reply)} {k : Nat}

theorem Label.call_of_change {l : Label w Call Reply} {op : BitOp} (h : l.change? = some (op, k)) :
    l.call = .update op k := by
  unfold change? at h
  split at h <;> cases h <;> assumption

def Call.op? : Call → Option BitOp
  | .update op _ => some op
  | _ => none

/-- The calls of the threads tell the kinds of the changes in an order. -/
theorem opsOn_history : ∀ {labels : List (Label w Call Reply)},
    (∀ l ∈ labels, calls[l.thread]?.bind (·[l.number]?) = some l.call) →
      opsOn k (history labels) = (orderOn k labels).filterMap fun place =>
        (calls[place.1]?.bind (·[place.2]?)).bind Call.op?
  | [], _ => rfl
  | l :: labels, h => by
    obtain ⟨hl, hlabels⟩ := List.forall_mem_cons.1 h
    have ih := opsOn_history hlabels
    simp only [opsOn, history, orderOn, effects, List.filterMap_cons] at ih ⊢
    rcases hc : l.change? with _ | ⟨op, i⟩
    · simpa using ih
    · by_cases hik : i = k
      · simp [hik, ih, hl, Label.call_of_change hc, Call.op?]
      · simpa [hik] using ih

theorem CompleteRun.call_at {p : Plain} {s : Strategy} {m : Machine w Call Reply}
    (h : CompleteRun p s w calls labels m) {l : Label w Call Reply} (hl : l ∈ labels) :
    calls[l.thread]?.bind (·[l.number]?) = some l.call := by
  obtain ⟨t, ending, ht, hn⟩ := h.exists_finished hl
  rw [h.getElem?_calls, ht]
  simp [hn]

end Order

/-! ## The same kinds -/

section Kinds

variable {S T : Type}

/-- Two orders of what several threads do, in which each thread keeps its own order: if what different
threads do is the same, the orders are the same. -/
theorem map_eq_of_filter [DecidableEq S] {L L' : List S} (thread : S → Nat) (kind : S → T)
    (h : ∀ i, L.filter (fun x => thread x == i) = L'.filter fun x => thread x == i)
    (hsame : ∀ x ∈ L, ∀ y ∈ L, thread x ≠ thread y → kind x = kind y) : L.map kind = L'.map kind := by
  have hperm : L.Perm L' := by
    refine List.perm_iff_count.2 fun x => ?_
    rw [← List.count_filter (p := fun y => thread y == thread x) (by simp), h,
      List.count_filter (by simp)]
  by_cases hone : ∀ x ∈ L, ∀ y ∈ L, thread x = thread y
  · rcases hL : L with _ | ⟨x, rest⟩
    · rw [hL] at hperm
      rw [hperm.nil_eq]
    · have hx : x ∈ L := by simp [hL]
      have hself : L.filter (fun y => thread y == thread x) = L :=
        List.filter_eq_self.2 fun y hy => by simpa using hone y hy x hx
      have hself' : L'.filter (fun y => thread y == thread x) = L' :=
        List.filter_eq_self.2 fun y hy => by simpa using hone y (hperm.mem_iff.2 hy) x hx
      rw [← hL, ← hself, h, hself']
  · -- Two threads take part, so everything is of the kind of `x`.
    push Not at hone
    obtain ⟨x, hx, y, hy, hxy⟩ := hone
    have hall : ∀ z ∈ L, kind z = kind x := by
      intro z hz
      by_cases hzx : thread z = thread x
      · exact (hsame z hz y hy (hzx ▸ hxy)).trans (hsame x hx y hy hxy).symm
      · exact hsame z hz x hx hzx
    have hrep : L.map kind = List.replicate L.length (kind x) :=
      List.eq_replicate_iff.2 ⟨List.length_map .., by simpa using hall⟩
    have hrep' : L'.map kind = List.replicate L'.length (kind x) :=
      List.eq_replicate_iff.2 ⟨List.length_map .., by
        simpa using fun z hz => hall z (hperm.mem_iff.2 hz)⟩
    rw [hrep, hrep', hperm.length_eq]

theorem Plain.updateAll_eq_of_threads {p : Plain} {L L' : List (Nat × BitOp × Nat)}
    (h : ∀ i, L.filter (fun x => x.1 == i) = L'.filter fun x => x.1 == i)
    (hsame : ∀ x ∈ L, ∀ y ∈ L, x.1 ≠ y.1 → x.2.2 = y.2.2 → x.2.1 = y.2.1) :
    p.updateAll (L.map Prod.snd) = p.updateAll (L'.map Prod.snd) := by
  refine updateAll_eq_of_opsOn fun k _ => ?_
  have hops : ∀ L : List (Nat × BitOp × Nat),
      opsOn k (L.map Prod.snd) = (L.filter fun x => x.2.2 == k).map fun x => x.2.1 := by
    intro L
    rw [opsOn, List.filter_map, List.map_map]
    rfl
  rw [hops, hops]
  refine map_eq_of_filter Prod.fst (fun x : Nat × BitOp × Nat => x.2.1) (fun i => ?_)
    fun x hx y hy hxy => ?_
  · rw [List.filter_comm, h i, List.filter_comm]
  · simp only [List.mem_filter, beq_iff_eq] at hx hy
    exact hsame x hx.1 y hy.1 hxy (hx.2.trans hy.2.symm)

/-- The history of a run, each change with its thread. -/
def threadHistory (labels : List (Label w Call Reply)) : List (Nat × BitOp × Nat) :=
  labels.filterMap fun l => l.change?.map fun change => (l.thread, change)

theorem map_threadHistory (labels : List (Label w Call Reply)) :
    (threadHistory labels).map Prod.snd = history labels := by
  rw [threadHistory, List.map_filterMap, history]
  refine List.filterMap_congr fun l _ => ?_
  cases l.change? <;> rfl

theorem filter_threadHistory (i : Nat) : ∀ labels : List (Label w Call Reply),
    (threadHistory labels).filter (fun x => x.1 == i)
      = ((labels.filter fun l => l.thread == i).filterMap Label.change?).map (Prod.mk i)
  | [] => rfl
  | l :: labels => by
    have ih := filter_threadHistory i labels
    simp only [threadHistory] at ih ⊢
    rw [List.filterMap_cons, List.filter_cons]
    rcases hc : l.change? with _ | change
    · by_cases hi : l.thread = i <;> simp [hc, hi, ih]
    · by_cases hi : l.thread = i <;> simp [hc, hi, ih]

theorem filter_flatMap_thread (f : Nat → List T) (i : Nat) : ∀ {order : List Nat}, order.Nodup →
    (order.flatMap fun j => (f j).map (Prod.mk j)).filter (fun x => x.1 == i)
      = if i ∈ order then (f i).map (Prod.mk i) else []
  | [], _ => rfl
  | j :: order, h => by
    obtain ⟨hj, horder⟩ := List.nodup_cons.1 h
    have ih := filter_flatMap_thread f i horder
    rw [List.flatMap_cons, List.filter_append, ih, List.filter_map]
    by_cases hij : i = j
    · subst hij
      simp [Function.comp_def, hj]
    · simp [Function.comp_def, hij, Ne.symm hij]

end Kinds

/-! ## Any schedule -/

section Schedules

variable {p : Plain} {s : Strategy} {calls : List (List Call)} {labels : List (Label w Call Reply)}
  {m : Machine w Call Reply}

theorem CompleteRun.after_eq_of_orderOn (h : CompleteRun p s w calls labels m) {s' : Strategy}
    {w' : Width} {labels' : List (Label w' Call Reply)} {m' : Machine w' Call Reply}
    (h' : CompleteRun p s' w' calls labels' m')
    (horder : ∀ k < p.capacity, orderOn k labels = orderOn k labels') :
    p.after labels = p.after labels' := by
  refine Plain.updateAll_eq_of_opsOn fun k hk => ?_
  rw [opsOn_history fun l hl => h.call_at hl, opsOn_history fun l hl => h'.call_at hl, horder k hk]

theorem CompleteRun.filter_threadHistory (h : CompleteRun p s w calls labels m) (i : Nat) :
    (threadHistory labels).filter (fun x => x.1 == i)
      = ((calls.getD i []).filterMap (Call.change p.capacity)).map (Prod.mk i) := by
  rw [SharedBits.filter_threadHistory, h.changes_of_thread]

/-- Where different threads change a bit only in one way, a run leaves the bits that the threads leave
one after another. -/
theorem CompleteRun.after_eq_of_sameKinds (h : CompleteRun p s w calls labels m)
    (hkinds : SameKinds p.capacity calls) {order : List Nat}
    (horder : order.Perm (List.range calls.length)) :
    p.after labels = p.updateAll ((order.map fun i => calls.getD i []).flatMap
      (List.filterMap (Call.change p.capacity))) := by
  have hmem : ∀ x ∈ threadHistory labels,
      .update x.2.1 x.2.2 ∈ calls.getD x.1 [] ∧ x.2.2 < p.capacity := by
    intro x hx
    have hfilter : x ∈ (threadHistory labels).filter fun y => y.1 == x.1 :=
      List.mem_filter.2 ⟨hx, beq_self_eq_true _⟩
    rw [h.filter_threadHistory] at hfilter
    obtain ⟨⟨op, k⟩, hchange, heq⟩ := List.mem_map.1 hfilter
    obtain ⟨call, hcall, hc⟩ := List.mem_filterMap.1 hchange
    obtain ⟨rfl, hlt⟩ := Call.change_eq_some hc
    rw [← heq]
    exact ⟨heq ▸ hcall, hlt⟩
  have hturns : (order.map fun i => calls.getD i []).flatMap
        (List.filterMap (Call.change p.capacity))
      = (order.flatMap fun i => ((calls.getD i []).filterMap (Call.change p.capacity)).map
          (Prod.mk i)).map Prod.snd := by
    rw [List.flatMap_map, List.map_flatMap]
    refine List.flatMap_congr fun i _ => ?_
    rw [List.map_map]
    exact (List.map_id _).symm
  rw [hturns, Plain.after, ← map_threadHistory]
  -- Thread by thread, both sides are the changes of that thread's calls in their order.
  refine Plain.updateAll_eq_of_threads (fun i => ?_) fun x hx y hy hxy hbit => ?_
  · rw [h.filter_threadHistory, filter_flatMap_thread _ i (horder.nodup_iff.2 List.nodup_range)]
    split
    · rfl
    · rename_i hi
      have hle : calls.length ≤ i := by
        rw [horder.mem_iff, List.mem_range] at hi
        omega
      rw [List.getD_eq_getElem?_getD, List.getElem?_eq_none hle]
      rfl
  · obtain ⟨hxmem, hlt⟩ := hmem x hx
    exact hkinds x.1 y.1 hxy x.2.1 y.2.1 x.2.2 hlt hxmem (hbit ▸ (hmem y hy).1)

/-- A complete run leaves the same behind as any other of the same calls on the same bits, with any
strategy that loses no update and any width, in which the updates of each bit take effect in the same
order. If different threads change a bit only in one way, it leaves what the threads leave when they
make their calls one after another, in whatever order of the threads; and that is one of the runs. -/
theorem schedule_independent (hp : 0 < p.capacity) (h : CompleteRun p s w calls labels m) :
    (∀ s' w' (labels' : List (Label w' Call Reply)) (m' : Machine w' Call Reply),
      CompleteRun p s' w' calls labels' m' →
      (∀ k < p.capacity, orderOn k labels = orderOn k labels') →
      (p.bitSet s w).remains m = (p.bitSet s' w').remains m')
    ∧ (SameKinds p.capacity calls → ∀ (s' : Strategy) (w' : Width) (stops : Ending Reply → Bool),
      (∀ r, stops (.returned r) = false) → ∀ order : List Nat,
      order.Perm (List.range calls.length) →
      (s'.isSynchronized = true → ∃ labels', CompleteRun p s' w' (order.map fun i => calls.getD i [])
        labels' (((p.bitSet s' w').callers stops).inTurn (p.bitSet s' w').store
          (order.map fun i => calls.getD i [])))
      ∧ (p.bitSet s' w').remains (((p.bitSet s' w').callers stops).inTurn (p.bitSet s' w').store
          (order.map fun i => calls.getD i []))
        = { (p.bitSet s w).remains m with
            failures := order.map fun i => ((p.bitSet s w).remains m).failures.getD i 0 }) := by
  refine ⟨fun s' w' labels' m' h' horder => ?_, fun hkinds s' w' stops hstops order horder =>
    ⟨fun hs' => completeRun_inTurn hp hs' hstops _, ?_⟩⟩
  · rw [h.remains_eq hp, h'.remains_eq hp, h.after_eq_of_orderOn h' horder]
  · rw [remains_inTurn hp hstops, h.remains_eq hp, h.after_eq_of_sameKinds hkinds horder]
    simp only [Plain.remains, Plain.capacity_updateAll, List.map_map]
    refine congrArg (Remains.mk _ _) (List.map_congr_left fun i _ => ?_)
    simp only [Function.comp_apply, List.getD_eq_getElem?_getD, List.getElem?_map]
    cases calls[i]? <;> rfl

/-- Two threads flip one bit, one of them also sets another, and one addresses a bit that is not there.
The two runs order the first changes of the threads differently. -/
theorem schedule_independent_flips : 0 < (Plain.clear 10).capacity
    ∧ ∃ (labels : List (Label .w8 Call Reply)) (m : Machine .w8 Call Reply)
      (labels' : List (Label .w16 Call Reply)) (m' : Machine .w16 Call Reply),
      CompleteRun (.clear 10) .lockFree .w8
        [[.update .flip 3, .update .set 10], [.update .set 8, .update .flip 3]] labels m
      ∧ CompleteRun (.clear 10) .stripedMutex .w16
        [[.update .flip 3, .update .set 10], [.update .set 8, .update .flip 3]] labels' m'
      ∧ effects labels = [(3, 0, 0), (8, 1, 0), (3, 1, 1)]
      ∧ effects labels' = [(8, 1, 0), (3, 0, 0), (3, 1, 1)]
      ∧ ((Plain.clear 10).bitSet .lockFree .w8).remains m
        = ((Plain.clear 10).bitSet .stripedMutex .w16).remains m'
      ∧ SameKinds 10 [[.update .flip 3, .update .set 10], [.update .set 8, .update .flip 3]]
      ∧ (((Plain.clear 10).bitSet .lockFree .w8).remains m).failures = [1, 0]
      ∧ (((Plain.clear 10).bitSet .globalRwLock .w64).remains
          ((((Plain.clear 10).bitSet .globalRwLock .w64).callers fun _ => false).inTurn
            ((Plain.clear 10).bitSet .globalRwLock .w64).store
            [[.update .set 8, .update .flip 3], [.update .flip 3, .update .set 10]]))
        = { ((Plain.clear 10).bitSet .lockFree .w8).remains m with failures := [0, 1] } := by
  obtain ⟨⟨labels, m⟩, hf, hdone, hmade, hevents, heffects⟩ :
      ∃ r : List (Label .w8 Call Reply) × Machine .w8 Call Reply,
        (((Plain.clear 10).bitSet .lockFree .w8).callers fun _ => false).follow
            (.start ((Plain.clear 10).bitSet .lockFree .w8).store
              [[.update .flip 3, .update .set 10], [.update .set 8, .update .flip 3]])
            ([0, 0, 0, 1, 1, 1, 1, 1, 1, 1, 1, 0, 0, 0].map fun i => ⟨i, .none⟩) = some r
          ∧ r.2.isDone = true
          ∧ r.2.threads.map (fun t => t.finished.toList.map Prod.fst)
            = [[.update .flip 3, .update .set 10], [.update .set 8, .update .flip 3]]
          ∧ r.1.all (fun l => !l.event.isPanic) = true
          ∧ effects r.1 = [(3, 0, 0), (8, 1, 0), (3, 1, 1)] :=
    ⟨_, rfl, rfl, rfl, rfl, rfl⟩
  obtain ⟨⟨labels', m'⟩, hf', hdone', hmade', hevents', heffects'⟩ :
      ∃ r : List (Label .w16 Call Reply) × Machine .w16 Call Reply,
        (BitSet.callers ⟨.stripedMutex, 10, .fresh 1 1⟩ fun _ => false).follow
            (.start (.fresh 1 1)
              [[.update .flip 3, .update .set 10], [.update .set 8, .update .flip 3]])
            ([0, 1, 1, 1, 1, 1, 1, 1, 0, 0, 0, 0, 0, 1, 1, 1, 1, 1, 1, 1, 0, 0, 0].map
              fun i => ⟨i, .none⟩) = some r
          ∧ r.2.isDone = true
          ∧ r.2.threads.map (fun t => t.finished.toList.map Prod.fst)
            = [[.update .flip 3, .update .set 10], [.update .set 8, .update .flip 3]]
          ∧ r.1.all (fun l => !l.event.isPanic) = true
          ∧ effects r.1 = [(8, 1, 0), (3, 0, 0), (3, 1, 1)] :=
    ⟨_, rfl, rfl, rfl, rfl, rfl⟩
  have h : CompleteRun (.clear 10) .lockFree .w8 _ labels m :=
    ⟨⟨⟨_, Run.of_follow .start hf⟩, hdone, hmade, isCalm_iff.2 hevents⟩, rfl⟩
  have hfresh : (Plain.clear 10).bitSet .stripedMutex .w16 = ⟨.stripedMutex, 10, .fresh 1 1⟩ :=
    BitSet.eq_of_create (Fragile.create_eq (by decide) .stripedMutex .w16)
  have h' : CompleteRun (.clear 10) .stripedMutex .w16 _ labels' m' :=
    ⟨⟨⟨_, by rw [hfresh]; exact Run.of_follow .start hf'⟩, hdone', hmade', isCalm_iff.2 hevents'⟩, rfl⟩
  have hkinds : SameKinds 10
      [[.update .flip 3, .update .set 10], [.update .set 8, .update .flip 3]] := by
    intro i j hij op op' k hk hi hj
    rcases i with _ | _ | i <;> rcases j with _ | _ | j <;> simp at hij hi hj <;> grind
  have horder : ∀ k < (Plain.clear 10).capacity, orderOn k labels = orderOn k labels' := by
    intro k _
    rw [orderOn, orderOn, heffects, heffects']
    by_cases h3 : k = 3
    · subst h3
      rfl
    · have : (3 == k) = false := by simpa using Ne.symm h3
      simp [List.filter_cons, this]
  have hp : 0 < (Plain.clear 10).capacity := by decide
  obtain ⟨hruns, hturns⟩ := schedule_independent hp h
  have hfailures := h.failures_eq
  obtain ⟨-, hturns'⟩ := hturns hkinds .globalRwLock .w64 (fun _ => false) (fun _ => rfl) [1, 0] (by decide)
  exact ⟨hp, labels, m, labels', m', h, h', heffects, heffects', hruns _ _ _ _ h' horder, hkinds,
    hfailures, hturns'.trans (by simp [BitSet.remains, hfailures]; decide)⟩

end Schedules

end SharedBits
