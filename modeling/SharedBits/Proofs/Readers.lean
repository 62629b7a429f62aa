import SharedBits.Proofs.LockFree
import SharedBits.Proofs.Schedules
import SharedBits.Proofs.Solo

/-!
# A writer and its readers

Nothing keeps updates of an unsynchronised bitset apart, and none is lost as long as one thread makes
all of them, whoever reads meanwhile. At every moment of such a run the bits are those that the first
calls of the writer leave when it makes them alone, and how many those are is told by how many have
ended (`Written`); a read gives the bit of such a moment between its beginning and its return; and in the
end the bits are those of the writer alone, as with every other strategy (`readers_see_writer`).
-/

namespace SharedBits

variable {w : Width} {κ ρ : Type}

/-- Whether a call ends with an event. -/
def Event.isEnd : Event w ρ → Bool
  | returned _ => true
  | panicked => true
  | _ => false

/-- How many calls of thread `i` have ended. -/
def endedOf (labels : List (Label w κ ρ)) (i : Nat) : Nat :=
  labels.countP fun l => l.thread == i && l.event.isEnd

/-- The bits after the first `n` calls of thread `i`, made alone. -/
def Plain.alone (p : Plain) (calls : List (List Call)) (i n : Nat) : Plain :=
  (p.performAll ((calls.getD i []).take n)).2

/-- What has been written is what the first `n` calls of thread `i` change: those that have ended, and
perhaps the one under way. -/
structure Written (capacity i : Nat) (calls : List (List Call)) (labels : List (Label w Call Reply))
    (n : Nat) : Prop where
  ended : endedOf labels i ≤ n
  underWay : n ≤ endedOf labels i + 1
  history : history labels = ((calls.getD i []).take n).filterMap (Call.change capacity)

/-- Threads share the bits `p` with nothing that keeps updates apart, and thread `i` makes all changes. -/
structure WriterRun (p : Plain) (i : Nat) (calls : List (List Call))
    (labels : List (Label w Call Reply)) (m : Machine w Call Reply) : Prop where
  words : ∃ n, Written p.capacity i calls labels n
    ∧ m.store.cells = (p.alone calls i n).packed w
  /-- A read gives the bit as it is when it loads its word. -/
  read : ∀ j number k r, ⟨j, number, .get k, .returned r⟩ ∈ labels → k < p.capacity →
    ∃ before pre post after v n,
      labels = before ++ ⟨j, number, .get k, .began⟩
        :: (pre ++ ⟨j, number, .get k, .loaded (Address.locate w k).word v⟩
          :: (post ++ ⟨j, number, .get k, .returned r⟩ :: after))
      ∧ Written p.capacity i calls (before ++ ⟨j, number, .get k, .began⟩ :: pre) n
      ∧ r = .ok (.bit ((p.alone calls i n).bit k))
  /-- A call that is out of range touches nothing. -/
  refused : ∀ l ∈ labels, ∀ k, l.call.index? = some k → p.capacity ≤ k →
    l.event = .began ∨ l.event = .returned (refusalOf k p.capacity)
  /-- When all calls have been made, the bits and their count are those that the writer leaves when it
  has a bitset for itself, of any strategy, and so are they after any other run of all the calls. -/
  left : m.isDone = true → m.threads.map (fun t => t.finished.toList.map Prod.fst) = calls →
    ∀ (s : Strategy) (w' : Width),
      (∀ alone, ((p.bitSet s w').askAll ((calls.getD i []).map .call)).2 = alone →
        ((p.bitSet .unsynchronized w).remains m).contents = alone.contents
          ∧ ((p.bitSet .unsynchronized w).remains m).count = (alone.perform .count).1)
      ∧ ∀ (labels' : List (Label w' Call Reply)) (m' : Machine w' Call Reply),
        EndedRun p s w' calls labels' m' →
          (p.bitSet s w').remains m' = (p.bitSet .unsynchronized w).remains m

/-! ## The calls of the writer -/

section Ended

variable {sys : System w κ ρ} {store : Store w} {calls : List (List κ)} {labels : List (Label w κ ρ)}
  {m : Machine w κ ρ} {i : Nat} {t : Thread w κ ρ}

theorem Active.Passes.not_isEnd {a a' : Active w κ ρ} {e : Event w ρ} (h : a.Passes e a') :
    e.isEnd = false := by
  cases h <;> rfl

theorem Run.endedOf_eq (h : Run sys (.start store calls) labels m) (ht : m.threads[i]? = some t) :
    endedOf labels i = t.finished.size := by
  refine h.of_moves (fun labels m => ∀ i t, m.threads[i]? = some t →
    endedOf labels i = t.finished.size) ?_ ?_ i t ht
  · intro i t ht
    obtain ⟨waiting, -, rfl⟩ := Machine.exists_start ht
    rfl
  · intro labels m mishap j u call e store' u' _ ih hu hm i t ht
    rw [endedOf, List.countP_append]
    rcases (getElem?_set_thread hu).1 ht with ⟨rfl, rfl⟩ | ⟨hi, ht⟩
    · have hended := ih i u hu
      rw [endedOf] at hended
      rw [hended]
      cases hm with
      | begins => simp [Event.isEnd]
      | passes hc hp => simp [hp.not_isEnd]
      | returns => simp [Event.isEnd, Thread.finish]
      | panics => simp [Event.isEnd, Thread.finish]
    · rw [← ih i t ht, endedOf]
      simp [Ne.symm hi]

end Ended

theorem Plain.performAll_snd (p : Plain) : ∀ calls : List Call,
    (p.performAll calls).2 = p.updateAll (calls.filterMap (Call.change p.capacity))
  | [] => rfl
  | call :: calls => by
    have ih := performAll_snd (p.perform call).2 calls
    rw [p.capacity_perform, p.perform_snd, ← updateAll_append] at ih
    simp only [performAll, p.perform_snd, ih]
    cases hc : call.change p.capacity <;> simp [hc]

section Runs

variable {p : Plain} {s : Strategy} {stops : Ending Reply → Bool} {calls : List (List Call)}
  {labels : List (Label w Call Reply)} {m : Machine w Call Reply} {i : Nat}

/-- All changes are those of the writer. -/
theorem Run.history_of_writer
    (hwriter : ∀ j, j ≠ i → ∀ call ∈ calls.getD j [], call.change p.capacity = none)
    (h : Run ((p.bitSet s w).callers stops) (.start (p.bitSet s w).store calls) labels m) :
    (labels.filter fun l => l.thread == i).filterMap Label.change? = history labels := by
  rw [List.filterMap_filter]
  refine List.filterMap_congr fun l hl => ?_
  by_cases hi : l.thread = i
  · simp [hi]
  · -- A change of another thread would be out of range.
    rcases hc : l.change? with _ | ⟨op, k⟩
    · simp
    · have hcall := Label.call_of_change hc
      have hnone := hwriter _ hi _ (h.call_mem_of_label hl)
      have hle : p.capacity ≤ k := by
        by_contra hlt
        simp [hcall, Call.change, Nat.lt_of_not_le hlt] at hnone
      have hindex : l.call.index? = some k := by rw [hcall]; rfl
      rcases h.event_of_refused hl hindex hle with he | he <;> simp [Label.change?, hcall, he] at hc

/-- What a call has changed so far is nothing or all of its change. -/
theorem changes_of_follows {n : Nat} {a : Active w Call Reply} {es : List (Event w Reply)}
    (hf : (((p.bitSet s w).callers stops).opening a.call).Follows es a) :
    ((Event.began :: es).map (Label.mk i n a.call)).filterMap Label.change? = []
      ∨ ((Event.began :: es).map (Label.mk i n a.call)).filterMap Label.change?
        = (a.call.change p.capacity).toList := by
  have hle := hf.writes_le (s.code_makes p.capacity a.call)
  rcases hc : a.call.change p.capacity with _ | ⟨op, k⟩
  · have hcount : (Event.began :: es).countP Event.isWrite
        = (a.call.change p.capacity).toList.length := by
      rw [hc] at hle ⊢
      simpa [Event.isWrite] using hle
    exact .inr (by rw [filterMap_change_of_change hcount, hc])
  · obtain ⟨hcall, -⟩ := Call.change_eq_some hc
    rw [hc] at hle
    rw [hcall, filterMap_change_update, List.countP_cons_of_neg (by simp [Event.isWrite])]
    rcases Nat.le_one_iff_eq_zero_or_eq_one.1 hle with h | h <;> simp [h]

theorem Run.written
    (hwriter : ∀ j, j ≠ i → ∀ call ∈ calls.getD j [], call.change p.capacity = none)
    (h : Run ((p.bitSet s w).callers stops) (.start (p.bitSet s w).store calls) labels m)
    (hcalm : IsCalm labels) : ∃ n, Written p.capacity i calls labels n := by
  have hhistory := h.history_of_writer hwriter
  rcases ht : m.threads[i]? with _ | t
  · -- There is no such thread, so nothing has changed.
    have hnone : ∀ l ∈ labels, l.thread ≠ i := by
      rintro l hl rfl
      rw [List.getElem?_eq_getElem (h.traced.1 l hl)] at ht
      cases ht
    refine ⟨0, ?_, Nat.zero_le _, ?_⟩
    · rw [endedOf, List.countP_eq_zero.2 fun l hl => by simp [hnone l hl]]
    · rw [← hhistory, List.filter_eq_nil_iff.2 fun l hl => by simp [hnone l hl]]
      rfl
  · have hended := h.endedOf_eq ht
    have hchanges := (h.changes_so_far hcalm ht).symm.trans hhistory
    obtain ⟨givenUp, hcalls, -⟩ := h.made ht
    have htake : ∀ n, n ≤ t.finished.size + 1 → t.finished.size ≤ n →
        ((t.finished.toList.map Prod.fst).filterMap (Call.change p.capacity)
          ++ (labelsOf labels i t.finished.size).filterMap Label.change?
          = ((calls.getD i []).take n).filterMap (Call.change p.capacity)) →
        ∃ n, Written p.capacity i calls labels n := fun n hle hge heq =>
      ⟨n, hended ▸ hge, hended ▸ hle, hchanges.symm.trans heq⟩
    rw [List.getD_eq_getElem?_getD, hcalls, Option.getD_some] at htake
    have hlength : (t.finished.toList.map Prod.fst).length = t.finished.size := by simp
    have hfinished : (labelsOf labels i t.finished.size).filterMap Label.change? = [] →
        ∃ n, Written p.capacity i calls labels n := by
      intro hnil
      refine htake t.finished.size (Nat.le_succ _) (Nat.le_refl _) ?_
      rw [hnil, List.append_nil, List.append_assoc, List.append_assoc, List.take_left' hlength]
    rcases hc : t.current with _ | a
    · refine hfinished ?_
      rw [(h.traced.2 i t ht).unbegun _ (Nat.le_refl _) (.inl hc)]
      rfl
    · obtain ⟨es, hes, hf⟩ := (h.traced.2 i t ht).current a hc
      rcases changes_of_follows hf with hnil | hall
      · exact hfinished (hes ▸ hnil)
      · refine htake (t.finished.size + 1) (Nat.le_refl _) (Nat.le_succ _) ?_
        rw [hes, hall, hc, List.append_assoc,
          List.take_left' (by simp), List.filterMap_append]
        rfl

/-- Whatever a run of one writing thread reads is the word of the history up to then. -/
theorem Run.load_of_oneWriter (hone : OneWriter p.capacity calls)
    (h : Run ((p.bitSet s w).callers stops) (.start (p.bitSet s w).store calls) labels m)
    {pre post : List (Label w Call Reply)} {j number cell : Nat} {call : Call} {v : Word w}
    (hl : labels = pre ++ ⟨j, number, call, .loaded cell v⟩ :: post) :
    ((p.after pre).packed w).load? cell = some v := by
  obtain ⟨m₁, mishap, t, store', t', hr, ht, hm, -⟩ := h.split hl
  rw [← (hr.fresh (f := ⟨p, []⟩) hone).1]
  exact hm.fits

/-- What remains when all calls have been made is what the writer leaves alone. -/
theorem EndedRun.remains_of_writer (hp : 0 < p.capacity)
    (hwriter : ∀ j, j ≠ i → ∀ call ∈ calls.getD j [], call.change p.capacity = none)
    (h : EndedRun p s w calls labels m) :
    (p.bitSet s w).remains m = (p.performAll (calls.getD i [])).2.remains calls := by
  obtain ⟨stops, hrun⟩ := h.run
  have hafter : p.after labels = (p.performAll (calls.getD i [])).2 := by
    rw [Plain.performAll_snd, Plain.after, ← hrun.history_of_writer hwriter, h.changes_of_thread]
  have hcap : (p.performAll (calls.getD i [])).2.capacity = p.capacity := by
    rw [← hafter, Plain.capacity_after]
  have hq : 0 < (p.performAll (calls.getD i [])).2.capacity := hcap ▸ hp
  simp only [BitSet.remains, Plain.remains, h.after_eq (.inr ⟨i, hwriter⟩), hafter,
    Plain.contents_bitSet hq, perform_bitSet hq, h.failures_eq, hcap, Plain.perform]

end Runs

theorem Plain.askAll_snd : ∀ (calls : List Call) (p : Plain),
    (p.askAll (calls.map .call)).2 = (p.performAll calls).2
  | [], _ => rfl
  | call :: calls, p => askAll_snd calls (p.perform call).2

/-- The programs of reads do not differ where there are no locks. -/
theorem Strategy.code_unsynchronized_get (capacity k : Nat) :
    unsynchronized.code w capacity (.get k) = lockFree.code w capacity (.get k) := rfl

section Writer

variable {p : Plain} {i : Nat} {stops : Ending Reply → Bool} {calls : List (List Call)}
  {labels : List (Label w Call Reply)} {m : Machine w Call Reply}

theorem Written.after_eq {n : Nat} (h : Written p.capacity i calls labels n) :
    p.after labels = p.alone calls i n := by
  rw [Plain.alone, Plain.performAll_snd, Plain.after, h.history]

/-- A read returns the bit of the moment at which it loads its word. -/
theorem Run.read_of_writer
    (hwriter : ∀ j, j ≠ i → ∀ call ∈ calls.getD j [], call.change p.capacity = none)
    (h : Run ((p.bitSet .unsynchronized w).callers stops)
      (.start (p.bitSet .unsynchronized w).store calls) labels m)
    (hcalm : IsCalm labels) {j number k : Nat} {r : Reply}
    (hl : ⟨j, number, .get k, .returned r⟩ ∈ labels) (hk : k < p.capacity) :
    ∃ before pre post after v n,
      labels = before ++ ⟨j, number, .get k, .began⟩
        :: (pre ++ ⟨j, number, .get k, .loaded (Address.locate w k).word v⟩
          :: (post ++ ⟨j, number, .get k, .returned r⟩ :: after))
      ∧ Written p.capacity i calls (before ++ ⟨j, number, .get k, .began⟩ :: pre) n
      ∧ r = .ok (.bit ((p.alone calls i n).bit k)) := by
  obtain ⟨before, during, after, es, a, hspan, -, hduring, hf, hr⟩ := h.span_of_returned hl
  obtain ⟨v, rfl, hbit⟩ := hf.lockFree_get hk (Strategy.code_unsynchronized_get p.capacity k) hr
  obtain ⟨pre, post, rfl, -⟩ := List.filter_eq_cons_iff.1 hduring
  have hsplit : labels = (before ++ ⟨j, number, .get k, .began⟩ :: pre)
      ++ ⟨j, number, .get k, .loaded (Address.locate w k).word v⟩
        :: (post ++ ⟨j, number, .get k, .returned r⟩ :: after) := by
    rw [hspan]
    simp
  have hload := h.load_of_oneWriter ⟨i, hwriter⟩ hsplit
  rw [hsplit] at h hcalm
  obtain ⟨m₁, hprefix⟩ := h.of_append
  obtain ⟨n, hwritten⟩ :=
    hprefix.written hwriter fun l hl => hcalm l (List.mem_append_left _ hl)
  refine ⟨before, pre, post, after, v, n, by simp [hsplit], hwritten, ?_⟩
  have hcap : k < (p.after (before ++ ⟨j, number, .get k, .began⟩ :: pre)).capacity := by
    rwa [Plain.capacity_after]
  rw [hbit, ← hwritten.after_eq, Plain.bitIn_of_load? hcap hload]

theorem Run.writerRun (hp : 0 < p.capacity)
    (hwriter : ∀ j, j ≠ i → ∀ call ∈ calls.getD j [], call.change p.capacity = none)
    (h : Run ((p.bitSet .unsynchronized w).callers stops)
      (.start (p.bitSet .unsynchronized w).store calls) labels m)
    (hcalm : IsCalm labels) : WriterRun p i calls labels m := by
  refine ⟨?_, fun j number k r hl hk => h.read_of_writer hwriter hcalm hl hk,
    fun l hl k hi hk => h.event_of_refused hl hi hk, fun hdone hmade s w' => ?_⟩
  · obtain ⟨n, hwritten⟩ := h.written hwriter hcalm
    refine ⟨n, hwritten, ?_⟩
    rw [← hwritten.after_eq]
    exact (h.fresh (f := ⟨p, []⟩) ⟨i, hwriter⟩).1
  · have hended : EndedRun p .unsynchronized w calls labels m :=
      ⟨⟨stops, h⟩, hdone, hmade, hcalm⟩
    have hremains := hended.remains_of_writer hp hwriter
    refine ⟨?_, fun labels' m' h' => (h'.remains_of_writer hp hwriter).trans hremains.symm⟩
    rintro alone rfl
    have hq : 0 < (p.performAll (calls.getD i [])).2.capacity := by
      rwa [Plain.performAll_snd, Plain.capacity_updateAll]
    rw [hremains, askAll_bitSet s w' _ hp, Plain.askAll_snd]
    refine ⟨(Plain.contents_bitSet hq s w').symm, ?_⟩
    rw [perform_bitSet hq]
    rfl

end Writer

/-- One thread makes the changes of a new unsynchronised bitset, others read, and all come to their
end. -/
theorem readers_see_writer {capacity : Nat} (hc : 0 < capacity) :
    (∀ s w, BitSet.create s w capacity = .ok ((Plain.clear capacity).bitSet s w))
    ∧ ∀ (w : Width) (b : BitSet w), BitSet.create .unsynchronized w capacity = .ok b →
      ∀ (stops : Ending Reply → Bool) (i : Nat) (calls : List (List Call)),
        (∀ j, j ≠ i → ∀ call ∈ calls.getD j [], call.change capacity = none) →
        (b.callers stops).Terminates (.start b.store calls)
        ∧ ∀ labels m, Run (b.callers stops) (.start b.store calls) labels m → IsCalm labels →
          WriterRun (.clear capacity) i calls labels m
          ∧ (m.isDone = true → (∀ r, stops (.returned r) = false) →
            m.threads.map (fun t => t.finished.toList.map Prod.fst) = calls) := by
  refine ⟨fun s w => Fragile.create_eq hc s w, fun w b hb stops i calls hwriter => ?_⟩
  obtain rfl := Except.ok.inj (hb.symm.trans (Fragile.create_eq hc .unsynchronized w))
  rw [← Plain.capacity_clear capacity] at hc hwriter
  exact ⟨Fragile.terminates _ _ _ stops calls, fun labels m h hcalm =>
    ⟨h.writerRun hc hwriter hcalm, fun hdone hstops => h.made_of_isCalm hcalm hdone hstops⟩⟩

/-- The first read loads its word between the load and the store of the first update, and returns after
that update has. -/
theorem readers_see_writer_between : 0 < 10
    ∧ ∃ (b : BitSet .w8) (labels : List (Label .w8 Call Reply)) (m : Machine .w8 Call Reply),
      BitSet.create .unsynchronized .w8 10 = .ok b
      ∧ (∀ j, j ≠ 0 → ∀ call ∈ ([[.update .set 3, .update .set 10], [.get 3, .get 3]]
          : List (List Call)).getD j [], call.change 10 = none)
      ∧ Run (b.callers fun _ => false)
        (.start b.store [[.update .set 3, .update .set 10], [.get 3, .get 3]]) labels m
      ∧ IsCalm labels
      ∧ WriterRun (.clear 10) 0 [[.update .set 3, .update .set 10], [.get 3, .get 3]] labels m
      ∧ eventsOf labels 0 0 = [.began, .loaded 0 0, .computed, .stored 0 0 8, .returned (.ok .done)]
      ∧ eventsOf labels 1 0 = [.began, .loaded 0 0, .computed, .returned (.ok (.bit false))]
      ∧ eventsOf labels 1 1 = [.began, .loaded 0 8, .computed, .returned (.ok (.bit true))] := by
  obtain ⟨⟨labels, m⟩, hf, hcalm, hupdate, hfirst, hsecond⟩ :
      ∃ r : List (Label .w8 Call Reply) × Machine .w8 Call Reply,
        (BitSet.callers ⟨.unsynchronized, 10, .fresh 2 0⟩ fun _ => false).follow
            (.start (.fresh 2 0) [[.update .set 3, .update .set 10], [.get 3, .get 3]])
            [⟨0, .none⟩, ⟨0, .none⟩, ⟨1, .none⟩, ⟨1, .none⟩, ⟨0, .none⟩, ⟨0, .none⟩, ⟨0, .none⟩,
              ⟨1, .none⟩, ⟨1, .none⟩, ⟨1, .none⟩, ⟨1, .none⟩, ⟨1, .none⟩, ⟨1, .none⟩, ⟨0, .none⟩,
              ⟨0, .none⟩] = some r
          ∧ r.1.all (fun l => !l.event.isPanic) = true
          ∧ eventsOf r.1 0 0
            = [.began, .loaded 0 0, .computed, .stored 0 0 8, .returned (.ok .done)]
          ∧ eventsOf r.1 1 0 = [.began, .loaded 0 0, .computed, .returned (.ok (.bit false))]
          ∧ eventsOf r.1 1 1 = [.began, .loaded 0 8, .computed, .returned (.ok (.bit true))] :=
    ⟨_, rfl, rfl, rfl, rfl, rfl⟩
  have hwriter : ∀ j, j ≠ 0 → ∀ call ∈ ([[.update .set 3, .update .set 10], [.get 3, .get 3]]
      : List (List Call)).getD j [], call.change 10 = none := by
    rintro (_ | _ | j) hj call hcall
    · exact absurd rfl hj
    · obtain rfl : call = .get 3 := by simpa using hcall
      rfl
    · simp at hcall
  have hrun := Run.of_follow .start hf
  rw [← isCalm_iff] at hcalm
  exact ⟨by decide, _, labels, m, rfl, hwriter, hrun, hcalm,
    (((readers_see_writer (by decide : 0 < 10)).2 .w8 _ rfl _ 0 _ hwriter).2 labels m hrun hcalm).1,
    hupdate, hfirst, hsecond⟩

end SharedBits
