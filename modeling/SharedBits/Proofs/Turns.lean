import SharedBits.Proofs.InTurn
import SharedBits.Proofs.Solo

/-!
# Threads in turn

When all calls have been made, the history is made of the changes of all calls, each as often as it was
asked for (`EndedRun.history_perm`). Where the threads take their steps one after another, it has them in
the order of the threads (`EndedRun.history_of_turns`), and nobody comes between the load and the store of
a call. So the words are those of the history under every strategy (`Run.fresh_of_turns`).
-/

namespace SharedBits

variable {w : Width} {κ ρ : Type}

/-! ## Series -/

section Series

variable {S T : Type}

/-- A list, number by number, has the same members, each as often. -/
theorem flatMap_filter_number_perm (number : S → Nat) {N : Nat} {l : List S}
    (hlt : ∀ x ∈ l, number x < N) :
    ((List.range N).flatMap fun n => l.filter fun x => number x == n).Perm l := by
  have hperm : (l.mergeSort fun x y => number x ≤ number y).Perm l := List.mergeSort_perm l _
  have hsorted : (l.mergeSort fun x y => number x ≤ number y).Pairwise
      fun x y => number x ≤ number y := by
    refine (List.pairwise_mergeSort (fun x y z hxy hyz => ?_) (fun x y => ?_) l).imp ?_
    · simp only [decide_eq_true_eq] at hxy hyz ⊢
      exact hxy.trans hyz
    · simpa using Nat.le_total (number x) (number y)
    · intro x y hxy
      simpa using hxy
  have hnumbers := flatMap_filter_number number N hsorted fun x hx => hlt x (hperm.mem_iff.1 hx)
  refine (List.Perm.flatMap_left _ fun n _ => (hperm.filter _).symm).trans ?_
  rwa [hnumbers]

theorem flatMap_range_getD (f : List S → List T) (l : List (List S)) :
    ((List.range l.length).flatMap fun i => f (l.getD i [])) = l.flatMap f := by
  have hself : (List.range l.length).map (fun i => l.getD i []) = l :=
    List.ext_getElem (by simp) fun i _ hi => by simp [hi]
  calc (List.range l.length).flatMap fun i => f (l.getD i [])
    _ = ((List.range l.length).map fun i => l.getD i []).flatMap f := by rw [List.flatMap_map]
    _ = l.flatMap f := by rw [hself]

end Series

/-! ## The history of all threads -/

namespace EndedRun

variable {p : Plain} {s : Strategy} {calls : List (List Call)} {labels : List (Label w Call Reply)}
  {m : Machine w Call Reply}

theorem thread_lt (h : EndedRun p s w calls labels m) : ∀ l ∈ labels, l.thread < calls.length := by
  obtain ⟨stops, hrun⟩ := h.run
  intro l hl
  have hlt := hrun.traced.1 l hl
  rwa [← h.made, List.length_map]

/-- The changes of a run, thread by thread. -/
theorem changes_of_threads (h : EndedRun p s w calls labels m) :
    history ((List.range calls.length).flatMap fun i => labels.filter fun l => l.thread == i)
      = calls.flatMap (List.filterMap (Call.change p.capacity)) := by
  rw [history, List.filterMap_flatMap, ← flatMap_range_getD]
  exact List.flatMap_congr fun i _ => h.changes_of_thread i

/-- Whatever the order, the changes are those of all calls, each as often as it is asked for. -/
theorem history_perm (h : EndedRun p s w calls labels m) :
    (history labels).Perm (calls.flatMap (List.filterMap (Call.change p.capacity))) := by
  rw [← h.changes_of_threads]
  exact ((flatMap_filter_number_perm Label.thread h.thread_lt).filterMap _).symm

theorem history_of_turns (h : EndedRun p s w calls labels m) (hturns : InTurns labels) :
    history labels = calls.flatMap (List.filterMap (Call.change p.capacity)) := by
  rw [← h.changes_of_threads, flatMap_filter_number Label.thread _ hturns h.thread_lt]

end EndedRun

/-! ## Runs in turn -/

section Turns

variable {f : Fragile} {p : Plain} {s : Strategy} {stops : Ending Reply → Bool}
  {calls : List (List Call)} {labels : List (Label w Call Reply)} {m : Machine w Call Reply}

/-- A thread that is in a call has taken a step. -/
theorem Run.exists_label_of_current {sys : System w κ ρ} {store : Store w} {calls : List (List κ)}
    {labels : List (Label w κ ρ)} {m : Machine w κ ρ} {i : Nat} {t : Thread w κ ρ}
    {a : Active w κ ρ} (h : Run sys (.start store calls) labels m) (ht : m.threads[i]? = some t)
    (hc : t.current = some a) : ∃ l ∈ labels, l.thread = i := by
  obtain ⟨es, hes, -⟩ := (h.traced.2 i t ht).current a hc
  have hmem : ⟨i, t.finished.size, a.call, .began⟩ ∈ labelsOf labels i t.finished.size := by
    simp [hes]
  exact ⟨_, (mem_labelsOf.1 hmem).1, rfl⟩

/-- In turn, the words are those of the history. A call of an earlier thread never goes on, so only those
matter that no later thread has overtaken. -/
theorem Run.fresh_of_turns (hturns : InTurns labels)
    (h : Run ((f.bitSet s w).callers stops) (.start (f.bitSet s w).store calls) labels m) :
    m.store.cells = (f.plain.after labels).packed w := by
  refine (h.of_moves (fun labels m => InTurns labels →
    m.store.cells = (f.plain.after labels).packed w
      ∧ ∀ (i : Nat) (t : Thread w Call Reply) (a : Active w Call Reply), m.threads[i]? = some t →
        t.current = some a → (∀ l ∈ labels, l.thread ≤ i) →
        a.IsFresh f.plain.capacity m.store.cells) (fun _ => ⟨rfl, ?_⟩) ?_ hturns).1
  · intro i t a ht hc
    cases (Machine.current_start (List.mem_of_getElem? ht)).symm.trans hc
  · intro labels m mishap i t call e store' t' hr ih ht hm hturns
    obtain ⟨hturns, -, hle⟩ := List.pairwise_append.1 hturns
    have hle : ∀ l ∈ labels, l.thread ≤ i := fun l hl => hle l hl _ List.mem_cons_self
    obtain ⟨hcells, hfresh⟩ := ih hturns
    obtain ⟨hcells', hfresh'⟩ := hm.fresh (i := i) (fun a ha => hfresh i t a ht ha hle) hcells
    refine ⟨hcells', fun j u b hu hb hlast => ?_⟩
    rcases (getElem?_set_thread ht).1 hu with ⟨rfl, rfl⟩ | ⟨hj, hu⟩
    · exact hfresh' b hb
    · -- A later thread cannot be in a call already.
      obtain ⟨l, hl, rfl⟩ := hr.exists_label_of_current hu hb
      have hij : i ≤ l.thread := hlast _ (List.mem_append_right _ List.mem_cons_self)
      exact absurd (Nat.le_antisymm (hle l hl) hij) hj

/-- What a run in turn leaves are the changes of all calls in their order, whatever the strategy. -/
theorem EndedRun.after_of_turns (h : EndedRun p s w calls labels m) (hturns : InTurns labels) :
    (p.bitSet s w).after m
      = (p.updateAll (calls.flatMap (List.filterMap (Call.change p.capacity)))).bitSet s w := by
  obtain ⟨stops, hrun⟩ := h.run
  have hcells := hrun.fresh_of_turns (f := ⟨p, []⟩) hturns
  rw [h.after_eq_of_cells fun _ => hcells, Plain.after, h.history_of_turns hturns]

end Turns

end SharedBits
