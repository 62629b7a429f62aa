import SharedBits.Proofs.Settling

/-!
# One thread that writes

Where all changes are asked of one thread, nobody comes between its load and its store. So the words are
those of the history under every strategy, also where nothing keeps updates apart (`Run.fresh`), and a
run of all calls leaves the bits after its history (`EndedRun.after_eq`).
-/

namespace SharedBits

variable {w : Width}

/-- All changes are asked of one thread. -/
def OneWriter (capacity : Nat) (calls : List (List Call)) : Prop :=
  ∃ i, ∀ j, j ≠ i → ∀ call ∈ calls.getD j [], call.change capacity = none

theorem OneWriter.eq {capacity i j : Nat} {calls : List (List Call)} {call call' : Call}
    (h : OneWriter capacity calls) (hi : call ∈ calls.getD i []) (hj : call' ∈ calls.getD j [])
    (hchange : call.change capacity ≠ none) (hchange' : call'.change capacity ≠ none) : i = j := by
  obtain ⟨k, hk⟩ := h
  have hik : i = k := by
    by_contra hne
    exact hchange (hk i hne call hi)
  have hjk : j = k := by
    by_contra hne
    exact hchange' (hk j hne call' hj)
  rw [hik, hjk]

theorem Active.Knows.change_of_isWrite {P : Nat → Word w → Prop} {capacity : Nat}
    {a a' : Active w Call Reply} {e : Event w Reply} (h : a.Knows P capacity) (hp : a.Passes e a')
    (he : e.isWrite = true) : a.call.change capacity ≠ none := by
  obtain ⟨known, hmakes, -⟩ := h
  cases hp with
  | stored old hr =>
    rw [hr] at hmakes
    obtain ⟨⟨op, k, v, hchange, -⟩, -⟩ := hmakes
    simp [hchange]
  | committed hr hs =>
    rw [hr] at hmakes
    obtain ⟨⟨op, k, hchange, -⟩, -⟩ := hmakes
    simp [hchange]
  | _ => cases he

section Runs

variable {f : Fragile} {p : Plain} {s : Strategy} {stops : Ending Reply → Bool}
  {calls : List (List Call)} {labels : List (Label w Call Reply)} {m : Machine w Call Reply}

/-- What a thread writes is the next change of the history, if the word that it has read is there. -/
theorem Thread.Moves.fresh {i : Nat} {t t' : Thread w Call Reply} {mishap : Mishap} {call : Call}
    {e : Event w Reply} {store' : Store w}
    (hm : t.Moves ((f.bitSet s w).callers stops) m.store mishap call e store' t')
    (hfresh : ∀ a, t.current = some a → a.IsFresh f.plain.capacity m.store.cells)
    (hcells : m.store.cells = (f.plain.after labels).packed w) :
    store'.cells = (f.plain.after (labels ++ [⟨i, t.finished.size, call, e⟩])).packed w
      ∧ ∀ a, t'.current = some a → a.IsFresh f.plain.capacity store'.cells := by
  have hquiet : e.isWrite = false → store'.cells
      = (f.plain.after (labels ++ [⟨i, t.finished.size, call, e⟩])).packed w := by
    intro he
    rw [hm.cells_eq he, hcells, Plain.after_snoc_of_none]
    exact (Label.change?_eq_none_or _).resolve_right fun h => by simp [he] at h
  cases hm with
  | begins =>
    refine ⟨hquiet rfl, fun a ha => ?_⟩
    cases ha
    exact System.opening_knows rfl _
  | passes hc hp hf =>
    refine ⟨(hfresh _ hc).cells_after hp hf hcells, fun a ha => ?_⟩
    cases ha
    exact (hfresh _ hc).passes hp hf
  | returns => exact ⟨hquiet rfl, fun a ha => by cases ha⟩
  | panics => exact ⟨hquiet rfl, fun a ha => by cases ha⟩

/-- With one writing thread the words are those of the history, and whatever that thread has read is
still there. -/
theorem Run.fresh (hone : OneWriter f.plain.capacity calls)
    (h : Run ((f.bitSet s w).callers stops) (.start (f.bitSet s w).store calls) labels m) :
    m.store.cells = (f.plain.after labels).packed w
      ∧ ∀ (i : Nat) (t : Thread w Call Reply) (a : Active w Call Reply), m.threads[i]? = some t →
        t.current = some a → a.IsFresh f.plain.capacity m.store.cells := by
  refine h.of_moves (fun labels m => m.store.cells = (f.plain.after labels).packed w
    ∧ ∀ (i : Nat) (t : Thread w Call Reply) (a : Active w Call Reply), m.threads[i]? = some t →
      t.current = some a → a.IsFresh f.plain.capacity m.store.cells) ⟨rfl, ?_⟩ ?_
  · intro i t a ht hc
    cases (Machine.current_start (List.mem_of_getElem? ht)).symm.trans hc
  · rintro labels m mishap i t call e store' t' hr ⟨hcells, hfresh⟩ ht hm
    obtain ⟨hcells', hfresh'⟩ := hm.fresh (i := i) (fun a ha => hfresh i t a ht ha) hcells
    refine ⟨hcells', fun j u b hu hb => ?_⟩
    rcases (getElem?_set_thread ht).1 hu with ⟨rfl, rfl⟩ | ⟨hj, hu'⟩
    · exact hfresh' b hb
    · refine (hfresh j u b hu' hb).imp fun hchange cell v hv => ?_
      cases he : e.isWrite with
      | false => rwa [hm.cells_eq he]
      | true =>
        -- Whoever writes is the only thread with a change.
        cases hm with
        | passes hc hp hf =>
          have hwrites := (hfresh i t _ ht hc).change_of_isWrite hp he
          exact absurd (hone.eq (hr.call_mem hu' hb) (hr.call_mem ht hc) hchange hwrites) hj
        | _ => cases he

/-- When all calls have been made, a bitset of a strategy that loses no update holds the bits after the
history, and so does one of any strategy if its words are those of the history. -/
theorem EndedRun.after_eq_of_cells (h : EndedRun p s w calls labels m)
    (hcells : s.isSynchronized = false → m.store.cells = (p.after labels).packed w) :
    (p.bitSet s w).after m = (p.after labels).bitSet s w := by
  obtain ⟨stops, hrun⟩ := h.run
  cases hsync : s.isSynchronized with
  | true => exact hrun.rests_calm hsync h.isCalm h.isResting
  | false =>
    obtain rfl := Strategy.eq_unsynchronized hsync
    have hlocks : m.store.locks = #[] :=
      Array.eq_empty_of_size_eq_zero (hrun.size_locks_bitSet (f := ⟨p, []⟩))
    have hstore : m.store = ((p.after labels).bitSet .unsynchronized w).store := by
      calc m.store = ⟨m.store.cells, m.store.locks⟩ := rfl
        _ = _ := by
          rw [hcells hsync, hlocks]
          simp [Plain.bitSet, Fragile.bitSet, Fragile.store, Strategy.locksFor, Strategy.discipline]
    simp only [BitSet.after, hstore, Plain.bitSet, Fragile.bitSet, Plain.capacity_after]

/-- So it is where one thread has made all changes. -/
theorem EndedRun.after_eq (hs : s.isSynchronized = true ∨ OneWriter p.capacity calls)
    (h : EndedRun p s w calls labels m) :
    (p.bitSet s w).after m = (p.after labels).bitSet s w := by
  refine h.after_eq_of_cells fun hsync => ?_
  obtain ⟨stops, hrun⟩ := h.run
  have hone : OneWriter p.capacity calls := hs.resolve_left (by simp [hsync])
  exact (hrun.fresh (f := ⟨p, []⟩) hone).1

end Runs

end SharedBits
