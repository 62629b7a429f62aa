import SharedBits.Proofs.Complete
import SharedBits.Proofs.Contention
import SharedBits.Proofs.Deadlock

/-!
# Coming to an end

Threads that share a bitset come to their end under every schedule: no run goes on for ever, if no swap
fails spuriously, and none is stuck before all threads have made their calls (`Fragile.terminates`). So
when a scheduler finds nobody left to move, all calls have been made; and where all indices are in range
and no computation panics, none has failed (`EndedRun.of_settles`).
-/

namespace SharedBits

variable {w : Width} {κ ρ : Type}

/-- Moves, none of them a panic, lead from one machine to the other. -/
def System.Leads (sys : System w κ ρ) (m m' : Machine w κ ρ) : Prop :=
  ∃ moves labels, (∀ move ∈ moves, move.mishap ≠ .panic) ∧ sys.follow m moves = some (labels, m')

/-- Moves, none of them a panic, lead to a machine in which no thread can go on. -/
def System.Settles (sys : System w κ ρ) (m m' : Machine w κ ρ) : Prop :=
  sys.Leads m m' ∧ ∀ i, sys.step m' ⟨i, .none⟩ = none

/-- No run goes on for ever, and none is stuck before all threads have made their calls. -/
structure System.Terminates (sys : System w κ ρ) (m₀ : Machine w κ ρ) : Prop where
  bounded : ∃ N, ∀ labels m, Run sys m₀ labels m → IsFaithful labels → labels.length ≤ N
  goes_on : ∀ labels m, Run sys m₀ labels m → m.isDone = false →
    ∃ i label m', sys.step m ⟨i, .none⟩ = some (label, m')

section Leads

variable {sys : System w κ ρ} {m m' m'' : Machine w κ ρ}

theorem System.follow_append : ∀ {moves moves' : List Move} {m m' m'' : Machine w κ ρ}
    {labels labels' : List (Label w κ ρ)}, sys.follow m moves = some (labels, m') →
      sys.follow m' moves' = some (labels', m'') →
      sys.follow m (moves ++ moves') = some (labels ++ labels', m'')
  | [], _, _, _, _, _, _, h, h' => by
    cases h
    exact h'
  | move :: moves, moves', m, m', m'', labels, labels', h, h' => by
    unfold follow at h
    split at h
    · cases h
    · rename_i label m₁ hstep
      obtain ⟨⟨labels₁, m₂⟩, hrest, heq⟩ := Option.map_eq_some_iff.1 h
      cases heq
      simp only [List.cons_append, follow, hstep, System.follow_append hrest h', Option.map_some]

theorem System.Leads.calm (h : sys.Leads m m') (hserved : Served sys m) :
    ∃ labels, Run sys m labels m' ∧ ∀ l ∈ labels, l.event ≠ .panicked := by
  obtain ⟨moves, labels, hmoves, hfollow⟩ := h
  exact ⟨labels, Run.of_follow .start hfollow, hserved.follow_calm hmoves hfollow⟩

/-- When all threads have made their calls, none can go on. -/
theorem System.step_of_isDone (hdone : m.isDone = true) (move : Move) : sys.step m move = none := by
  unfold step
  rcases ht : m.threads[move.thread]? with _ | t
  · rfl
  · obtain ⟨hw, hc⟩ := Thread.isDone_iff.1 (List.all_eq_true.1 hdone t (List.mem_of_getElem? ht))
    simp only [stepThread, hc, hw]

end Leads

/-! ## The calls that have been made -/

section Made

variable {sys : System w κ ρ} {store : Store w} {calls : List (List κ)} {m : Machine w κ ρ}
  {labels : List (Label w κ ρ)} {i : Nat} {t : Thread w κ ρ}

/-- The calls of a thread: those that have ended, the one it is in, those to come, and those that it
has given up, which it does only after an ending that stops it. -/
theorem Run.made (h : Run sys (.start store calls) labels m) (ht : m.threads[i]? = some t) :
    ∃ givenUp, calls[i]? = some (t.finished.toList.map Prod.fst
        ++ (t.current.map Active.call).toList ++ t.waiting ++ givenUp)
      ∧ (givenUp = [] ∨ ∃ x ∈ t.finished.toList, sys.stops x.2 = true) := by
  refine h.of_moves (fun _ m => ∀ i t, m.threads[i]? = some t →
    ∃ givenUp, calls[i]? = some (t.finished.toList.map Prod.fst
        ++ (t.current.map Active.call).toList ++ t.waiting ++ givenUp)
      ∧ (givenUp = [] ∨ ∃ x ∈ t.finished.toList, sys.stops x.2 = true)) ?_ ?_ i t ht
  · intro i t ht
    obtain ⟨waiting, hw, rfl⟩ := Machine.exists_start ht
    exact ⟨[], by simpa [Thread.start] using hw, .inl rfl⟩
  · intro labels m mishap j u call e store' u' _ ih hu hm i t ht
    rcases (getElem?_set_thread hu).1 ht with ⟨rfl, rfl⟩ | ⟨-, ht⟩
    · obtain ⟨givenUp, hcalls, hstops⟩ := ih i u hu
      have hfinish : ∀ {a : Active w κ ρ} (ending : Ending ρ), u.current = some a → ∃ givenUp,
          calls[i]? = some ((u.finish sys.stops a.call ending).finished.toList.map Prod.fst
            ++ ((u.finish sys.stops a.call ending).current.map Active.call).toList
            ++ (u.finish sys.stops a.call ending).waiting ++ givenUp)
          ∧ (givenUp = [] ∨ ∃ x ∈ (u.finish sys.stops a.call ending).finished.toList,
            sys.stops x.2 = true) := by
        intro a ending hc
        cases hstop : sys.stops ending with
        | true =>
          refine ⟨u.waiting ++ givenUp, ?_, .inr ⟨(a.call, ending), by simp [Thread.finish], hstop⟩⟩
          simpa [Thread.finish, hstop, hc] using hcalls
        | false =>
          refine ⟨givenUp, by simpa [Thread.finish, hstop, hc] using hcalls, hstops.imp_right ?_⟩
          rintro ⟨x, hx, hstop'⟩
          exact ⟨x, by simp [Thread.finish, Array.mem_toList_iff.1 hx], hstop'⟩
      cases hm with
      | begins hc hw => exact ⟨givenUp, by simpa [hc, hw, System.opening] using hcalls, hstops⟩
      | passes hc hp => exact ⟨givenUp, by simpa [hc, hp.call_eq] using hcalls, hstops⟩
      | returns hc hr => exact hfinish _ hc
      | panics hc hd => exact hfinish _ hc
    · exact ih i t ht

theorem Run.call_mem (h : Run sys (.start store calls) labels m) (ht : m.threads[i]? = some t)
    {a : Active w κ ρ} (hc : t.current = some a) : a.call ∈ calls.getD i [] := by
  obtain ⟨givenUp, hcalls, -⟩ := h.made ht
  rw [List.getD_eq_getElem?_getD, hcalls, hc]
  simp

theorem Run.call_mem_of_label (h : Run sys (.start store calls) labels m) {l : Label w κ ρ}
    (hl : l ∈ labels) : l.call ∈ calls.getD l.thread [] := by
  obtain ⟨pre, post, hsplit⟩ := List.append_of_mem hl
  obtain ⟨m₁, mishap, t, store', t', hr, ht, hm, -⟩ := h.split hsplit
  generalize l.event = e at hm
  generalize l.call = call at hm
  cases hm with
  | begins hc hw =>
    obtain ⟨givenUp, hcalls, -⟩ := hr.made ht
    rw [List.getD_eq_getElem?_getD, hcalls, hw]
    simp
  | passes hc => exact hr.call_mem ht hc
  | returns hc => exact hr.call_mem ht hc
  | panics hc => exact hr.call_mem ht hc

/-- When all threads have come to their end, and no ending has stopped one, all calls have been made. -/
theorem Run.made_of_isDone (h : Run sys (.start store calls) labels m) (hdone : m.isDone = true)
    (hstops : ∀ (i : Nat) (t : Thread w κ ρ) (n : Nat) (call : κ) (ending : Ending ρ), m.threads[i]? = some t →
      t.finished[n]? = some (call, ending) → sys.stops ending = false) :
    m.threads.map (fun t => t.finished.toList.map Prod.fst) = calls := by
  have hlength := h.length_threads
  refine List.ext_getElem? fun i => ?_
  rw [List.getElem?_map]
  rcases ht : m.threads[i]? with _ | t
  · have hle : calls.length ≤ i := by
      rw [List.getElem?_eq_none_iff] at ht
      simpa [Machine.start, hlength] using ht
    rw [List.getElem?_eq_none hle]
    rfl
  · obtain ⟨givenUp, hcalls, hstopped⟩ := h.made ht
    obtain ⟨hw, hc⟩ := Thread.isDone_iff.1 (List.all_eq_true.1 hdone t (List.mem_of_getElem? ht))
    have hnone : givenUp = [] := by
      refine hstopped.resolve_right ?_
      rintro ⟨x, hx, hstop⟩
      obtain ⟨n, hn⟩ := List.getElem?_of_mem hx
      have hget : t.finished[n]? = some (x.1, x.2) := by simpa using hn
      rw [hstops i t n x.1 x.2 ht hget] at hstop
      cases hstop
    rw [hcalls, hw, hc, hnone]
    simp

end Made

/-! ## Callers of a bitset -/

section Callers

variable {f : Fragile} {p : Plain} {s : Strategy} {stops : Ending Reply → Bool}
  {calls : List (List Call)} {labels : List (Label w Call Reply)} {m : Machine w Call Reply}

theorem Run.exists_step
    (h : Run ((f.bitSet s w).callers stops) (.start (f.bitSet s w).store calls) labels m)
    (hdone : m.isDone = false) :
    ∃ i label m', ((f.bitSet s w).callers stops).step m ⟨i, .none⟩ = some (label, m') := by
  cases hs : s.isSynchronized with
  | true =>
    obtain ⟨i, -, label, m', -, -, hstep, -⟩ := (h.recorded_bitSet hs).1.exists_step _ hdone
    exact ⟨i, label, m', hstep⟩
  | false =>
    obtain rfl := Strategy.eq_unsynchronized hs
    obtain ⟨t, ht, hunfinished⟩ : ∃ t ∈ m.threads, t.isDone = false := by
      simpa [Machine.isDone] using hdone
    obtain ⟨i, ht⟩ := List.getElem?_of_mem ht
    refine ⟨i, System.exists_step _ ht hunfinished fun a guard next lock _ _ hl => ?_⟩
    have hlocks : m.store.locks.size = 0 := h.size_locks_bitSet
    exact absurd (Array.getElem?_eq_some_iff.1 hl).1 (by omega)

/-- When all threads have come to their end without a panic, and no return stops one, all calls have been
made. -/
theorem Run.made_of_isCalm
    (h : Run ((f.bitSet s w).callers stops) (.start (f.bitSet s w).store calls) labels m)
    (hcalm : IsCalm labels) (hdone : m.isDone = true) (hstops : ∀ r, stops (.returned r) = false) :
    m.threads.map (fun t => t.finished.toList.map Prod.fst) = calls := by
  refine h.made_of_isDone hdone fun i t n call ending ht hn => ?_
  obtain ⟨es, hes, hends⟩ := (h.traced.2 i t ht).finished n call ending hn
  cases hends with
  | returned => exact hstops _
  | panicked =>
    have hmem : ⟨i, n, call, .panicked⟩ ∈ labelsOf labels i n := by simp [hes]
    exact absurd rfl (hcalm _ (mem_labelsOf.1 hmem).1)

/-- Whatever the strategy and the schedule, callers of a bitset come to an end. -/
theorem Fragile.terminates (f : Fragile) (s : Strategy) (w : Width) (stops : Ending Reply → Bool)
    (calls : List (List Call)) :
    ((f.bitSet s w).callers stops).Terminates (.start (f.bitSet s w).store calls) :=
  ⟨⟨_, fun _ _ h hfaithful => h.length_le_of_faithful hfaithful⟩, fun _ _ h hdone => h.exists_step hdone⟩

/-- Whether all calls address bits that are there. -/
def InRange (capacity : Nat) (calls : List (List Call)) : Prop :=
  ∀ thread ∈ calls, ∀ call ∈ thread, call.isRefused capacity = false

/-- Threads that stop at a refusal come to their end with all calls made, if all indices are in range. -/
theorem EndedRun.of_run (hrange : InRange p.capacity calls)
    (hrun : Run (p.bitSet s w).strict (.start (p.bitSet s w).store calls) labels m)
    (hdone : m.isDone = true) (hcalm : IsCalm labels) : EndedRun p s w calls labels m := by
  refine ⟨⟨_, hrun⟩, hdone, hrun.made_of_isDone hdone fun i t n call ending ht hn => ?_, hcalm⟩
  -- No call has been refused, so none has stopped its thread.
  obtain ⟨givenUp, hcalls, -⟩ := hrun.made ht
  have hmem : call ∈ t.finished.toList.map Prod.fst :=
    List.mem_map_of_mem (Array.mem_toList_iff.2 (Array.mem_of_getElem? hn))
  have hok := (Run.call_ended hrun hcalm ht hn).2.2
  rw [hrange _ (List.mem_of_getElem? hcalls) call (by simp [hmem])] at hok
  show (!ending.isOk) = false
  rw [hok]
  rfl

/-- When none of them can go on, they have come to their end. -/
theorem EndedRun.of_settles (hrange : InRange p.capacity calls)
    (h : (p.bitSet s w).strict.Settles (.start (p.bitSet s w).store calls) m) :
    ∃ labels, EndedRun p s w calls labels m := by
  obtain ⟨hleads, hstuck⟩ := h
  obtain ⟨labels, hrun, hcalm⟩ := hleads.calm ((Fragile.mk p []).served s w _ calls)
  have hdone : m.isDone = true := by
    by_contra hdone
    obtain ⟨i, label, m', hstep⟩ := hrun.exists_step (f := ⟨p, []⟩) (by simpa using hdone)
    cases hstep.symm.trans (hstuck i)
  exact ⟨labels, .of_run hrange hrun hdone hcalm⟩

theorem EndedRun.length_endings (h : EndedRun p s w calls labels m) :
    m.endings.map List.length = calls.map List.length := by
  rw [← h.made, Machine.endings, List.map_map, List.map_map]
  exact List.map_congr_left fun t _ => by simp

/-- Where all indices are in range, no call is refused. -/
theorem EndedRun.isOk (hrange : InRange p.capacity calls) (h : EndedRun p s w calls labels m) :
    ∀ es ∈ m.endings, ∀ e ∈ es, e.isOk = true := by
  intro es hes e he
  obtain ⟨t, ht, rfl⟩ := List.mem_map.1 hes
  obtain ⟨x, hx, rfl⟩ := List.mem_map.1 he
  have hmem : t.failures ∈ calls.map (List.countP (Call.isRefused p.capacity)) :=
    h.failures_eq ▸ List.mem_map_of_mem ht
  obtain ⟨thread, hthread, hcount⟩ := List.mem_map.1 hmem
  have hnone : t.failures = 0 := by
    rw [← hcount, List.countP_eq_zero]
    exact fun call hcall => by simp [hrange thread hthread call hcall]
  have hfailure := List.countP_eq_zero.1 hnone x hx
  simpa using hfailure

end Callers

end SharedBits
