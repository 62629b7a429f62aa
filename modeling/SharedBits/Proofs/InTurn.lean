import SharedBits.Machine.InTurn
import SharedBits.Proofs.Settling

/-!
# One thread after another

A program that runs alone to its end takes the steps that its thread can take while the others wait
(`Prog.finishes_of_run`). So there are moves that lead to the machine in which the threads have made
their calls one after another (`System.leads_inTurn`), and for a bitset it is clear what remains then
(`remains_inTurn`).
-/

namespace SharedBits

variable {w : Width} {κ ρ : Type}

/-- Steps of thread `i`, in which nothing goes wrong, lead from one machine to the other. -/
def System.LeadsAlone (sys : System w κ ρ) (i : Nat) (m m' : Machine w κ ρ) : Prop :=
  ∃ moves labels, (∀ move ∈ moves, move = ⟨i, .none⟩) ∧ sys.follow m moves = some (labels, m')

/-- Steps of thread `i` and then of those after it, one after another, in which nothing goes wrong, lead
from one machine to the other. -/
def System.LeadsInTurn (sys : System w κ ρ) (i : Nat) (m m' : Machine w κ ρ) : Prop :=
  ∃ moves labels, (∀ move ∈ moves, i ≤ move.thread ∧ move.mishap = .none)
    ∧ (moves.Pairwise fun move move' => move.thread ≤ move'.thread)
    ∧ sys.follow m moves = some (labels, m')

/-- No thread takes a step after one of a later thread. -/
def InTurns (labels : List (Label w κ ρ)) : Prop :=
  labels.Pairwise fun l l' => l.thread ≤ l'.thread

section Leads

variable {sys : System w κ ρ} {m m' m'' : Machine w κ ρ} {i : Nat}

theorem System.LeadsAlone.refl (m : Machine w κ ρ) : sys.LeadsAlone i m m := ⟨[], [], by simp, rfl⟩

theorem System.LeadsAlone.trans (h : sys.LeadsAlone i m m') (h' : sys.LeadsAlone i m' m'') :
    sys.LeadsAlone i m m'' := by
  obtain ⟨moves, labels, hmoves, hfollow⟩ := h
  obtain ⟨moves', labels', hmoves', hfollow'⟩ := h'
  exact ⟨_, _, List.forall_mem_append.2 ⟨hmoves, hmoves'⟩, sys.follow_append hfollow hfollow'⟩

theorem System.LeadsAlone.of_step (l : Label w κ ρ) (h : sys.step m ⟨i, .none⟩ = some (l, m')) :
    sys.LeadsAlone i m m' := ⟨[⟨i, .none⟩], [l], by simp, by simp [follow, h]⟩

theorem System.LeadsInTurn.refl (m : Machine w κ ρ) : sys.LeadsInTurn i m m :=
  ⟨[], [], by simp, .nil, rfl⟩

theorem System.LeadsAlone.inTurn (h : sys.LeadsAlone i m m') (h' : sys.LeadsInTurn (i + 1) m' m'') :
    sys.LeadsInTurn i m m'' := by
  obtain ⟨moves, labels, hmoves, hfollow⟩ := h
  obtain ⟨moves', labels', hmoves', hturns, hfollow'⟩ := h'
  refine ⟨_, _, List.forall_mem_append.2 ⟨fun move hmove => ?_, fun move hmove => ?_⟩,
    List.pairwise_append.2 ⟨?_, hturns, fun move hmove move' hmove' => ?_⟩,
    sys.follow_append hfollow hfollow'⟩
  · rw [hmoves move hmove]
    exact ⟨Nat.le_refl i, rfl⟩
  · exact ⟨Nat.le_of_succ_le (hmoves' move hmove).1, (hmoves' move hmove).2⟩
  · exact List.pairwise_of_forall_mem_list fun move hmove move' hmove' => by
      rw [hmoves move hmove, hmoves move' hmove']
  · rw [hmoves move hmove]
    exact Nat.le_of_succ_le (hmoves' move' hmove').1

theorem System.LeadsInTurn.leads (h : sys.LeadsInTurn i m m') : sys.Leads m m' := by
  obtain ⟨moves, labels, hmoves, -, hfollow⟩ := h
  exact ⟨moves, labels, fun move hmove => by simp [(hmoves move hmove).2], hfollow⟩

theorem System.threads_of_follow : ∀ {moves : List Move} {m m' : Machine w κ ρ}
    {labels : List (Label w κ ρ)}, sys.follow m moves = some (labels, m') →
      labels.map Label.thread = moves.map Move.thread
  | [], _, _, _, h => by
    cases h
    rfl
  | move :: moves, m, m', labels, h => by
    unfold follow at h
    split at h
    · cases h
    · rename_i label m₁ hstep
      obtain ⟨⟨labels₁, m₂⟩, hrest, heq⟩ := Option.map_eq_some_iff.1 h
      cases heq
      obtain ⟨t, call, event, store, t', -, -, rfl, -⟩ := System.step_cases hstep
      rw [List.map_cons, List.map_cons, System.threads_of_follow hrest]

theorem System.LeadsInTurn.exists_run (h : sys.LeadsInTurn i m m') (hserved : Served sys m) :
    ∃ labels, Run sys m labels m' ∧ (∀ l ∈ labels, l.event ≠ .panicked) ∧ InTurns labels := by
  obtain ⟨moves, labels, hmoves, hturns, hfollow⟩ := h
  have hcalm : ∀ move ∈ moves, move.mishap ≠ .panic := fun move hmove => by
    simp [(hmoves move hmove).2]
  refine ⟨labels, Run.of_follow .start hfollow, hserved.follow_calm hcalm hfollow, ?_⟩
  rw [← List.pairwise_map (f := Move.thread) (R := (· ≤ ·)), ← System.threads_of_follow hfollow,
    List.pairwise_map] at hturns
  exact hturns

end Leads

/-! ## The steps of one thread -/

/-- In every machine with this store thread `i`, if it is in this call, can bring it to its return
alone, and leaves the other store. -/
def Active.Finishes (sys : System w κ ρ) (i : Nat) (a : Active w κ ρ) (store : Store w) (r : ρ)
    (after : Store w) : Prop :=
  ∀ (m : Machine w κ ρ) (t : Thread w κ ρ), m.store = store → m.threads[i]? = some t →
    t.current = some a → ∃ b : Active w κ ρ, b.call = a.call ∧ b.rest = .ret r
      ∧ sys.LeadsAlone i m ⟨after, m.threads.set i { t with current := some b }⟩

section Steps

variable {sys : System w κ ρ} {i : Nat} {a a' : Active w κ ρ} {e : Event w ρ}
  {store store' after : Store w} {r : ρ}

theorem Active.Finishes.of_ret (hr : a.rest = .ret r) : a.Finishes sys i store r store := by
  rintro m t rfl ht hc
  refine ⟨a, rfl, hr, ?_⟩
  have hsame : m.threads.set i { t with current := some a } = m.threads := by
    rw [← hc]
    obtain ⟨hi, rfl⟩ := List.getElem?_eq_some_iff.1 ht
    exact List.set_getElem_self hi
  rw [hsame]
  exact .refl m

theorem Active.Finishes.of_step (h : a'.Finishes sys i store' r after)
    (hstep : a.proceed store = some (e, .goesOn store' a')) (hcall : a'.call = a.call) :
    a.Finishes sys i store r after := by
  rintro m t rfl ht hc
  have hi : i < m.threads.length := (List.getElem?_eq_some_iff.1 ht).1
  have hfirst : sys.LeadsAlone i m ⟨store', m.threads.set i { t with current := some a' }⟩ := by
    refine .of_step ⟨i, t.finished.size, a'.call, e⟩ ?_
    simp only [System.step, ht, System.stepThread, hc, Active.step, hstep]
  obtain ⟨b, hb, hr, hrest⟩ := h ⟨store', m.threads.set i { t with current := some a' }⟩
    { t with current := some a' } rfl (by simp [hi]) rfl
  rw [List.set_set] at hrest
  exact ⟨b, hb.trans hcall, hr, hfirst.trans hrest⟩

/-- What a program does that runs alone to its end, a thread can do while the others wait. -/
theorem Prog.finishes_of_run {after : Prog.Alone w} (p : Prog w ρ) :
    ∀ {store : Store w} {held : List Guard} {call : κ},
      p.run { store := store, held := held } = (.returned r, after) →
      Active.Finishes sys i ⟨call, p, none, held⟩ store r after.store := by
  induction p with
  | ret value =>
    intro store held call hrun
    cases hrun
    exact .of_ret rfl
  | read cell next ih =>
    intro store held call hrun
    simp only [Prog.run] at hrun
    split at hrun
    · cases hrun
    · rename_i v hv
      exact (ih v hrun).of_step (e := .loaded cell v) (by simp only [Active.proceed, hv]) rfl
  | write cell value next ih =>
    intro store held call hrun
    simp only [Prog.run] at hrun
    split at hrun
    · cases hrun
    · rename_i v hv
      exact (ih hrun).of_step (e := .stored cell v value) (by simp only [Active.proceed, hv]) rfl
  | modify cell transform next ih =>
    intro store held call hrun
    simp only [Prog.run, Prog.Alone.tick] at hrun
    split at hrun
    · cases hrun
    · rename_i v hv
      -- Nobody comes between the load and the swap, so the first swap succeeds.
      have hswap : Active.Finishes sys i ⟨call, .modify cell transform next, some v, held⟩ store r
          after.store :=
        (ih v hrun).of_step (e := .committed cell v (transform v))
          (by simp only [Active.proceed, hv, compareSwap, if_true]) rfl
      exact hswap.of_step (e := .observed cell v) (by simp only [Active.proceed, hv]) rfl
  | acquire guard next ih =>
    intro store held call hrun
    simp only [Prog.run] at hrun
    split at hrun
    · cases hrun
    · rename_i lock hlock
      split at hrun
      · rename_i hfree
        exact (ih _ hrun).of_step (e := .acquired guard lock.poisoned)
          (by simp only [Active.proceed, hlock, hfree, if_true]) rfl
      · cases hrun
  | release guard next ih =>
    intro store held call hrun
    exact (ih hrun).of_step (e := .released guard) (by simp only [Active.proceed]) rfl
  | compute next ih =>
    intro store held call hrun
    simp only [Prog.run, Prog.Alone.tick] at hrun
    exact (ih hrun).of_step (e := .computed) (by simp only [Active.proceed]) rfl

theorem System.leads_call {m : Machine w κ ρ} {t : Thread w κ ρ} {call : κ} {waiting : List κ}
    {after : Prog.Alone w} (ht : m.threads[i]? = some t) (hc : t.current = none)
    (hw : t.waiting = call :: waiting)
    (hrun : (sys.code call).run { store := m.store } = (.returned r, after)) :
    sys.LeadsAlone i m ⟨after.store, m.threads.set i
      ({ t with waiting := waiting }.finish sys.stops call (.returned r))⟩ := by
  have hi : i < m.threads.length := (List.getElem?_eq_some_iff.1 ht).1
  have hbegin : sys.LeadsAlone i m ⟨m.store,
      m.threads.set i { t with waiting := waiting, current := some (sys.opening call) }⟩ := by
    refine .of_step ⟨i, t.finished.size, call, .began⟩ ?_
    simp only [System.step, ht, System.stepThread, hc, hw, if_true]
    rfl
  have hfinishes : (sys.opening call).Finishes sys i m.store r after.store :=
    Prog.finishes_of_run _ hrun
  obtain ⟨b, hb, hr, hrest⟩ := hfinishes
    ⟨m.store, m.threads.set i { t with waiting := waiting, current := some (sys.opening call) }⟩
    { t with waiting := waiting, current := some (sys.opening call) } rfl (by simp [hi]) rfl
  rw [List.set_set] at hrest
  refine (hbegin.trans hrest).trans (.of_step ⟨i, t.finished.size, call, .returned r⟩ ?_)
  simp only [System.step, List.getElem?_set_self hi, System.stepThread, Active.step, Active.proceed,
    hr, Thread.finish, List.set_set, hb]
  rfl

/-- A thread makes its calls alone, if each of them returns, up to an ending that stops it. -/
theorem System.leads_runCalls {I : Store w → Prop}
    (hI : ∀ store call, I store → ∃ r after,
      (sys.code call).run { store := store } = (.returned r, after) ∧ I after.store) :
    ∀ (calls : List κ) (done : Array (κ × Ending ρ)) {m : Machine w κ ρ}, I m.store →
      m.threads[i]? = some ⟨calls, none, done⟩ → I (sys.runCalls m.store done calls).1
        ∧ sys.LeadsAlone i m ⟨(sys.runCalls m.store done calls).1,
          m.threads.set i ⟨[], none, (sys.runCalls m.store done calls).2⟩⟩
  | [], done, m, hm, ht => by
    refine ⟨hm, ?_⟩
    have hsame : m.threads.set i ⟨[], none, done⟩ = m.threads := by
      obtain ⟨hi, hget⟩ := List.getElem?_eq_some_iff.1 ht
      rw [← hget]
      exact List.set_getElem_self hi
    show sys.LeadsAlone i m ⟨m.store, m.threads.set i ⟨[], none, done⟩⟩
    rw [hsame]
    exact .refl m
  | call :: calls, done, m, hm, ht => by
    obtain ⟨r, after, hrun, hafter⟩ := hI m.store call hm
    have hi : i < m.threads.length := (List.getElem?_eq_some_iff.1 ht).1
    have hcall := System.leads_call ht rfl rfl hrun
    simp only [Thread.finish] at hcall
    simp only [System.runCalls, hrun]
    split at hcall
    · rename_i hstop
      rw [if_pos hstop]
      exact ⟨hafter, hcall⟩
    · rename_i hstop
      rw [if_neg hstop]
      obtain ⟨hstore, hrest⟩ := System.leads_runCalls hI calls (done.push (call, .returned r))
        (m := ⟨after.store, m.threads.set i ⟨calls, none, done.push (call, .returned r)⟩⟩)
        hafter (by simp [hi])
      rw [List.set_set] at hrest
      exact ⟨hstore, hcall.trans hrest⟩

theorem System.leads_runThreads {I : Store w → Prop}
    (hI : ∀ store call, I store → ∃ r after,
      (sys.code call).run { store := store } = (.returned r, after) ∧ I after.store) :
    ∀ (threads : List (List κ)) (done : Array (Thread w κ ρ)) {store : Store w}, I store →
      (∀ t ∈ done.toList, t.isDone = true) →
      sys.LeadsInTurn done.size ⟨store, done.toList ++ threads.map Thread.start⟩
          (sys.runThreads store done threads)
        ∧ (sys.runThreads store done threads).isDone = true
  | [], done, store, _, hdone => by
    refine ⟨?_, List.all_eq_true.2 hdone⟩
    rw [List.map_nil, List.append_nil]
    exact .refl _
  | calls :: threads, done, store, hm, hdone => by
    obtain ⟨hstore, hcalls⟩ := System.leads_runCalls hI calls #[] (i := done.size)
      (m := ⟨store, done.toList ++ (calls :: threads).map Thread.start⟩) hm (by
        simp [Thread.start])
    have hpush : ∀ t ∈ (done.push ⟨[], none, (sys.runCalls store #[] calls).2⟩).toList,
        t.isDone = true := by
      rw [Array.toList_push]
      exact List.forall_mem_append.2 ⟨hdone, by simp [Thread.isDone]⟩
    obtain ⟨hrest, hall⟩ := System.leads_runThreads hI threads
      (done.push ⟨[], none, (sys.runCalls store #[] calls).2⟩) hstore hpush
    refine ⟨hcalls.inTurn ?_, by simpa [System.runThreads] using hall⟩
    simpa [System.runThreads] using hrest

/-- Threads whose calls return, each alone, can make them one thread after another. -/
theorem System.leads_inTurn {I : Store w → Prop}
    (hI : ∀ store call, I store → ∃ r after,
      (sys.code call).run { store := store } = (.returned r, after) ∧ I after.store)
    (hstore : I store) (calls : List (List κ)) :
    sys.LeadsInTurn 0 (.start store calls) (sys.inTurn store calls)
      ∧ (sys.inTurn store calls).isDone = true :=
  System.leads_runThreads hI calls #[] hstore (by simp)

end Steps

/-! ## Callers of a bitset -/

namespace Plain

theorem perform_snd (p : Plain) (call : Call) :
    (p.perform call).2 = p.updateAll (call.change p.capacity).toList := by
  cases call with
  | get i =>
    simp only [perform, Call.change]
    split <;> rfl
  | update op i =>
    simp only [perform, Call.change]
    split <;> rfl
  | count => rfl

theorem isOk_perform (p : Plain) (call : Call) :
    (Ending.returned (p.perform call).1).isOk = !call.isRefused p.capacity := by
  cases call with
  | get i =>
    by_cases hi : i < p.capacity
    · simp [perform, getElem?_bits hi, Ending.isOk, Call.isRefused, Call.index?, hi]
    · have hn : p.bits[i]? = none := List.getElem?_eq_none (Nat.le_of_not_lt hi)
      simp [perform, hn, Ending.isOk, Call.isRefused, Call.index?, Nat.le_of_not_lt hi]
  | update op i =>
    by_cases hi : i < p.capacity
    · simp [perform, Ending.isOk, Call.isRefused, Call.index?, hi]
    · simp [perform, Ending.isOk, Call.isRefused, Call.index?, hi, Nat.le_of_not_lt hi]
  | count => rfl

end Plain

section InTurn

variable {p : Plain} {s : Strategy} {stops : Ending Reply → Bool}

theorem run_code_bitSet {q : Plain} (hq : 0 < q.capacity) (call : Call) : ∃ after,
    (s.code w q.capacity call).run { store := (q.bitSet s w).store }
        = (.returned (q.perform call).1, after)
      ∧ after.store = ((q.perform call).2.bitSet s w).store := by
  have h := perform_bitSet hq s w call
  obtain ⟨hending, hafter⟩ := Prod.mk.inj h
  exact ⟨_, Prod.ext hending rfl, congrArg BitSet.store hafter⟩

/-- A thread that makes its calls alone makes their changes, and fails where an index is out of
range. -/
theorem runCalls_bitSet (hp : 0 < p.capacity) (hstops : ∀ r, stops (.returned r) = false) :
    ∀ (calls : List Call) {q : Plain} (done : Array (Call × Ending Reply)),
      q.capacity = p.capacity → ∃ finished,
        ((p.bitSet s w).callers stops).runCalls (q.bitSet s w).store done calls
            = (((q.updateAll (calls.filterMap (Call.change p.capacity))).bitSet s w).store, finished)
          ∧ finished.toList.countP (fun x => !x.2.isOk)
            = done.toList.countP (fun x => !x.2.isOk) + calls.countP (Call.isRefused p.capacity)
  | [], q, done, _ => ⟨done, rfl, rfl⟩
  | call :: calls, q, done, hq => by
    obtain ⟨after, hrun, hstore⟩ := run_code_bitSet (s := s) (w := w) (hq ▸ hp) call
    have hcap : (q.perform call).2.capacity = p.capacity := (q.capacity_perform call).trans hq
    obtain ⟨finished, hrest, hcount⟩ := runCalls_bitSet hp hstops calls
      (done.push (call, .returned (q.perform call).1)) hcap
    refine ⟨finished, ?_, ?_⟩
    · have hcode : (((p.bitSet s w).callers stops).code call).run { store := (q.bitSet s w).store }
          = (.returned (q.perform call).1, after) := by
        rw [← hrun, hq]
        rfl
      have hchanges : (q.perform call).2.updateAll (calls.filterMap (Call.change p.capacity))
          = q.updateAll ((call :: calls).filterMap (Call.change p.capacity)) := by
        rw [q.perform_snd, hq, ← Plain.updateAll_append]
        cases hc : call.change p.capacity <;> simp [hc]
      simp only [System.runCalls, hcode, hstore]
      rw [show ((p.bitSet s w).callers stops).stops (.returned (q.perform call).1) = false from
        hstops _, if_neg Bool.false_ne_true, hrest, hchanges]
    · have hok := q.isOk_perform call
      rw [hq] at hok
      rw [hcount, List.countP_cons]
      cases hc : call.isRefused p.capacity <;> simp [hok, hc, Nat.add_assoc, Nat.add_comm 1]

theorem runThreads_bitSet (hp : 0 < p.capacity) (hstops : ∀ r, stops (.returned r) = false) :
    ∀ (threads : List (List Call)) {q : Plain} (done : Array (Thread w Call Reply)),
      q.capacity = p.capacity → ∃ ts,
        ((p.bitSet s w).callers stops).runThreads (q.bitSet s w).store done threads
            = ⟨((q.updateAll (threads.flatMap
                (List.filterMap (Call.change p.capacity)))).bitSet s w).store, done.toList ++ ts⟩
          ∧ ts.map Thread.failures = threads.map (List.countP (Call.isRefused p.capacity))
  | [], q, done, _ => ⟨[], by rw [List.append_nil]; rfl, rfl⟩
  | calls :: threads, q, done, hq => by
    obtain ⟨finished, hcalls, hcount⟩ := runCalls_bitSet (s := s) (w := w) hp hstops calls #[] hq
    obtain ⟨ts, hrest, hfailures⟩ := runThreads_bitSet hp hstops threads
      (q := q.updateAll (calls.filterMap (Call.change p.capacity)))
      (done.push { waiting := [], finished := finished }) (by rw [Plain.capacity_updateAll, hq])
    refine ⟨{ waiting := [], finished := finished } :: ts, ?_, ?_⟩
    · simp only [System.runThreads, hcalls, hrest, List.flatMap_cons, Plain.updateAll_append]
      simp
    · rw [List.map_cons, List.map_cons, hfailures]
      refine congrArg (· :: _) ?_
      simpa [Thread.failures] using hcount

/-- What remains when threads have made their calls one thread after another. -/
theorem remains_inTurn (hp : 0 < p.capacity) (hstops : ∀ r, stops (.returned r) = false)
    (threads : List (List Call)) : (p.bitSet s w).remains
        (((p.bitSet s w).callers stops).inTurn (p.bitSet s w).store threads)
      = (p.updateAll (threads.flatMap (List.filterMap (Call.change p.capacity)))).remains threads := by
  obtain ⟨ts, hrun, hfailures⟩ := runThreads_bitSet (s := s) (w := w) hp hstops threads #[] rfl
  generalize hq : p.updateAll (threads.flatMap (List.filterMap (Call.change p.capacity))) = q at hrun ⊢
  have hcap : q.capacity = p.capacity := by rw [← hq, Plain.capacity_updateAll]
  have hafter : (p.bitSet s w).after
      (((p.bitSet s w).callers stops).inTurn (p.bitSet s w).store threads) = q.bitSet s w := by
    rw [System.inTurn, hrun]
    simp only [BitSet.after, Plain.bitSet, Fragile.bitSet, hcap]
  have hq' : 0 < q.capacity := hcap ▸ hp
  simp only [BitSet.remains, Plain.remains, hafter, Plain.contents_bitSet hq', perform_bitSet hq',
    Plain.perform, hcap]
  rw [System.inTurn, hrun]
  simpa using hfailures

/-- There are moves that make the calls one thread after another, whatever the strategy. -/
theorem leads_inTurn_bitSet (hp : 0 < p.capacity) (stops : Ending Reply → Bool)
    (threads : List (List Call)) : ((p.bitSet s w).callers stops).LeadsInTurn 0
        (.start (p.bitSet s w).store threads)
        (((p.bitSet s w).callers stops).inTurn (p.bitSet s w).store threads)
      ∧ (((p.bitSet s w).callers stops).inTurn (p.bitSet s w).store threads).isDone = true := by
  refine System.leads_inTurn
    (I := fun store => ∃ q : Plain, q.capacity = p.capacity ∧ store = (q.bitSet s w).store) ?_
    ⟨p, rfl, rfl⟩ threads
  rintro _ call ⟨q, hq, rfl⟩
  obtain ⟨after, hrun, hstore⟩ := run_code_bitSet (s := s) (w := w) (hq ▸ hp) call
  rw [hq] at hrun
  exact ⟨_, after, hrun, _, (q.capacity_perform call).trans hq, hstore⟩

/-- Threads that take their steps one after another, the first of them first, until they have made their
calls or been refused, without a panic. -/
structure TurnRun (b : BitSet w) (calls : List (List Call)) (labels : List (Label w Call Reply))
    (m : Machine w Call Reply) : Prop where
  run : Run b.strict (.start b.store calls) labels m
  isDone : m.isDone = true
  isCalm : IsCalm labels
  inTurns : InTurns labels

/-- Making the calls one thread after another is a complete run of them. -/
theorem completeRun_inTurn (hp : 0 < p.capacity) (hs : s.isSynchronized = true)
    (hstops : ∀ r, stops (.returned r) = false) (threads : List (List Call)) :
    ∃ labels, CompleteRun p s w threads labels
      (((p.bitSet s w).callers stops).inTurn (p.bitSet s w).store threads) := by
  obtain ⟨hleads, hdone⟩ := leads_inTurn_bitSet (s := s) (w := w) hp stops threads
  obtain ⟨labels, hrun, hcalm, -⟩ := hleads.exists_run ((Fragile.mk p []).served s w stops threads)
  exact ⟨labels, ⟨⟨stops, hrun⟩, hdone,
    hrun.made_of_isCalm (f := ⟨p, []⟩) hcalm hdone hstops, hcalm⟩, hs⟩

end InTurn

end SharedBits
