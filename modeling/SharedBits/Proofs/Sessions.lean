import SharedBits.Session
import SharedBits.Proofs.InTurn

/-!
# What a session gives

An environment decides by a state of its own, so a statement about every state is one about whatever the
scheduler and the clock may do (`Session.Ensures`). What a session gives is told together with what it has
had threads do: which machines the environment has been asked to finish, one after another, and how it gave
them back (`Environment.Served`). An environment may keep a journal of that, so what is told in every
environment has been done (`Environment.Served.eq_append`). Of the scheduler only this is asked: it lets the
threads go on, in any order and with any swaps that fail spuriously, until none of them can
(`Environment.IsLawful`).
-/

namespace SharedBits

variable {σ α β : Type}

/-- The transcript with more lines and notices at its end. -/
def Transcript.append (t : Transcript) (lines : List String) (notices : List Notice) : Transcript :=
  ⟨t.lines ++ lines, t.notices ++ notices⟩

@[simp] theorem Transcript.append_nil (t : Transcript) : t.append [] [] = t := by
  simp [append]

@[simp] theorem Transcript.append_append (t : Transcript) (lines lines' : List String)
    (notices notices' : List Notice) : (t.append lines notices).append lines' notices'
      = t.append (lines ++ lines') (notices ++ notices') := by
  simp [append, ← Array.toList_inj]

theorem Transcript.push_line (t : Transcript) (line : String) :
    { t with lines := t.lines.push line } = t.append [line] [] := by
  simp [append]

theorem Transcript.push_notice (t : Transcript) (notice : Notice) :
    { t with notices := t.notices.push notice } = t.append [] [notice] := by
  simp [append]

/-! ## What environments are asked for -/

/-- What threads have been let do: what they ran, from where, and the machine in which that ended. -/
structure Stint where
  {w : Width}
  sys : System w Call Reply
  store : Store w
  calls : List (List Call)
  done : Machine w Call Reply

/-- Threads that share a bitset, each of which stops at a refusal, have left this machine. -/
def BitSet.stint {w : Width} (b : BitSet w) (calls : List (List Call)) (done : Machine w Call Reply) :
    Stint := ⟨b.strict, b.store, calls, done⟩

/-- From one state to another, the environment has been asked for these stints in their order, and for
the time in between. -/
inductive Environment.Served (env : Environment (StateM σ)) : σ → List Stint → σ → Prop
  | nothing (st : σ) : Served env st [] st
  | now {st st' : σ} {stints : List Stint} : Served env (env.now st).2 stints st' →
      Served env st stints st'
  | finish {w : Width} (sys : System w Call Reply) (store : Store w) (calls : List (List Call))
      {st st' : σ} {stints : List Stint} :
      Served env (env.finish sys store calls st).2 stints st' →
      Served env st (⟨sys, store, calls, (env.finish sys store calls st).1⟩ :: stints) st'

theorem Environment.Served.trans {env : Environment (StateM σ)} {st st' st'' : σ}
    {stints stints' : List Stint} (h : env.Served st stints st') (h' : env.Served st' stints' st'') :
    env.Served st (stints ++ stints') st'' := by
  induction h with
  | nothing st => exact h'
  | now _ ih => exact .now (ih h')
  | finish sys store calls _ ih => exact .finish sys store calls (ih h')

/-- The threads that share a new bitset are let go on, in any order, until none of them can. -/
def Environment.IsLawful (env : Environment (StateM σ)) : Prop :=
  ∀ (s : Strategy) (w : Width) (capacity : Nat) (b : BitSet w), BitSet.create s w capacity = .ok b →
    ∀ calls st, b.strict.Settles (.start b.store calls) (env.finish b.strict b.store calls st).1

namespace Session

/-- What a session gives, its transcript, and the state of its environment after it. -/
def result (x : Session (StateM σ) α) (t : Transcript) (st : σ) :
    (Except Failure α × Transcript) × σ :=
  ((x.run.run t).run st).run

/-- Whatever the environment decides, the session gives this, after these stints. -/
def Ensures (x : Session (StateM σ) α) (env : Environment (StateM σ)) (t : Transcript)
    (Q : Except Failure α → Transcript → List Stint → Prop) : Prop :=
  ∀ st, ∃ stints, env.Served st stints (x.result t st).2
    ∧ Q (x.result t st).1.1 (x.result t st).1.2 stints

/-- Whatever the environment decides, the session does not fail, and returns this after these stints. -/
def Returns (x : Session (StateM σ) α) (env : Environment (StateM σ)) (t : Transcript)
    (Q : α → Transcript → List Stint → Prop) : Prop :=
  x.Ensures env t fun r t' stints => ∃ a, r = .ok a ∧ Q a t' stints

section Steps

variable {env : Environment (StateM σ)} {x : Session (StateM σ) α} {y : Session (StateM σ) β}
  {f : α → Session (StateM σ) β} {t : Transcript} {P : α → Transcript → List Stint → Prop}
  {R : Except Failure α → Transcript → List Stint → Prop}
  {Q Q' : Except Failure β → Transcript → List Stint → Prop}

theorem result_bind (st : σ) : (x >>= f).result t st = match x.result t st with
    | ((.ok a, t'), st') => (f a).result t' st'
    | ((.error e, t'), st') => ((.error e, t'), st') := by
  have hbind : (x >>= f).result t st = ExceptT.bindCont f (x.result t st).1.1
      (x.result t st).1.2 (x.result t st).2 := rfl
  rw [hbind]
  rcases x.result t st with ⟨⟨e | a, t'⟩, st'⟩ <;> rfl

theorem Ensures.mono (h : y.Ensures env t Q) (himp : ∀ r t' stints, Q r t' stints → Q' r t' stints) :
    y.Ensures env t Q' := fun st => by
  obtain ⟨stints, hserved, hQ⟩ := h st
  exact ⟨stints, hserved, himp _ _ _ hQ⟩

theorem Ensures.bind (hx : x.Ensures env t R)
    (hok : ∀ a t' stints, R (.ok a) t' stints →
      (f a).Ensures env t' fun r t'' stints' => Q r t'' (stints ++ stints'))
    (herror : ∀ e t' stints, R (.error e) t' stints → Q (.error e) t' stints) :
    (x >>= f).Ensures env t Q := by
  intro st
  obtain ⟨stints, hserved, hR⟩ := hx st
  rw [result_bind]
  rcases hres : x.result t st with ⟨⟨e | a, t'⟩, st'⟩ <;> rw [hres] at hserved hR
  · exact ⟨stints, hserved, herror e t' stints hR⟩
  · obtain ⟨stints', hserved', hQ⟩ := hok a t' stints hR st'
    exact ⟨stints ++ stints', hserved.trans hserved', hQ⟩

theorem Returns.bind (hx : x.Returns env t P) (hf : ∀ a t' stints, P a t' stints →
      (f a).Ensures env t' fun r t'' stints' => Q r t'' (stints ++ stints')) :
    (x >>= f).Ensures env t Q := by
  refine Ensures.bind hx ?_ ?_
  · rintro a t' stints ⟨a', h, hP⟩
    obtain rfl := Except.ok.inj h
    exact hf a t' stints hP
  · rintro e t' stints ⟨a, h, -⟩
    cases h

theorem ensures_pure {b : β} (h : Q (.ok b) t []) : (pure b : Session (StateM σ) β).Ensures env t Q :=
  fun st => ⟨[], .nothing st, h⟩

theorem ensures_fail {failure : Failure} (h : Q (.error failure) t []) :
    (fail failure : Session (StateM σ) β).Ensures env t Q :=
  fun st => ⟨[], .nothing st, h⟩

theorem returns_pure {a : α} (h : P a t []) : (pure a : Session (StateM σ) α).Returns env t P :=
  ensures_pure ⟨a, rfl, h⟩

theorem ensures_say_bind (line : String) (h : y.Ensures env (t.append [line] []) Q) :
    (say line >>= fun _ => y).Ensures env t Q := by
  rw [← t.push_line] at h
  exact h

theorem ensures_report_bind (notice : Notice) (h : y.Ensures env (t.append [] [notice]) Q) :
    (report notice >>= fun _ => y).Ensures env t Q := by
  rw [← t.push_notice] at h
  exact h

theorem ensures_build_bind {s : Strategy} {capacity : Nat} {b : BitSet s.defaultWidth}
    {f : BitSet s.defaultWidth → Session (StateM σ) β} (hb : s.bitSet capacity = .ok b)
    (refusal : Error → Failure) (h : (f b).Ensures env (t.append [] [b.notice]) Q) :
    (build s capacity refusal >>= f).Ensures env t Q := by
  rw [← t.push_notice] at h
  simp only [build, hb]
  exact h

theorem ensures_now_bind {f : Nat → Session (StateM σ) β} (h : ∀ nanos, (f nanos).Ensures env t Q) :
    (ask env.now >>= f).Ensures env t Q := fun st => by
  obtain ⟨stints, hserved, hQ⟩ := h (env.now st).1 (env.now st).2
  exact ⟨stints, .now hserved, hQ⟩

/-- What a lawful environment gives back, it has come to in one stint. -/
theorem ensures_finish_bind (henv : env.IsLawful) {s : Strategy} {w : Width} {capacity : Nat}
    {b : BitSet w} (hb : BitSet.create s w capacity = .ok b) (calls : List (List Call))
    {f : Machine w Call Reply → Session (StateM σ) β}
    (h : ∀ m, b.strict.Settles (.start b.store calls) m →
      (f m).Ensures env t fun r t' stints => Q r t' (b.stint calls m :: stints)) :
    (ask (env.finish b.strict b.store calls) >>= f).Ensures env t Q := fun st => by
  obtain ⟨stints, hserved, hQ⟩ :=
    h _ (henv s w capacity b hb calls st) (env.finish b.strict b.store calls st).2
  exact ⟨_ :: stints, .finish _ _ _ hserved, hQ⟩

end Steps

section Lawful

variable {m : Type → Type} [Monad m] [LawfulMonad m]

/-- What is written is there for the rest of the session, wherever it runs. -/
theorem run_modify_bind (f : Transcript → Transcript) (x : Session m α) (t : Transcript) :
    ((modify f : Session m PUnit) >>= fun _ => x).run.run t = x.run.run (f t) := by
  have hmodify : (StateT.modifyGet fun t => (PUnit.unit, f t) : StateT Transcript m PUnit).run t
      = pure (⟨⟩, f t) := rfl
  simp only [ExceptT.run_bind, modify, modifyGet, MonadStateOf.modifyGet]
  simp [hmodify]

theorem run_say_bind (line : String) (x : Session m α) (t : Transcript) :
    (say line >>= fun _ => x).run.run t = x.run.run (t.append [line] []) := by
  rw [← t.push_line]
  exact run_modify_bind ..

theorem run_sayAll_bind (lines : List String) (x : Session m α) (t : Transcript) :
    (sayAll lines >>= fun _ => x).run.run t = x.run.run (t.append lines []) := by
  have hlines : { t with lines := t.lines ++ lines } = t.append lines [] := by simp [Transcript.append]
  rw [← hlines]
  exact run_modify_bind ..

theorem run_report_bind (notice : Notice) (x : Session m α) (t : Transcript) :
    (report notice >>= fun _ => x).run.run t = x.run.run (t.append [] [notice]) := by
  rw [← t.push_notice]
  exact run_modify_bind ..

theorem run_fail_bind {β : Type} (failure : Failure) (f : α → Session m β) (t : Transcript) :
    (fail failure >>= f).run.run t = pure (.error failure, t) := by
  simp [fail]

end Lawful

/-! ## The parts of a session -/

section Parts

variable {m : Type → Type} [Monad m] {p : Plain} {s : Strategy} {w : Width}

theorem tally_eq_pure {endings : List (Ending Reply)} (h : ∀ e ∈ endings, e.isOk = true)
    (thread : String) (refusal : Error → Failure) :
    (tally thread refusal endings : Session m Nat) = pure endings.length := by
  have hnone : endings.find? (fun e => !e.isOk) = none :=
    List.find?_eq_none.2 fun e he => by simp [h e he]
  simp only [tally, hnone]

theorem tallyAll_eq_pure [LawfulMonad m] (thread : String) (refusal : Error → Failure) :
    ∀ {endings : List (List (Ending Reply))}, (∀ es ∈ endings, ∀ e ∈ es, e.isOk = true) →
      (tallyAll thread refusal endings : Session m Nat) = pure (endings.map List.length).sum
  | [], _ => rfl
  | es :: endings, h => by
    obtain ⟨hes, hendings⟩ := List.forall_mem_cons.1 h
    simp only [tallyAll, tally_eq_pure hes, tallyAll_eq_pure thread refusal hendings, pure_bind,
      List.map_cons, List.sum_cons]

theorem count_bitSet (hp : 0 < p.capacity) :
    (count (p.bitSet s w) : Session m Nat) = pure p.ones := by
  simp only [count, perform_bitSet hp, Plain.perform]

end Parts

end Session

/-! ## Environments -/

theorem BitSet.eq_clear_of_create {s : Strategy} {w : Width} {capacity : Nat} {b : BitSet w}
    (hb : BitSet.create s w capacity = .ok b) :
    0 < capacity ∧ b = (Plain.clear capacity).bitSet s w := by
  have hcap : 0 < capacity := by
    by_contra h
    obtain rfl : capacity = 0 := by omega
    cases hb
  refine ⟨hcap, ?_⟩
  rw [Fragile.create_eq hcap] at hb
  exact (Except.ok.inj hb).symm

namespace Environment

/-- The environment that runs threads one after another and keeps a journal of their stints. Its clock
counts these, and its seeds all stand for the reverse order. -/
def noting : Environment (StateM (List Stint)) where
  finish sys store calls := modifyGet fun journal =>
    (sys.inTurn store calls, journal ++ [⟨sys, store, calls, sys.inTurn store calls⟩])
  now := modifyGet fun journal => (journal.length, journal)
  cores := pure 1
  shuffle _ tasks := tasks.reverse

theorem isLawful_noting : noting.IsLawful := by
  intro s w capacity b hb calls st
  obtain ⟨hcap, rfl⟩ := BitSet.eq_clear_of_create hb
  obtain ⟨hleads, hdone⟩ := leads_inTurn_bitSet (p := .clear capacity) (s := s) (w := w)
    (by simpa using hcap) _ calls
  exact ⟨hleads.leads, fun i => System.step_of_isDone hdone _⟩

/-- The stints that an environment has served are those of its journal. -/
theorem Served.eq_append {journal journal' stints : List Stint}
    (h : noting.Served journal stints journal') : journal' = journal ++ stints := by
  induction h with
  | nothing journal => exact (List.append_nil _).symm
  | now _ ih => exact ih
  | finish sys store calls _ ih => exact ih.trans (List.append_assoc ..)

end Environment

end SharedBits
