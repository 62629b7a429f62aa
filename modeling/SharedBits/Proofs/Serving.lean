import SharedBits.BitSet.Threads
import SharedBits.Proofs.Steps

/-!
# Cells and locks that are there

The calls of a bitset address only words and locks that the bitset has (`Strategy.code_staysWithin`),
and no step makes or removes one. So no thread panics unless a computation does (`Served.not_panicked`,
`Served.follow_calm`), and a thread that cannot go on waits for a lock that is taken
(`System.exists_step`).
-/

namespace SharedBits

variable {w : Width} {α β κ ρ : Type}

/-! ## Programs -/

namespace Prog

/-- The program addresses only cells below `cells` and locks below `locks`. -/
def StaysWithin (cells locks : Nat) : Prog w α → Prop
  | ret _ => True
  | read cell next => cell < cells ∧ ∀ v, (next v).StaysWithin cells locks
  | write cell _ next => cell < cells ∧ next.StaysWithin cells locks
  | modify cell _ next => cell < cells ∧ ∀ v, (next v).StaysWithin cells locks
  | acquire guard next => guard.lock < locks ∧ ∀ b, (next b).StaysWithin cells locks
  | release _ next => next.StaysWithin cells locks
  | compute next => next.StaysWithin cells locks

variable {cells locks : Nat}

theorem StaysWithin.bind {f : α → Prog w β} {p : Prog w α} (h : p.StaysWithin cells locks)
    (hf : ∀ a, (f a).StaysWithin cells locks) : (p.bind f).StaysWithin cells locks := by
  induction p with
  | ret a => exact hf a
  | read cell next ih => exact ⟨h.1, fun v => ih v (h.2 v)⟩
  | write cell value next ih => exact ⟨h.1, ih h.2⟩
  | modify cell transform next ih => exact ⟨h.1, fun v => ih v (h.2 v)⟩
  | acquire guard next ih => exact ⟨h.1, fun b => ih b (h.2 b)⟩
  | release guard next ih => exact ih h
  | compute next ih => exact ih h

theorem StaysWithin.isServed {store : Store w} {p : Prog w α}
    (h : p.StaysWithin store.cells.size store.locks.size) : p.IsServed store := by
  cases p with
  | ret => trivial
  | read => exact h.1
  | write => exact h.1
  | modify => exact h.1
  | acquire => exact h.1
  | release => trivial
  | compute => trivial

theorem StaysWithin.guarded {guard : Guard} {body : Prog w α} (hg : guard.lock < locks)
    (h : body.StaysWithin cells locks) : (guarded guard body).StaysWithin cells locks := by
  refine ⟨hg, fun poisoned => ?_⟩
  cases poisoned with
  | true => trivial
  | false => exact h.bind fun _ => trivial

theorem staysWithin_readBit {a : Address} (h : a.word < cells) :
    (readBit (w := w) a).StaysWithin cells locks := ⟨h, fun _ => trivial⟩

theorem staysWithin_readOnes {cell : Nat} (h : cell < cells) :
    (readOnes (w := w) cell).StaysWithin cells locks := ⟨h, fun _ => trivial⟩

theorem staysWithin_changeBit {a : Address} (h : a.word < cells) (op : BitOp) :
    (changeBit (w := w) a op).StaysWithin cells locks := ⟨h, fun _ => ⟨h, trivial⟩⟩

theorem staysWithin_modifyBit {a : Address} (h : a.word < cells) (op : BitOp) :
    (modifyBit (w := w) a op).StaysWithin cells locks := ⟨h, fun _ => trivial⟩

theorem staysWithin_sum {each : Nat → Prog w Nat} :
    ∀ n first total, (∀ i < first + n, (each i).StaysWithin cells locks) →
      (sum each first n total).StaysWithin cells locks
  | 0, _, _, _ => trivial
  | n + 1, first, total, h => (h first (by omega)).bind fun k =>
    staysWithin_sum n (first + 1) (total + k) fun i hi => h i (by omega)

theorem staysWithin_sumUntilRefused {each : Nat → Prog w (Except Error Nat)} :
    ∀ n first total, (∀ i < first + n, (each i).StaysWithin cells locks) →
      (sumUntilRefused each first n total).StaysWithin cells locks
  | 0, _, _, _ => trivial
  | n + 1, first, total, h => (h first (by omega)).bind fun r => by
    cases r with
    | error _ => trivial
    | ok k => exact staysWithin_sumUntilRefused n (first + 1) (total + k) fun i hi => h i (by omega)

end Prog

namespace Strategy

open Prog

variable {s : Strategy} {capacity : Nat}

theorem lockOf_lt {span : Span} {reading : Mode} (hd : s.discipline = .locked span reading)
    {word words : Nat} (h : word < words) : span.lockOf word < s.locksFor words := by
  cases span <;> simp only [locksFor, hd, Span.lockOf]
  · exact Nat.one_pos
  · exact h

theorem get_staysWithin (s : Strategy) (capacity i : Nat) : (s.get w capacity i).StaysWithin
    (wordsFor w capacity) (s.locksFor (wordsFor w capacity)) := by
  by_cases hi : i < capacity
  · have hword := word_lt_wordsFor w hi
    simp only [Strategy.get, requireIndex_eq_ok_iff.2 hi]
    rcases hd : s.discipline with ⟨span, reading⟩ | _ | _ <;> simp only [getAt, hd]
    · exact (staysWithin_readBit hword).guarded (lockOf_lt hd hword)
    · exact (staysWithin_readBit hword).bind fun _ => trivial
    · exact (staysWithin_readBit hword).bind fun _ => trivial
  · simp only [Strategy.get, requireIndex, if_neg hi]
    trivial

theorem update_staysWithin (s : Strategy) (capacity : Nat) (op : BitOp) (i : Nat) :
    (s.update w capacity op i).StaysWithin
      (wordsFor w capacity) (s.locksFor (wordsFor w capacity)) := by
  by_cases hi : i < capacity
  · have hword := word_lt_wordsFor w hi
    simp only [Strategy.update, requireIndex_eq_ok_iff.2 hi]
    rcases hd : s.discipline with ⟨span, reading⟩ | _ | _ <;> simp only [updateAt, hd]
    · exact (staysWithin_changeBit hword op).guarded (lockOf_lt hd hword)
    · exact (staysWithin_modifyBit hword op).bind fun _ => trivial
    · exact (staysWithin_changeBit hword op).bind fun _ => trivial
  · simp only [Strategy.update, requireIndex, if_neg hi]
    trivial

theorem count_staysWithin (s : Strategy) (capacity : Nat) : (s.count w capacity).StaysWithin
    (wordsFor w capacity) (s.locksFor (wordsFor w capacity)) := by
  have hones : ∀ i < 0 + wordsFor w capacity, (readOnes (w := w) i).StaysWithin
      (wordsFor w capacity) (s.locksFor (wordsFor w capacity)) := by
    intro i hi
    exact staysWithin_readOnes (by omega)
  rcases hd : s.discipline with ⟨_ | _, reading⟩ | _ | _ <;> simp only [count, hd]
  · refine (staysWithin_sum _ _ _ hones).guarded ?_
    simp [locksFor, hd]
  · refine staysWithin_sumUntilRefused _ _ _ fun i hi => (hones i hi).guarded ?_
    simp only [locksFor, hd]
    omega
  · exact (staysWithin_sum _ _ _ hones).bind fun _ => trivial
  · refine staysWithin_sumUntilRefused _ _ _ fun i _ => (s.get_staysWithin capacity i).bind ?_
    rintro (_ | _) <;> trivial

/-- A call addresses the words and the locks of its bitset. -/
theorem code_staysWithin (s : Strategy) (capacity : Nat) : ∀ call : Call,
    (s.code w capacity call).StaysWithin (wordsFor w capacity) (s.locksFor (wordsFor w capacity))
  | .get i => (s.get_staysWithin capacity i).bind fun _ => trivial
  | .update op i => (s.update_staysWithin capacity op i).bind fun _ => trivial
  | .count => (s.count_staysWithin capacity).bind fun _ => trivial

end Strategy

/-! ## Steps -/

section Sizes

variable {sys : System w κ ρ} {m m₀ : Machine w κ ρ} {labels : List (Label w κ ρ)}

theorem Event.size_after (store : Store w) (e : Event w ρ) :
    (e.after store).cells.size = store.cells.size
      ∧ (e.after store).locks.size = store.locks.size := by
  cases e <;> simp [Event.after, Store.write, Store.take, Store.drop, Store.changeLock]

theorem Store.size_locks_abandon (store : Store w) :
    ∀ held : List Guard, (store.abandon held).locks.size = store.locks.size
  | [] => rfl
  | guard :: held => by
    have ih := (store.changeLock guard.lock fun lock => lock.abandon guard.mode).size_locks_abandon held
    rw [Store.abandon, List.foldl_cons, ← Store.abandon, ih]
    simp [Store.changeLock]

/-- No move makes a cell or a lock, or removes one. -/
theorem Thread.Moves.sizes {store store' : Store w} {mishap : Mishap} {t t' : Thread w κ ρ}
    {call : κ} {e : Event w ρ} (hm : t.Moves sys store mishap call e store' t') :
    store'.cells.size = store.cells.size ∧ store'.locks.size = store.locks.size := by
  cases hm with
  | begins => exact ⟨rfl, rfl⟩
  | passes => exact e.size_after store
  | returns => exact ⟨rfl, rfl⟩
  | panics => exact ⟨congrArg Cells.size (store.cells_abandon _), store.size_locks_abandon _⟩

theorem Run.size_locks (h : Run sys m₀ labels m) : m.store.locks.size = m₀.store.locks.size := by
  refine h.of_moves (fun _ m => m.store.locks.size = m₀.store.locks.size) rfl ?_
  intro labels m mishap i t call e store t' _ ih _ hm
  exact hm.sizes.2.trans ih

end Sizes

theorem Prog.StaysWithin.passes {a a' : Active w κ ρ} {e : Event w ρ} {cells locks : Nat}
    (h : a.rest.StaysWithin cells locks) (hp : a.Passes e a') : a'.rest.StaysWithin cells locks := by
  cases hp with
  | loaded v hr =>
    rw [hr] at h
    exact h.2 v
  | stored old hr =>
    rw [hr] at h
    exact h.2
  | observed v hr => exact h
  | @committed _ _ _ v hr =>
    rw [hr] at h
    exact h.2 v
  | missed actual hr => exact h
  | acquired poisoned hr =>
    rw [hr] at h
    exact h.2 poisoned
  | released hr =>
    rw [hr] at h
    exact h
  | computed hr =>
    rw [hr] at h
    exact h

/-- What the programs address is there: those of the calls to come, and what is left of the others. -/
structure Served (sys : System w κ ρ) (m : Machine w κ ρ) : Prop where
  code : ∀ c, (sys.code c).StaysWithin m.store.cells.size m.store.locks.size
  rest : ∀ t ∈ m.threads, ∀ a, t.current = some a →
    a.rest.StaysWithin m.store.cells.size m.store.locks.size

section Served

variable {sys : System w κ ρ} {m m' m₀ : Machine w κ ρ} {labels : List (Label w κ ρ)} {i : Nat}
  {t t' : Thread w κ ρ}

theorem Served.start {store : Store w} (calls : List (List κ))
    (h : ∀ c, (sys.code c).StaysWithin store.cells.size store.locks.size) :
    Served sys (.start store calls) := by
  refine ⟨h, fun t ht a ha => ?_⟩
  cases (Machine.current_start ht).symm.trans ha

theorem Served.moves {mishap : Mishap} {call : κ} {e : Event w ρ} {store : Store w}
    (h : Served sys m) (ht : m.threads[i]? = some t)
    (hm : t.Moves sys m.store mishap call e store t') :
    Served sys ⟨store, m.threads.set i t'⟩ := by
  obtain ⟨hcells, hlocks⟩ := hm.sizes
  refine ⟨fun c => ?_, fun u hu a ha => ?_⟩ <;> simp only [hcells, hlocks]
  · exact h.code c
  · rcases List.mem_or_eq_of_mem_set hu with hu | rfl
    · exact h.rest u hu a ha
    · cases hm with
      | begins =>
        cases ha
        exact h.code _
      | passes hc hp =>
        cases ha
        exact (h.rest t (List.mem_of_getElem? ht) _ hc).passes hp
      | returns => cases ha
      | panics => cases ha

theorem Run.served (h : Run sys m₀ labels m) (h₀ : Served sys m₀) : Served sys m :=
  h.of_moves (fun _ m => Served sys m) h₀ fun _ _ _ _ _ _ _ _ _ _ ih ht hm => ih.moves ht hm

/-- Only a computation can panic. -/
theorem Served.not_panicked (h : Served sys m) {move : Move} {label : Label w κ ρ}
    (hstep : sys.step m move = some (label, m')) (hmove : move.mishap ≠ .panic) :
    label.event ≠ .panicked := by
  obtain ⟨t, call, event, store, t', ht, hm, rfl, rfl⟩ := System.step_cases hstep
  rintro rfl
  cases hm with
  | passes _ hp => cases hp
  | panics hc hd =>
    rcases hd with ⟨hpanic, -⟩ | hserved
    · exact hmove hpanic
    · exact hserved (h.rest t (List.mem_of_getElem? ht) _ hc).isServed

theorem Served.follow_calm : ∀ {moves : List Move} {m : Machine w κ ρ}
    {labels : List (Label w κ ρ)}, Served sys m → (∀ move ∈ moves, move.mishap ≠ .panic) →
      sys.follow m moves = some (labels, m') → ∀ l ∈ labels, l.event ≠ .panicked
  | [], m, labels, _, _, hf => by
    cases hf
    simp
  | move :: moves, m, labels, h, hmoves, hf => by
    obtain ⟨hmove, hmoves⟩ := List.forall_mem_cons.1 hmoves
    unfold System.follow at hf
    split at hf
    · cases hf
    · rename_i label m₁ hstep
      obtain ⟨⟨labels', m₂⟩, hf', heq⟩ := Option.map_eq_some_iff.1 hf
      cases heq
      have hserved := (Run.start.step hstep).served h
      exact List.forall_mem_cons.2 ⟨h.not_panicked hstep hmove, hserved.follow_calm hmoves hf'⟩

/-- A call can go on, unless it waits for a lock. -/
theorem Active.exists_proceed {a : Active w κ ρ} {store : Store w}
    (hfree : ∀ guard next lock, a.rest = .acquire guard next →
      store.locks[guard.lock]? = some lock → lock.isFree guard.mode = true) :
    ∃ x, a.proceed store = some x := by
  unfold Active.proceed
  split
  · exact ⟨_, rfl⟩
  · split <;> exact ⟨_, rfl⟩
  · split <;> exact ⟨_, rfl⟩
  · split
    · exact ⟨_, rfl⟩
    · split
      · exact ⟨_, rfl⟩
      · split <;> exact ⟨_, rfl⟩
  · rename_i guard next hr
    split
    · exact ⟨_, rfl⟩
    · rename_i lock hlock
      rw [if_pos (hfree guard next lock hr hlock)]
      exact ⟨_, rfl⟩
  · exact ⟨_, rfl⟩
  · exact ⟨_, rfl⟩

/-- A thread that has not come to its end can go on, unless it waits for a lock. -/
theorem System.exists_step (sys : System w κ ρ) (ht : m.threads[i]? = some t) (hdone : t.isDone = false)
    (hfree : ∀ a guard next lock, t.current = some a → a.rest = .acquire guard next →
      m.store.locks[guard.lock]? = some lock → lock.isFree guard.mode = true) :
    ∃ label m', sys.step m ⟨i, .none⟩ = some (label, m') := by
  unfold step
  simp only [ht, stepThread]
  rcases hc : t.current with _ | a
  · rcases hw : t.waiting with _ | ⟨call, waiting⟩
    · simp [Thread.isDone, hc, hw] at hdone
    · exact ⟨_, _, rfl⟩
  · obtain ⟨⟨event, outcome⟩, hx⟩ := Active.exists_proceed (hfree a · · · hc)
    simp only [Active.step, hx]
    cases outcome with
    | goesOn store a' => exact ⟨_, _, rfl⟩
    | ends store ending => exact ⟨_, _, rfl⟩

end Served

end SharedBits
