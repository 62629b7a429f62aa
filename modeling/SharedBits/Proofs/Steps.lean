import Mathlib.Algebra.GroupWithZero.Nat
import Mathlib.Tactic.SplitIfs
import SharedBits.Machine

/-!
# The steps of a machine

What a step can do, said once for all proofs about runs. A call under way goes on by an event that its
program has next (`Active.Passes`), that tells of the store as it is (`Event.Fits`), and that decides
the store after it (`Event.after`); or it returns; or it panics and lets go of its locks.
`Thread.Moves` puts the beginning of a call beside these three, and `Run.of_moves` is the induction
over a run with these four cases.
-/

namespace SharedBits

variable {w : Width} {κ ρ : Type}

namespace Event

/-- Whether what the event says of cells and locks is so in this store. -/
def Fits (store : Store w) : Event w ρ → Prop
  | loaded cell word => store.cells.load? cell = some word
  | stored cell old _ => store.cells.load? cell = some old
  | observed cell word => store.cells.load? cell = some word
  | committed cell old _ => store.cells.load? cell = some old
  | missed cell _ actual => store.cells.load? cell = some actual
  | acquired guard poisoned => ∃ lock, store.locks[guard.lock]? = some lock
    ∧ lock.isFree guard.mode = true ∧ lock.poisoned = poisoned
  | _ => True

/-- The store after an event that is not a panic. -/
def after (store : Store w) : Event w ρ → Store w
  | stored cell _ new => store.write cell new
  | committed cell _ new => store.write cell new
  | acquired guard _ => store.take guard
  | released guard => store.drop guard
  | _ => store

end Event

theorem Store.cells_abandon (store : Store w) :
    ∀ held : List Guard, (store.abandon held).cells = store.cells
  | [] => rfl
  | guard :: held => (store.changeLock guard.lock fun lock => lock.abandon guard.mode).cells_abandon held

/-- Whether the cell or the lock that a program addresses next exists. -/
def Prog.IsServed {α : Type} (store : Store w) : Prog w α → Prop
  | read cell _ => cell < store.cells.size
  | write cell _ _ => cell < store.cells.size
  | modify cell _ _ => cell < store.cells.size
  | acquire guard _ => guard.lock < store.locks.size
  | _ => True

/-- Whether a program computes next. -/
def Prog.IsComputing {α : Type} : Prog w α → Prop
  | compute _ => True
  | modify _ _ _ => True
  | _ => False

namespace Active

/-- Whether a call panics when it goes on: its computation does, or what it addresses is not there. -/
def Dies (a : Active w κ ρ) (store : Store w) (mishap : Mishap) : Prop :=
  (mishap = .panic ∧ a.rest.IsComputing) ∨ ¬ a.rest.IsServed store

/-- The event that a call has next, and the call after it. -/
inductive Passes (a : Active w κ ρ) : Event w ρ → Active w κ ρ → Prop
  | loaded {cell next} (v : Word w) (hr : a.rest = .read cell next) :
    Passes a (.loaded cell v) { a with rest := next v }
  | stored {cell value next} (old : Word w) (hr : a.rest = .write cell value next) :
    Passes a (.stored cell old value) { a with rest := next }
  | observed {cell transform next} (v : Word w) (hr : a.rest = .modify cell transform next)
    (hs : a.seen = none) : Passes a (.observed cell v) { a with seen := some v }
  | committed {cell transform next v} (hr : a.rest = .modify cell transform next)
    (hs : a.seen = some v) :
    Passes a (.committed cell v (transform v)) { a with rest := next v, seen := none }
  | missed {cell transform next seen} (actual : Word w) (hr : a.rest = .modify cell transform next)
    (hs : a.seen = some seen) : Passes a (.missed cell seen actual) { a with seen := some actual }
  | acquired {guard next} (poisoned : Bool) (hr : a.rest = .acquire guard next) :
    Passes a (.acquired guard poisoned)
      { a with rest := next poisoned, held := guard :: a.held }
  | released {guard next} (hr : a.rest = .release guard next) :
    Passes a (.released guard) { a with rest := next, held := a.held.erase guard }
  | computed {next} (hr : a.rest = .compute next) : Passes a .computed { a with rest := next }

variable {a : Active w κ ρ} {store : Store w} {event : Event w ρ} {outcome : Outcome w κ ρ}

/-- A call whose program has come to its end does not panic. -/
theorem Dies.not_ret {mishap : Mishap} (h : a.Dies store mishap) (r : ρ) : a.rest ≠ .ret r := by
  intro hr
  rw [Dies, hr] at h
  rcases h with ⟨-, hcomputing⟩ | hserved
  · exact hcomputing
  · exact hserved trivial

theorem Passes.call_eq {a' : Active w κ ρ} (h : a.Passes event a') : a'.call = a.call := by
  cases h <;> rfl

theorem proceed_cases (h : a.proceed store = some (event, outcome)) :
    (∃ a', a.Passes event a' ∧ event.Fits store ∧ outcome = .goesOn (event.after store) a')
      ∨ (∃ r, a.rest = .ret r ∧ event = .returned r ∧ outcome = .ends store (.returned r))
      ∨ ¬ a.rest.IsServed store ∧ event = .panicked
        ∧ outcome = .ends (store.abandon a.held) .panicked := by
  unfold proceed at h
  split at h
  · rename_i r hr
    cases h
    exact .inr (.inl ⟨r, hr, rfl, rfl⟩)
  · rename_i cell next hr
    split at h <;> rename_i hl <;> cases h
    · rw [hr]
      exact .inr (.inr ⟨Nat.not_lt_of_le (Cells.load?_eq_none.1 hl), rfl, rfl⟩)
    · exact .inl ⟨_, .loaded _ hr, hl, rfl⟩
  · rename_i cell value next hr
    split at h <;> rename_i hl <;> cases h
    · rw [hr]
      exact .inr (.inr ⟨Nat.not_lt_of_le (Cells.load?_eq_none.1 hl), rfl, rfl⟩)
    · exact .inl ⟨_, .stored _ hr, hl, rfl⟩
  · rename_i cell transform next hr
    split at h
    · rename_i hl
      cases h
      rw [hr]
      exact .inr (.inr ⟨Nat.not_lt_of_le (Cells.load?_eq_none.1 hl), rfl, rfl⟩)
    · rename_i v hl
      split at h
      · rename_i hs
        cases h
        exact .inl ⟨_, .observed _ hr hs, hl, rfl⟩
      · rename_i seen hs
        unfold compareSwap at h
        split_ifs at h with hv <;> cases h
        · subst hv
          exact .inl ⟨_, .committed hr hs, hl, rfl⟩
        · exact .inl ⟨_, .missed _ hr hs, hl, rfl⟩
  · rename_i guard next hr
    split at h
    · rename_i hl
      cases h
      rw [hr]
      exact .inr (.inr ⟨Nat.not_lt_of_le (Array.getElem?_eq_none_iff.1 hl), rfl, rfl⟩)
    · rename_i lock hl
      split_ifs at h with hf
      cases h
      exact .inl ⟨_, .acquired _ hr, ⟨lock, hl, hf, rfl⟩, rfl⟩
  · rename_i guard next hr
    cases h
    exact .inl ⟨_, .released hr, trivial, rfl⟩
  · rename_i next hr
    cases h
    exact .inl ⟨_, .computed hr, trivial, rfl⟩

/-- All that a step of a call can do. -/
theorem step_cases {mishap : Mishap} (h : a.step store mishap = some (event, outcome)) :
    (∃ a', a.Passes event a' ∧ event.Fits store ∧ outcome = .goesOn (event.after store) a')
      ∨ (∃ r, a.rest = .ret r ∧ event = .returned r ∧ outcome = .ends store (.returned r))
      ∨ a.Dies store mishap ∧ event = .panicked
        ∧ outcome = .ends (store.abandon a.held) .panicked := by
  cases mishap with
  | none =>
    rcases proceed_cases h with h | h | ⟨hs, h⟩
    · exact .inl h
    · exact .inr (.inl h)
    · exact .inr (.inr ⟨.inr hs, h⟩)
  | spuriousFailure =>
    simp only [step, miss] at h
    split at h
    · rename_i cell transform next seen hr hs
      obtain ⟨v, hl, hv⟩ := Option.map_eq_some_iff.1 h
      cases hv
      exact .inl ⟨_, .missed v hr hs, hl, rfl⟩
    · cases h
  | panic =>
    simp only [step, panic] at h
    split at h
    · rename_i hr
      cases h
      exact .inr (.inr ⟨.inl ⟨rfl, by rw [hr]; trivial⟩, rfl, rfl⟩)
    · rename_i hr hs
      cases h
      exact .inr (.inr ⟨.inl ⟨rfl, by rw [hr]; trivial⟩, rfl, rfl⟩)
    · cases h

end Active

/-- A call that has just begun. -/
def System.opening (sys : System w κ ρ) (call : κ) : Active w κ ρ :=
  { call := call, rest := sys.code call }

/-- The moves of a thread: in which call, by which event, and the store and the thread after it. -/
inductive Thread.Moves (sys : System w κ ρ) (store : Store w) (mishap : Mishap)
    (t : Thread w κ ρ) : κ → Event w ρ → Store w → Thread w κ ρ → Prop
  | begins {call waiting} (hc : t.current = none) (hw : t.waiting = call :: waiting) :
    Moves sys store mishap t call .began store
      { t with waiting := waiting, current := some (sys.opening call) }
  | passes {a a' event} (hc : t.current = some a) (hp : a.Passes event a')
    (hf : event.Fits store) :
    Moves sys store mishap t a.call event (event.after store) { t with current := some a' }
  | returns {a r} (hc : t.current = some a) (hr : a.rest = .ret r) :
    Moves sys store mishap t a.call (.returned r) store (t.finish sys.stops a.call (.returned r))
  | panics {a} (hc : t.current = some a) (hd : a.Dies store mishap) :
    Moves sys store mishap t a.call .panicked (store.abandon a.held)
      (t.finish sys.stops a.call .panicked)

theorem Thread.isDone_iff {t : Thread w κ ρ} :
    t.isDone = true ↔ t.waiting = [] ∧ t.current = none := by
  simp [isDone]

theorem Machine.exists_start {store : Store w} {calls : List (List κ)} {i : Nat} {t : Thread w κ ρ}
    (ht : (start store calls).threads[i]? = some t) :
    ∃ waiting, calls[i]? = some waiting ∧ t = .start waiting := by
  simp only [start, List.getElem?_map, Option.map_eq_some_iff] at ht
  obtain ⟨waiting, hw, rfl⟩ := ht
  exact ⟨waiting, hw, rfl⟩

theorem Machine.current_start {store : Store w} {calls : List (List κ)} {t : Thread w κ ρ}
    (ht : t ∈ (start store calls).threads) : t.current = none := by
  obtain ⟨waiting, -, rfl⟩ := List.mem_map.1 ht
  rfl

namespace System

variable {sys : System w κ ρ} {m m' : Machine w κ ρ} {move : Move} {label : Label w κ ρ}

/-- All that a step of the machine can do. -/
theorem step_cases (h : sys.step m move = some (label, m')) :
    ∃ t call event store t', m.threads[move.thread]? = some t
      ∧ t.Moves sys m.store move.mishap call event store t'
      ∧ label = ⟨move.thread, t.finished.size, call, event⟩
      ∧ m' = ⟨store, m.threads.set move.thread t'⟩ := by
  unfold step at h
  split at h
  · cases h
  · rename_i t ht
    split at h
    · cases h
    · rename_i call event store t' hst
      cases h
      refine ⟨t, call, event, store, t', ht, ?_, rfl, rfl⟩
      unfold stepThread at hst
      split at hst
      · rename_i hc
        split at hst
        · cases hst
        · rename_i hw
          split_ifs at hst
          cases hst
          exact .begins hc hw
      · rename_i a hc
        split at hst
        · cases hst
        · rename_i hs
          cases hst
          rcases Active.step_cases hs with ⟨_, hp, hf, h⟩ | ⟨_, _, _, h⟩ | ⟨_, _, h⟩ <;> cases h
          rw [hp.call_eq]
          exact .passes hc hp hf
        · rename_i hs
          cases hst
          rcases Active.step_cases hs with ⟨_, _, _, h⟩ | ⟨r, hr, rfl, h⟩ | ⟨hd, rfl, h⟩ <;> cases h
          · exact .returns hc hr
          · exact .panics hc hd

/-- Makes moves one after another, if each can be made. -/
def follow (sys : System w κ ρ) (m : Machine w κ ρ) :
    List Move → Option (List (Label w κ ρ) × Machine w κ ρ)
  | [] => some ([], m)
  | move :: moves =>
    match sys.step m move with
    | none => none
    | some (label, m) =>
      (sys.follow m moves).map fun (labels, m) => (label :: labels, m)

end System

/-- Where an entry stands in a list that has grown by one. -/
theorem snoc_eq_append_cons {T : Type} {x y : T} {post : List T} :
    ∀ {l pre : List T}, l ++ [x] = pre ++ y :: post →
      (pre = l ∧ y = x ∧ post = []) ∨ ∃ post', post = post' ++ [x] ∧ l = pre ++ y :: post'
  | [], [], h => by
    cases h
    exact .inl ⟨rfl, rfl, rfl⟩
  | [], _ :: _, h => by simp at h
  | _ :: l, [], h => by
    cases h
    exact .inr ⟨l, rfl, rfl⟩
  | _ :: _, _ :: _, h => by
    obtain ⟨rfl, htail⟩ := List.cons.inj h
    rcases snoc_eq_append_cons htail with ⟨rfl, rfl, rfl⟩ | ⟨post', rfl, rfl⟩
    · exact .inl ⟨rfl, rfl, rfl⟩
    · exact .inr ⟨post', rfl, rfl⟩

section Runs

variable {sys : System w κ ρ} {m₀ m : Machine w κ ρ} {labels : List (Label w κ ρ)}

/-- What holds at the start and is kept by each move of a thread holds after every run. -/
theorem Run.of_moves (I : List (Label w κ ρ) → Machine w κ ρ → Prop) (h₀ : I [] m₀)
    (hs : ∀ labels m mishap i t call event store t', Run sys m₀ labels m → I labels m →
      m.threads[i]? = some t → t.Moves sys m.store mishap call event store t' →
      I (labels ++ [⟨i, t.finished.size, call, event⟩]) ⟨store, m.threads.set i t'⟩)
    (h : Run sys m₀ labels m) : I labels m := by
  induction h with
  | start => exact h₀
  | step hr hst ih =>
    obtain ⟨t, call, event, store, t', ht, hm, rfl, rfl⟩ := System.step_cases hst
    exact hs _ _ _ _ _ _ _ _ _ hr ih ht hm

theorem Run.of_follow : ∀ {moves : List Move} {before after : List (Label w κ ρ)}
    {m m' : Machine w κ ρ}, Run sys m₀ before m → sys.follow m moves = some (after, m') →
      Run sys m₀ (before ++ after) m'
  | [], _, _, _, _, h, hf => by
    cases hf
    rwa [List.append_nil]
  | move :: moves, before, after, m, m', h, hf => by
    unfold System.follow at hf
    split at hf
    · cases hf
    · rename_i label m₁ hst
      obtain ⟨⟨labels, m₂⟩, hf', heq⟩ := Option.map_eq_some_iff.1 hf
      cases heq
      have ih := Run.of_follow (h.step hst) hf'
      rwa [List.append_assoc] at ih

/-- Any label of a run is the label of a move from the machine that the run had reached before. -/
theorem Run.split {l : Label w κ ρ} (h : Run sys m₀ labels m) :
    ∀ {pre post : List (Label w κ ρ)}, labels = pre ++ l :: post → ∃ m₁ mishap t store t',
      Run sys m₀ pre m₁ ∧ m₁.threads[l.thread]? = some t
        ∧ t.Moves sys m₁.store mishap l.call l.event store t' ∧ l.number = t.finished.size := by
  induction h with
  | start =>
    intro pre post heq
    simp at heq
  | @step labels m₁ m' move label hr hst ih =>
    intro pre post heq
    rcases snoc_eq_append_cons heq with ⟨rfl, rfl, -⟩ | ⟨post', -, heq'⟩
    · obtain ⟨t, call, event, store, t', ht, hm, rfl, -⟩ := System.step_cases hst
      exact ⟨m₁, _, t, store, t', hr, ht, hm, rfl⟩
    · exact ih heq'

/-- What a run tells of cells and locks is so in the store that the run had reached before. -/
theorem Thread.Moves.fits {store store' : Store w} {mishap : Mishap} {t t' : Thread w κ ρ} {call : κ}
    {event : Event w ρ} (h : t.Moves sys store mishap call event store' t') : event.Fits store := by
  cases h with
  | begins => trivial
  | passes _ _ hf => exact hf
  | returns => trivial
  | panics => trivial

theorem Thread.Moves.call_eq {store store' : Store w} {mishap : Mishap} {t t' : Thread w κ ρ}
    {call : κ} {e : Event w ρ} {a : Active w κ ρ} (hm : t.Moves sys store mishap call e store' t')
    (hc : t.current = some a) : call = a.call := by
  cases hm with
  | begins hc' => simp [hc] at hc'
  | passes hc' => exact congrArg Active.call (Option.some.inj (hc'.symm.trans hc))
  | returns hc' => exact congrArg Active.call (Option.some.inj (hc'.symm.trans hc))
  | panics hc' => exact congrArg Active.call (Option.some.inj (hc'.symm.trans hc))

theorem Run.of_append {labels' : List (Label w κ ρ)} (h : Run sys m₀ (labels ++ labels') m) :
    ∃ m₁, Run sys m₀ labels m₁ := by
  rcases labels' with _ | ⟨l, labels'⟩
  · exact ⟨m, by rwa [List.append_nil] at h⟩
  · obtain ⟨m₁, -, -, -, -, hr, -⟩ := h.split rfl
    exact ⟨m₁, hr⟩

end Runs

theorem getElem?_set_thread {T : Type} {l : List T} {i j : Nat} {t t' u : T}
    (hi : l[i]? = some t) :
    (l.set i t')[j]? = some u ↔ (j = i ∧ u = t') ∨ (j ≠ i ∧ l[j]? = some u) := by
  have hlt : i < l.length := (List.getElem?_eq_some_iff.1 hi).1
  rw [List.getElem?_set]
  by_cases hij : i = j
  · subst hij
    simp [hlt, eq_comm]
  · simp [hij, Ne.symm hij]

theorem sum_map_set {T : Type} (f : T → Nat) (t' : T) : ∀ {l : List T} {i : Nat} {t : T},
    l[i]? = some t → ((l.set i t').map f).sum + f t = (l.map f).sum + f t'
  | [], _, _, h => by simp at h
  | t :: l, 0, _, h => by
    obtain rfl : t = _ := by simpa using h
    simp only [List.set_cons_zero, List.map_cons, List.sum_cons]
    omega
  | u :: l, i + 1, t, h => by
    have ih := sum_map_set f t' (show l[i]? = some t by simpa using h)
    simp only [List.set_cons_succ, List.map_cons, List.sum_cons]
    omega

end SharedBits
