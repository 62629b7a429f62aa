import Mathlib.Data.List.Basic
import SharedBits.Fragile
import SharedBits.Proofs.Steps

/-!
# Who holds which lock

A program obeys the locks if it uses a word under the guard of that word and nothing else, holds no
guard while it waits for one, and ends with none (`Prog.Obeys`). All calls of the strategies that lose
no update obey (`code_obeys`). In the runs of programs that obey, every lock counts its holders
(`Store.Books`, `Run.holding`), so that a thread that holds a lock alone shares it with no other
(`Holding.alone`), and a lock that is poisoned tells of a panic (`Run.panicked_of_poisoned`).
-/

namespace SharedBits

variable {w : Width} {α β κ ρ : Type}

/-- The guard under which a word is used, if there is one. -/
def Strategy.guardOf (s : Strategy) (mode : Mode) (word : Nat) : List Guard :=
  (s.lockOfWord word).toList.map fun l => ⟨l, mode⟩

/-- The mode in which a call takes its locks. -/
def Strategy.modeOf (s : Strategy) : Call → Mode
  | .update _ _ => .exclusive
  | _ => match s.discipline with
    | .locked _ reading => reading
    | .compareSwap | .loadStore => .shared

namespace Prog

variable (s : Strategy) (mode : Mode)

/-- The program takes locks in this mode, one at a time, and uses each word under its own guard:
`held` are the guards that it holds now, `out` those that it holds in the end. -/
def Obeys : Prog w α → (held out : List Guard) → Prop
  | ret _, held, out => held = out
  | read cell next, held, out =>
    (held = s.guardOf mode cell ∧ (mode = .exclusive → s.lockOfWord cell ≠ none))
      ∧ ∀ v, (next v).Obeys held out
  | write cell _ next, held, out =>
    (held = s.guardOf mode cell ∧ mode = .exclusive ∧ s.lockOfWord cell ≠ none)
      ∧ next.Obeys held out
  | modify cell _ next, held, out =>
    (held = [] ∧ s.lockOfWord cell = none) ∧ ∀ v, (next v).Obeys held out
  | acquire guard next, held, out => (held = [] ∧ guard.mode = mode) ∧ ∀ b, (next b).Obeys [guard] out
  | release guard next, held, out => held = [guard] ∧ next.Obeys [] out
  | compute next, held, out => next.Obeys held out

variable {s mode}

theorem Obeys.bind {f : α → Prog w β} {p : Prog w α} {held mid out : List Guard}
    (h : p.Obeys s mode held mid) (hf : ∀ a, (f a).Obeys s mode mid out) :
    (p.bind f).Obeys s mode held out := by
  induction p generalizing held with
  | ret a =>
    obtain rfl := h
    exact hf a
  | read cell next ih => exact ⟨h.1, fun v => ih v (h.2 v)⟩
  | write cell value next ih => exact ⟨h.1, ih h.2⟩
  | modify cell transform next ih => exact ⟨h.1, fun v => ih v (h.2 v)⟩
  | acquire guard next ih => exact ⟨h.1, fun b => ih b (h.2 b)⟩
  | release guard next ih => exact ⟨h.1, ih h.2⟩
  | compute next ih => exact ih h

/-- A program that ends with no guard never holds more than one. -/
theorem Obeys.held_cases {p : Prog w α} {held : List Guard} (h : p.Obeys s mode held []) :
    held = [] ∨ ∃ guard, held = [guard] := by
  induction p with
  | ret a => exact .inl h
  | read cell next ih => exact ih 0 (h.2 0)
  | write cell value next ih => exact ih h.2
  | modify cell transform next ih => exact .inl h.1.1
  | acquire guard next ih => exact .inl h.1.1
  | release guard next ih => exact .inr ⟨guard, h.1⟩
  | compute next ih => exact ih h

theorem Obeys.guarded {g : Guard} {body : Prog w α} (hm : g.mode = mode)
    (h : body.Obeys s mode [g] [g]) : (guarded g body).Obeys s mode [] [] := by
  refine ⟨⟨rfl, hm⟩, fun poisoned => ?_⟩
  cases poisoned with
  | true => exact ⟨rfl, rfl⟩
  | false => exact h.bind fun _ => ⟨rfl, rfl⟩

theorem obeys_readBit {a : Address} {held : List Guard} (h : held = s.guardOf mode a.word)
    (hl : mode = .exclusive → s.lockOfWord a.word ≠ none) :
    (readBit (w := w) a).Obeys s mode held held := ⟨⟨h, hl⟩, fun _ => rfl⟩

theorem obeys_readOnes {cell : Nat} {held : List Guard} (h : held = s.guardOf mode cell)
    (hl : mode = .exclusive → s.lockOfWord cell ≠ none) :
    (readOnes (w := w) cell).Obeys s mode held held := ⟨⟨h, hl⟩, fun _ => rfl⟩

theorem obeys_changeBit {a : Address} {op : BitOp} {held : List Guard}
    (h : held = s.guardOf .exclusive a.word) (hl : s.lockOfWord a.word ≠ none) :
    (changeBit (w := w) a op).Obeys s .exclusive held held :=
  ⟨⟨h, fun _ => hl⟩, fun _ => ⟨⟨h, rfl, hl⟩, rfl⟩⟩

theorem obeys_sum {each : Nat → Prog w Nat} {held : List Guard}
    (h : ∀ i, (each i).Obeys s mode held held) :
    ∀ n first total, (sum each first n total).Obeys s mode held held
  | 0, _, _ => rfl
  | n + 1, first, total => (h first).bind fun k => obeys_sum h n (first + 1) (total + k)

theorem obeys_sumUntilRefused {each : Nat → Prog w (Except Error Nat)} {held : List Guard}
    (h : ∀ i, (each i).Obeys s mode held held) :
    ∀ n first total, (sumUntilRefused each first n total).Obeys s mode held held
  | 0, _, _ => rfl
  | n + 1, first, total => (h first).bind fun r => by
    cases r with
    | error _ => exact rfl
    | ok k => exact obeys_sumUntilRefused h n (first + 1) (total + k)

end Prog

namespace Strategy

open Prog

variable {s : Strategy}

theorem guardOf_of_locked {span : Span} {reading : Mode} (hd : s.discipline = .locked span reading)
    (mode : Mode) (word : Nat) : s.guardOf mode word = [⟨span.lockOf word, mode⟩] := by
  simp [guardOf, lockOfWord, hd]

theorem lockOfWord_ne_none {span : Span} {reading : Mode} (hd : s.discipline = .locked span reading)
    (word : Nat) : s.lockOfWord word ≠ none := by
  simp [lockOfWord, hd]

theorem guardOf_compareSwap (hd : s.discipline = .compareSwap) (mode : Mode) (word : Nat) :
    s.guardOf mode word = [] := by
  simp [guardOf, lockOfWord, hd]

theorem eq_unsynchronized (hs : s.isSynchronized = false) : s = .unsynchronized := by
  cases s <;> first | rfl | cases hs

theorem discipline_ne_loadStore (hs : s.isSynchronized = true) : s.discipline ≠ .loadStore := by
  cases s <;> simp_all [discipline, isSynchronized]

theorem getAt_obeys (hs : s.isSynchronized = true) (a : Address) :
    (s.getAt w a).Obeys s (s.modeOf (.get 0)) [] [] := by
  rcases hd : s.discipline with ⟨span, reading⟩ | _ | _
  · simp only [getAt, modeOf, hd]
    exact .guarded rfl (obeys_readBit (guardOf_of_locked hd _ _).symm
      fun _ => lockOfWord_ne_none hd _)
  · simp only [getAt, modeOf, hd]
    exact (obeys_readBit (guardOf_compareSwap hd _ _).symm fun h => by cases h).bind fun _ => rfl
  · exact absurd hd (discipline_ne_loadStore hs)

theorem updateAt_obeys (hs : s.isSynchronized = true) (a : Address) (op : BitOp) :
    (s.updateAt w a op).Obeys s .exclusive [] [] := by
  rcases hd : s.discipline with ⟨span, reading⟩ | _ | _
  · simp only [updateAt, hd]
    exact .guarded rfl (obeys_changeBit (guardOf_of_locked hd _ _).symm (lockOfWord_ne_none hd _))
  · simp only [updateAt, hd]
    refine Obeys.bind ⟨⟨rfl, ?_⟩, fun _ => rfl⟩ fun _ => rfl
    simp [lockOfWord, hd]
  · exact absurd hd (discipline_ne_loadStore hs)

theorem count_obeys (hs : s.isSynchronized = true) (capacity : Nat) :
    (s.count w capacity).Obeys s (s.modeOf .count) [] [] := by
  rcases hd : s.discipline with ⟨_ | _, reading⟩ | _ | _
  · simp only [count, modeOf, hd]
    exact .guarded rfl (obeys_sum (fun k => obeys_readOnes (guardOf_of_locked hd _ k).symm
      fun _ => lockOfWord_ne_none hd k) _ _ _)
  · simp only [count, modeOf, hd]
    exact obeys_sumUntilRefused (fun k => .guarded (g := ⟨k, reading⟩) rfl (obeys_readOnes
      (guardOf_of_locked hd _ k).symm fun _ => lockOfWord_ne_none hd k)) _ _ _
  · simp only [count, modeOf, hd]
    exact (obeys_sum (fun k => obeys_readOnes (guardOf_compareSwap hd _ k).symm
      fun h => by cases h) _ _ _).bind fun _ => rfl
  · exact absurd hd (discipline_ne_loadStore hs)

/-- The calls of a strategy that loses no update obey the locks. -/
theorem code_obeys (hs : s.isSynchronized = true) (capacity : Nat) :
    ∀ call : Call, (s.code w capacity call).Obeys s (s.modeOf call) [] []
  | .get i => by
    refine Obeys.bind ?_ fun _ => rfl
    unfold Strategy.get
    cases requireIndex i capacity with
    | error _ => exact rfl
    | ok _ => exact getAt_obeys hs _
  | .update op i => by
    refine Obeys.bind ?_ fun _ => rfl
    unfold Strategy.update
    cases requireIndex i capacity with
    | error _ => exact rfl
    | ok _ => exact updateAt_obeys hs _ op
  | .count => Obeys.bind (count_obeys hs capacity) fun _ => rfl

end Strategy

/-! ## The holders of a lock -/

/-- A lock that counts its holders: `n mode` of them in each mode. -/
structure Lock.Books (lock : Lock) (n : Mode → Nat) : Prop where
  readers : lock.readers = n .shared
  writer : lock.writer.toNat = n .exclusive
  alone : lock.writer = true → lock.readers = 0

namespace Lock

variable {lock : Lock} {n n' : Mode → Nat} {mode : Mode}

theorem Books.take (h : lock.Books n) (hf : lock.isFree mode = true)
    (hn : n' mode = n mode + 1) (ho : ∀ other, other ≠ mode → n' other = n other) :
    (lock.take mode).Books n' := by
  obtain ⟨hr, hw, ha⟩ := h
  cases mode with
  | shared =>
    have he := ho .exclusive (by decide)
    have hfree : lock.writer = false := by simpa [isFree] using hf
    refine ⟨?_, ?_, ?_⟩ <;> simp_all [Lock.take]
  | exclusive =>
    have hs := ho .shared (by decide)
    have hfree : lock.writer = false ∧ lock.readers = 0 := by simpa [isFree] using hf
    refine ⟨?_, ?_, ?_⟩ <;> simp_all [Lock.take]

theorem Books.drop (h : lock.Books n) (hn : n mode = n' mode + 1)
    (ho : ∀ other, other ≠ mode → n' other = n other) : (lock.drop mode).Books n' := by
  obtain ⟨hr, hw, ha⟩ := h
  cases mode with
  | shared =>
    have he := ho .exclusive (by decide)
    refine ⟨by simp only [Lock.drop]; omega, by simpa only [Lock.drop, he] using hw, fun h => ?_⟩
    have := ha h
    simp only [Lock.drop]
    omega
  | exclusive =>
    have hs := ho .shared (by decide)
    have hle := Bool.toNat_le lock.writer
    refine ⟨by simpa only [Lock.drop, hs] using hr, ?_, fun h => by cases h⟩
    simp only [Lock.drop, Bool.toNat_false]
    omega

end Lock

/-- A store whose locks count their holders: `n guard` of each guard. -/
structure Store.Books (store : Store w) (n : Guard → Nat) : Prop where
  absent : ∀ guard : Guard, store.locks[guard.lock]? = none → n guard = 0
  present : ∀ (l : Nat) (lock : Lock), store.locks[l]? = some lock → lock.Books fun mode => n ⟨l, mode⟩

namespace Store

variable {store : Store w} {n n' : Guard → Nat} {guard : Guard}

theorem Books.changeLock {change : Lock → Lock} (h : store.Books n)
    (hg : store.locks[guard.lock]? ≠ none)
    (hc : ∀ lock, store.locks[guard.lock]? = some lock →
      (change lock).Books fun mode => n' ⟨guard.lock, mode⟩)
    (ho : ∀ other, other ≠ guard → n' other = n other) :
    (store.changeLock guard.lock change).Books n' := by
  refine ⟨fun g hn => ?_, fun l lock hl => ?_⟩
  · have hn' : store.locks[g.lock]? = none := by
      rw [Store.changeLock, Array.getElem?_modify] at hn
      split at hn
      · exact Option.map_eq_none_iff.1 hn
      · exact hn
    rw [ho g fun heq => hg (heq ▸ hn')]
    exact h.absent g hn'
  · simp only [Store.changeLock, Array.getElem?_modify] at hl
    split at hl
    · rename_i heq
      subst heq
      obtain ⟨lock', hl', rfl⟩ := Option.map_eq_some_iff.1 hl
      exact hc lock' hl'
    · rename_i hne
      have hmode : (fun mode => n' ⟨l, mode⟩) = fun mode => n ⟨l, mode⟩ :=
        funext fun mode => ho _ fun heq => hne (congrArg Guard.lock heq).symm
      rw [hmode]
      exact h.present l lock hl

theorem Books.take (h : store.Books n) {lock : Lock} (hl : store.locks[guard.lock]? = some lock)
    (hf : lock.isFree guard.mode = true) (hn : n' guard = n guard + 1)
    (ho : ∀ other, other ≠ guard → n' other = n other) : (store.take guard).Books n' := by
  refine h.changeLock (by simp [hl]) (fun lock' hl' => ?_) ho
  obtain rfl := Option.some.inj (hl.symm.trans hl')
  exact (h.present _ _ hl).take hf hn fun other hne =>
    ho _ fun heq => hne (congrArg Guard.mode heq)

theorem Books.drop (h : store.Books n) (hn : n guard = n' guard + 1)
    (ho : ∀ other, other ≠ guard → n' other = n other) : (store.drop guard).Books n' := by
  refine h.changeLock (fun hnone => ?_) (fun lock hl => ?_) ho
  · have := h.absent guard hnone
    omega
  · exact (h.present _ _ hl).drop hn fun other hne => ho _ fun heq => hne (congrArg Guard.mode heq)

/-- The death of a holder counts like a guard given back. -/
theorem Books.abandon (h : store.Books n) (hn : n guard = n' guard + 1)
    (ho : ∀ other, other ≠ guard → n' other = n other) : (store.abandon [guard]).Books n' := by
  refine h.changeLock (fun hnone => ?_) (fun lock hl => ?_) ho
  · have := h.absent guard hnone
    omega
  · have hd := (h.present _ _ hl).drop hn fun other hne =>
      ho _ fun heq => hne (congrArg Guard.mode heq)
    exact ⟨hd.readers, hd.writer, hd.alone⟩

end Store

/-- The guards that a thread holds. -/
def Thread.held (t : Thread w κ ρ) : List Guard :=
  match t.current with
  | none => []
  | some a => a.held

/-- How often a guard is held. -/
def Machine.holders (m : Machine w κ ρ) (guard : Guard) : Nat :=
  (m.threads.flatMap Thread.held).count guard

namespace Machine

variable {m : Machine w κ ρ} {i : Nat} {t : Thread w κ ρ} {guard : Guard}

theorem holders_set (ht : m.threads[i]? = some t) (store : Store w) (t' : Thread w κ ρ)
    (guard : Guard) : (Machine.mk store (m.threads.set i t')).holders guard + t.held.count guard
      = m.holders guard + t'.held.count guard := by
  simp only [Machine.holders, List.count_flatMap]
  exact sum_map_set _ t' ht

theorem count_le_holders (ht : m.threads[i]? = some t) (guard : Guard) :
    t.held.count guard ≤ m.holders guard := by
  have h := holders_set ht m.store (Thread.start []) guard
  have : (Thread.start [] : Thread w κ ρ).held.count guard = 0 := rfl
  omega

/-- Two threads hold no more of a guard than there is. -/
theorem count_add_count_le_holders {j : Nat} {u : Thread w κ ρ} (hij : i ≠ j)
    (ht : m.threads[i]? = some t) (hu : m.threads[j]? = some u) (guard : Guard) :
    t.held.count guard + u.held.count guard ≤ m.holders guard := by
  have h := holders_set ht m.store (Thread.start []) guard
  have hu' : (Machine.mk m.store (m.threads.set i (Thread.start []))).threads[j]? = some u := by
    simpa [List.getElem?_set, hij] using hu
  have hle := count_le_holders hu' guard
  have : (Thread.start [] : Thread w κ ρ).held.count guard = 0 := rfl
  omega

theorem holders_of_held_eq (ht : m.threads[i]? = some t) (store : Store w) {t' : Thread w κ ρ}
    (hh : t'.held = t.held) : (Machine.mk store (m.threads.set i t')).holders = m.holders := by
  funext guard
  have h := holders_set ht store t' guard
  rw [hh] at h
  omega

theorem count_cons_cases {n n' : Guard → Nat} {held : List Guard}
    (h : ∀ g, n' g + held.count g = n g + (guard :: held).count g) :
    n' guard = n guard + 1 ∧ ∀ other, other ≠ guard → n' other = n other := by
  refine ⟨?_, fun other hne => ?_⟩
  · have := h guard
    rw [List.count_cons_self] at this
    omega
  · have := h other
    rw [List.count_cons_of_ne (Ne.symm hne)] at this
    omega

theorem holders_cons (ht : m.threads[i]? = some t) (store : Store w) {t' : Thread w κ ρ}
    (hh : t'.held = guard :: t.held) :
    (Machine.mk store (m.threads.set i t')).holders guard = m.holders guard + 1
      ∧ ∀ other, other ≠ guard →
        (Machine.mk store (m.threads.set i t')).holders other = m.holders other :=
  count_cons_cases fun g => by
    have h := holders_set ht store t' g
    rwa [hh] at h

theorem holders_uncons (ht : m.threads[i]? = some t) (store : Store w) {t' : Thread w κ ρ}
    (hh : t.held = guard :: t'.held) :
    m.holders guard = (Machine.mk store (m.threads.set i t')).holders guard + 1
      ∧ ∀ other, other ≠ guard →
        (Machine.mk store (m.threads.set i t')).holders other = m.holders other := by
  obtain ⟨hself, hother⟩ := count_cons_cases (n := (Machine.mk store (m.threads.set i t')).holders)
    fun g => by
      have h := holders_set ht store t' g
      rw [hh] at h
      exact h.symm
  exact ⟨hself, fun other hne => (hother other hne).symm⟩

end Machine

/-! ## Runs of programs that obey -/

theorem Prog.Obeys.passes {s : Strategy} {mode : Mode} {a a' : Active w κ ρ} {e : Event w ρ}
    (h : a.rest.Obeys s mode a.held []) (hp : a.Passes e a') :
    a'.rest.Obeys s mode a'.held [] := by
  cases hp with
  | loaded v hr =>
    rw [hr] at h
    exact h.2 v
  | stored old hr =>
    rw [hr] at h
    exact h.2
  | observed v hr => exact h
  | @committed _ _ _ v hr =>
    rw [hr] at h
    exact h.2 v
  | missed actual hr => exact h
  | acquired poisoned hr =>
    rw [hr] at h
    obtain ⟨⟨hheld, -⟩, h⟩ := h
    simpa only [hheld] using h poisoned
  | released hr =>
    rw [hr] at h
    obtain ⟨hheld, h⟩ := h
    simpa only [hheld, List.erase_cons_head] using h
  | computed hr =>
    rw [hr] at h
    exact h

/-- The locks count their holders, and what is left of every call obeys. -/
structure Holding (s : Strategy) (mode : κ → Mode) (m : Machine w κ ρ) : Prop where
  books : m.store.Books m.holders
  obeys : ∀ (i : Nat) (t : Thread w κ ρ) (a : Active w κ ρ), m.threads[i]? = some t →
    t.current = some a → a.rest.Obeys s (mode a.call) a.held []

section Runs

variable {s : Strategy} {mode : κ → Mode} {sys : System w κ ρ} {m m₀ : Machine w κ ρ} {i : Nat}
  {t t' : Thread w κ ρ} {labels : List (Label w κ ρ)}

theorem Thread.held_of_current {a : Active w κ ρ} (hc : t.current = some a) : t.held = a.held := by
  rw [Thread.held, hc]

theorem Holding.books_passes (h : Holding s mode m) {a a' : Active w κ ρ} {e : Event w ρ}
    (ht : m.threads[i]? = some t) (hc : t.current = some a) (hp : a.Passes e a')
    (hf : e.Fits m.store) : (e.after m.store).Books
      (Machine.mk (e.after m.store) (m.threads.set i { t with current := some a' })).holders := by
  have hobeys := h.obeys i t a ht hc
  have hheld := Thread.held_of_current hc
  cases hp with
  | @acquired guard next poisoned hr =>
    obtain ⟨lock, hl, hfree, -⟩ := hf
    have hheld' : Thread.held { t with current := some { a with
        rest := next poisoned, held := guard :: a.held } } = guard :: t.held := by
      rw [hheld]
      rfl
    obtain ⟨hself, hother⟩ := Machine.holders_cons ht (m.store.take guard) hheld'
    exact h.books.take hl hfree hself hother
  | @released guard next hr =>
    rw [hr] at hobeys
    have hheld' : t.held = guard :: Thread.held { t with current := some { a with
        rest := next, held := a.held.erase guard } } := by
      rw [hheld]
      simp only [Thread.held, hobeys.1, List.erase_cons_head]
    obtain ⟨hself, hother⟩ := Machine.holders_uncons ht (m.store.drop guard) hheld'
    exact h.books.drop hself hother
  | _ =>
    rw [Machine.holders_of_held_eq ht _ (by exact hheld.symm)]
    exact ⟨h.books.absent, h.books.present⟩

theorem Holding.books_moves {mishap : Mishap} {call : κ} {e : Event w ρ} {store : Store w}
    (h : Holding s mode m) (ht : m.threads[i]? = some t)
    (hm : t.Moves sys m.store mishap call e store t') :
    store.Books (Machine.mk store (m.threads.set i t')).holders := by
  cases hm with
  | begins hc hw =>
    rw [Machine.holders_of_held_eq ht _ (by simp only [Thread.held, hc, System.opening])]
    exact h.books
  | passes hc hp hf => exact h.books_passes ht hc hp hf
  | returns hc hr =>
    have hobeys := h.obeys i t _ ht hc
    rw [hr] at hobeys
    have hheld := (Thread.held_of_current hc).trans hobeys
    rw [Machine.holders_of_held_eq ht _ (by exact hheld.symm)]
    exact h.books
  | @panics a hc hd =>
    have hheld := Thread.held_of_current hc
    rcases (h.obeys i t a ht hc).held_cases with hnil | ⟨guard, hone⟩
    · rw [hnil] at hheld
      rw [Machine.holders_of_held_eq ht _ (by exact hheld.symm), hnil]
      exact h.books
    · rw [hone] at hheld
      have hheld' : t.held = guard :: (t.finish sys.stops a.call .panicked).held := hheld
      obtain ⟨hself, hother⟩ := Machine.holders_uncons ht (m.store.abandon [guard]) hheld'
      rw [hone]
      exact h.books.abandon hself hother

theorem Holding.moves (hcode : ∀ c, (sys.code c).Obeys s (mode c) [] []) {mishap : Mishap}
    {call : κ} {e : Event w ρ} {store : Store w} (h : Holding s mode m)
    (ht : m.threads[i]? = some t) (hm : t.Moves sys m.store mishap call e store t') :
    Holding s mode ⟨store, m.threads.set i t'⟩ := by
  refine ⟨h.books_moves ht hm, fun j u b hu hb => ?_⟩
  rcases (getElem?_set_thread ht).1 hu with ⟨rfl, rfl⟩ | ⟨hj, hu⟩
  · cases hm with
    | begins hc hw =>
      cases hb
      exact hcode _
    | passes hc hp hf =>
      cases hb
      rw [hp.call_eq]
      exact (h.obeys _ t _ ht hc).passes hp
    | returns hc hr => cases hb
    | panics hc hd => cases hb
  · exact h.obeys j u b hu hb

/-- In the runs of programs that obey, the locks count their holders. -/
theorem Run.holding (hcode : ∀ c, (sys.code c).Obeys s (mode c) [] []) {store : Store w}
    {calls : List (List κ)} (hstore : store.Books fun _ => 0)
    (h : Run sys (.start store calls) labels m) : Holding s mode m := by
  refine h.of_moves (fun _ m => Holding s mode m) ⟨?_, fun i t a ht hc => ?_⟩
    fun labels m mishap i t call e store' t' _ ih ht hm => ih.moves hcode ht hm
  · have hzero : (Machine.start store calls : Machine w κ ρ).holders = fun _ => 0 := by
      funext guard
      refine List.count_eq_zero.2 fun hmem => ?_
      obtain ⟨t, ht, hheld⟩ := List.mem_flatMap.1 hmem
      rw [Thread.held, Machine.current_start ht] at hheld
      exact List.not_mem_nil hheld
    rw [hzero]
    exact hstore
  · cases (Machine.current_start (List.mem_of_getElem? ht)).symm.trans hc

/-- A lock that a thread holds alone is held by no other thread. -/
theorem Holding.alone (h : Holding s mode m) {j l : Nat} {u : Thread w κ ρ} {other : Mode}
    (hij : i ≠ j) (ht : m.threads[i]? = some t) (hu : m.threads[j]? = some u)
    (hl : ⟨l, .exclusive⟩ ∈ t.held) : ⟨l, other⟩ ∉ u.held := by
  intro hl'
  have hx := List.count_pos_iff.2 hl
  have hy := List.count_pos_iff.2 hl'
  have hle := Machine.count_le_holders ht ⟨l, .exclusive⟩
  obtain ⟨lock, hlock⟩ : ∃ lock, m.store.locks[l]? = some lock := by
    cases hlock : m.store.locks[l]? with
    | some lock => exact ⟨lock, rfl⟩
    | none =>
      have := h.books.absent ⟨l, .exclusive⟩ hlock
      omega
  obtain ⟨hr, hw, ha⟩ := h.books.present l lock hlock
  have hone := Bool.toNat_le lock.writer
  cases other with
  | exclusive =>
    have := Machine.count_add_count_le_holders hij ht hu ⟨l, .exclusive⟩
    omega
  | shared =>
    have hle' := Machine.count_le_holders hu ⟨l, .shared⟩
    have hwriter : lock.writer = true := by
      cases hb : lock.writer with
      | true => rfl
      | false =>
        rw [hb, Bool.toNat_false] at hw
        omega
    have := ha hwriter
    omega

theorem Strategy.mem_guardOf {l word : Nat} (h : s.lockOfWord word = some l) (mode : Mode) :
    ⟨l, mode⟩ ∈ s.guardOf mode word := by
  simp [guardOf, h]

/-- A word that a thread uses alone, under its lock, is not changed by another thread. -/
theorem Holding.load?_after (h : Holding s mode m) {j : Nat} {u : Thread w κ ρ} (hij : i ≠ j)
    (ht : m.threads[i]? = some t) (hu : m.threads[j]? = some u) {a a' : Active w κ ρ}
    {e : Event w ρ} (hc : t.current = some a) (hp : a.Passes e a') {cell : Nat}
    (hheld : u.held = s.guardOf .exclusive cell) (hlock : s.lockOfWord cell ≠ none) :
    (e.after m.store).cells.load? cell = m.store.cells.load? cell := by
  have hobeys := h.obeys i t a ht hc
  cases hp with
  | @stored other value next old hr =>
    rw [hr] at hobeys
    obtain ⟨⟨hguard, hmode, -⟩, -⟩ := hobeys
    have hne : other ≠ cell := by
      rintro rfl
      obtain ⟨l, hl⟩ := Option.ne_none_iff_exists'.1 hlock
      have hmem := Strategy.mem_guardOf hl .exclusive
      refine h.alone hij ht hu (l := l) ?_ (hheld ▸ hmem)
      rw [Thread.held_of_current hc, hguard, hmode]
      exact hmem
    simp only [Event.after, Store.write, Cells.load?_store, hne, false_and, if_false]
  | @committed other transform next v hr =>
    rw [hr] at hobeys
    have hne : other ≠ cell := fun heq => hlock (heq ▸ hobeys.1.2)
    simp only [Event.after, Store.write, Cells.load?_store, hne, false_and, if_false]
  | _ => rfl

theorem Store.poisoned_changeLock {store : Store w} {i l : Nat} {change : Lock → Lock} {lock : Lock}
    (hchange : ∀ lock, (change lock).poisoned = lock.poisoned)
    (hl : (store.changeLock i change).locks[l]? = some lock) :
    ∃ lock', store.locks[l]? = some lock' ∧ lock'.poisoned = lock.poisoned := by
  simp only [Store.changeLock, Array.getElem?_modify] at hl
  split at hl
  · obtain ⟨lock', hl', rfl⟩ := Option.map_eq_some_iff.1 hl
    exact ⟨lock', hl', (hchange lock').symm⟩
  · exact ⟨lock, hl, rfl⟩

/-- Taking locks and giving them back poisons none. -/
theorem Event.poisoned_after {store : Store w} (e : Event w ρ) {l : Nat} {lock : Lock}
    (hl : (e.after store).locks[l]? = some lock) :
    ∃ lock', store.locks[l]? = some lock' ∧ lock'.poisoned = lock.poisoned := by
  cases e with
  | acquired guard poisoned =>
    exact Store.poisoned_changeLock (fun _ => by cases guard.mode <;> rfl) hl
  | released guard => exact Store.poisoned_changeLock (fun _ => by cases guard.mode <;> rfl) hl
  | _ => exact ⟨lock, hl, rfl⟩

/-- A lock that is poisoned tells of a panic. -/
theorem Run.panicked_of_poisoned (h : Run sys m₀ labels m)
    (h₀ : ∀ (l : Nat) (lock : Lock), m₀.store.locks[l]? = some lock → lock.poisoned = false) :
    ∀ (l : Nat) (lock : Lock), m.store.locks[l]? = some lock → lock.poisoned = true →
      ∃ label ∈ labels, label.event = .panicked := by
  refine h.of_moves (fun labels m => ∀ (l : Nat) (lock : Lock), m.store.locks[l]? = some lock →
    lock.poisoned = true → ∃ label ∈ labels, label.event = .panicked) ?_ ?_
  · intro l lock hl hp
    rw [h₀ l lock hl] at hp
    cases hp
  · intro labels m mishap i t call e store t' _ ih _ hm l lock hl hp
    have hold : ∀ lock', m.store.locks[l]? = some lock' → lock'.poisoned = lock.poisoned →
        ∃ label ∈ labels ++ [⟨i, t.finished.size, call, e⟩], label.event = .panicked := by
      intro lock' hl' heq
      obtain ⟨label, hmem, hevent⟩ := ih l lock' hl' (heq.trans hp)
      exact ⟨label, List.mem_append_left _ hmem, hevent⟩
    cases hm with
    | begins => exact hold lock hl rfl
    | passes _ _ _ =>
      obtain ⟨lock', hl', heq⟩ := Event.poisoned_after e hl
      exact hold lock' hl' heq
    | returns => exact hold lock hl rfl
    | panics => exact ⟨_, List.mem_append_right _ (List.mem_singleton_self _), rfl⟩

/-- A lock is found poisoned only after a panic. -/
theorem Run.panicked_of_acquired (h : Run sys m₀ labels m)
    (h₀ : ∀ (l : Nat) (lock : Lock), m₀.store.locks[l]? = some lock → lock.poisoned = false)
    {l : Label w κ ρ} {guard : Guard} (hl : l ∈ labels) (he : l.event = .acquired guard true) :
    ∃ l ∈ labels, l.event = .panicked := by
  obtain ⟨pre, post, rfl⟩ := List.append_of_mem hl
  obtain ⟨m₁, mishap, t, store', t', hr, ht, hm, -⟩ := h.split rfl
  have hfits := hm.fits
  rw [he] at hfits
  obtain ⟨lock, hlock, -, hpoisoned⟩ := hfits
  obtain ⟨label, hmem, hevent⟩ := hr.panicked_of_poisoned h₀ _ _ hlock hpoisoned
  exact ⟨label, List.mem_append_left _ hmem, hevent⟩

end Runs

end SharedBits
