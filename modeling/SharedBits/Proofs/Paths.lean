import SharedBits.Proofs.History
import SharedBits.Proofs.Traces

/-!
# The events of the calls of a bitset

What holds of the calls of every strategy, at each point of each run: a call writes at most once, and
not at all if it changes nothing (`Run.writes_le`), and a call whose index is out of range does nothing
but return its refusal (`Run.event_of_refused`).
-/

namespace SharedBits

variable {w : Width} {ρ : Type}

/-- Whether an event overwrites a word. -/
def Event.isWrite : Event w ρ → Bool
  | stored _ _ _ => true
  | committed _ _ _ => true
  | _ => false

theorem Event.isWrite_of_isAttempt {e : Event w ρ} (h : e.isAttempt = true) : e.isWrite = false := by
  cases e <;> simp_all [isAttempt, isWrite]

/-- The index that a call addresses. -/
def Call.index? : Call → Option Nat
  | .get i => some i
  | .update _ i => some i
  | .count => none

/-- The refusal of an index that is out of range. -/
def refusalOf (index capacity : Nat) : Reply := .error (.indexOutOfRange (min index maxIndex) capacity)

theorem Label.change?_eq_none_or (l : Label w Call Reply) :
    l.change? = none ∨ (∃ op k, l.call = .update op k) ∧ l.event.isWrite = true := by
  obtain ⟨i, n, call, event⟩ := l
  cases call <;> cases event <;> simp [Label.change?, Event.isWrite]

/-- On its way a call writes what it makes, and no more. -/
theorem Active.Follows.writes_le {κ : Type} {a b : Active w κ ρ} {es : List (Event w ρ)}
    (h : a.Follows es b) : ∀ {change known}, a.rest.Makes change known →
      es.countP Event.isWrite ≤ change.toList.length := by
  induction h with
  | nil => exact fun _ => Nat.zero_le _
  | @cons a a' b e es hp hf ih =>
    intro change known hmakes
    cases hp with
    | loaded v hr =>
      rw [hr] at hmakes
      exact ih (hmakes v)
    | stored old hr =>
      rw [hr] at hmakes
      obtain ⟨⟨op, i, v, rfl, -⟩, hnext⟩ := hmakes
      have hle := ih hnext
      rw [List.countP_cons_of_pos rfl]
      exact Nat.succ_le_succ hle
    | observed v hr hs => exact ih hmakes
    | @committed _ _ _ v hr hs =>
      rw [hr] at hmakes
      obtain ⟨⟨op, i, rfl, -⟩, hnext⟩ := hmakes
      have hle := ih (hnext v)
      rw [List.countP_cons_of_pos rfl]
      exact Nat.succ_le_succ hle
    | missed actual hr hs => exact ih hmakes
    | acquired poisoned hr =>
      rw [hr] at hmakes
      exact ih (hmakes poisoned)
    | released hr =>
      rw [hr] at hmakes
      exact ih hmakes
    | computed hr =>
      rw [hr] at hmakes
      exact ih hmakes

/-- Nobody writes while another holds the lock of all words. -/
theorem Holding.not_isWrite {κ : Type} {s : Strategy} {mode : κ → Mode} {sys : System w κ ρ}
    {m : Machine w κ ρ} {i j : Nat} {t u t' : Thread w κ ρ} {other reading : Mode} {mishap : Mishap}
    {call : κ} {e : Event w ρ} {store : Store w} (h : Holding s mode m)
    (hd : s.discipline = .locked .whole reading) (hij : i ≠ j) (ht : m.threads[i]? = some t)
    (hu : m.threads[j]? = some u)
    (hm : t.Moves sys m.store mishap call e store t') (hheld : ⟨0, other⟩ ∈ u.held) :
    e.isWrite = false := by
  cases hm with
  | @passes a a' _ hc hp hf =>
    have hobeys := h.obeys i t a ht hc
    cases hp with
    | @stored cell value next old hr =>
      rw [hr] at hobeys
      obtain ⟨⟨hguard, hmode, -⟩, -⟩ := hobeys
      rw [hmode, Strategy.guardOf_of_locked hd] at hguard
      refine absurd hheld (h.alone hij ht hu ?_)
      rw [Thread.held_of_current hc, hguard]
      exact List.mem_singleton_self _
    | committed hr hs =>
      rw [hr] at hobeys
      exact absurd hobeys.1.2 (Strategy.lockOfWord_ne_none hd _)
    | _ => rfl
  | _ => rfl

namespace Strategy

variable (s : Strategy)

theorem code_of_refused {call : Call} {k capacity : Nat} (hk : call.index? = some k)
    (h : capacity ≤ k) : s.code w capacity call = .ret (refusalOf k capacity) := by
  have hn : ¬ k < capacity := Nat.not_lt_of_le h
  cases call with
  | get i =>
    cases hk
    simp only [code, Strategy.get, requireIndex, if_neg hn]
    rfl
  | update op i =>
    cases hk
    simp only [code, Strategy.update, requireIndex, if_neg hn]
    rfl
  | count => cases hk

end Strategy

section Runs

variable {b : BitSet w} {stops : Ending Reply → Bool} {calls : List (List Call)} {store : Store w}
  {labels : List (Label w Call Reply)} {m : Machine w Call Reply} {l : Label w Call Reply}

/-- A call writes at most once, and not at all if it changes nothing. -/
theorem Run.writes_le (h : Run (b.callers stops) (.start store calls) labels m) (hl : l ∈ labels) :
    (eventsOf labels l.thread l.number).countP Event.isWrite
      ≤ (l.call.change b.capacity).toList.length := by
  obtain ⟨es, a, hf, hes⟩ := h.events_of_label hl
  have hle := hf.writes_le (b.strategy.code_makes b.capacity l.call)
  rcases hes with heq | ⟨r, -, heq⟩ | ⟨-, heq⟩ <;> rw [heq, List.countP_cons_of_neg (by simp [Event.isWrite])]
  · exact hle
  · simpa [Event.isWrite] using hle
  · simpa [Event.isWrite] using hle

theorem Run.writes_le_one (h : Run (b.callers stops) (.start store calls) labels m)
    (hl : l ∈ labels) : (eventsOf labels l.thread l.number).countP Event.isWrite ≤ 1 := by
  refine (h.writes_le hl).trans ?_
  cases l.call.change b.capacity <;> simp

/-- A call that is out of range does nothing but return its refusal. -/
theorem Run.event_of_refused (h : Run (b.callers stops) (.start store calls) labels m)
    (hl : l ∈ labels) {k : Nat} (hk : l.call.index? = some k) (hle : b.capacity ≤ k) :
    l.event = .began ∨ l.event = .returned (refusalOf k b.capacity) := by
  obtain ⟨es, a, hf, hes⟩ := h.events_of_label hl
  have hcode : ((b.callers stops).opening l.call).rest = .ret (refusalOf k b.capacity) :=
    b.strategy.code_of_refused hk hle
  obtain ⟨rfl, rfl⟩ := hf.of_ret hcode
  have hmem : l.event ∈ eventsOf labels l.thread l.number :=
    List.mem_map_of_mem (mem_labelsOf.2 ⟨hl, rfl, rfl⟩)
  rcases hes with heq | ⟨r, hr, heq⟩ | ⟨hr, -⟩
  · rw [heq] at hmem
    exact .inl (by simpa using hmem)
  · rw [hcode] at hr
    cases hr
    simpa [heq] using hmem
  · exact absurd hcode (hr _)

end Runs

end SharedBits
