import SharedBits.BitSet.Threads
import SharedBits.Proofs.Holding
import SharedBits.Proofs.Packing

/-!
# The history of a run

The changes of a run, in the order in which they were written, are its `history`. A program makes a
change if what it writes is the change of the word that it has read, and that word is still there
(`Prog.Makes`, `Active.IsSound`): under a lock because nobody else may write it, in an optimistic
update because the swap finds it there, whatever was stored and taken back in between. So in every run
of a strategy that loses no update, the words are those of the plain bits after its history
(`Run.cells_eq`), and so is each word that is read (`Run.load_eq`).
-/

namespace SharedBits

variable {w : Width} {α β : Type}

/-- Threads that make calls of a bitset, and stop after some endings. -/
def BitSet.callers (b : BitSet w) (stops : Ending Reply → Bool) : System w Call Reply where
  code := b.strategy.code w b.capacity
  stops := stops

/-- The change that a call makes if it is not refused. -/
def Call.change (capacity : Nat) : Call → Option (BitOp × Nat)
  | .update op i => if i < capacity then some (op, i) else none
  | _ => none

/-- The change that a step makes, if it writes. -/
def Label.change? (l : Label w Call Reply) : Option (BitOp × Nat) :=
  match l.call, l.event with
  | .update op i, .stored _ _ _ => some (op, i)
  | .update op i, .committed _ _ _ => some (op, i)
  | _, _ => none

/-- The changes of a run, in the order in which they were written. -/
def history (labels : List (Label w Call Reply)) : List (BitOp × Nat) :=
  labels.filterMap Label.change?

/-- Clear bits after the changes of a run. -/
def bitsAfter (capacity : Nat) (labels : List (Label w Call Reply)) : Plain :=
  (Plain.clear capacity).updateAll (history labels)

/-- These bits after the changes of a run. -/
def Plain.after (p : Plain) (labels : List (Label w Call Reply)) : Plain :=
  p.updateAll (history labels)

/-! ## The bits -/

namespace Plain

theorem updateAll_snoc (p : Plain) (us : List (BitOp × Nat)) (op : BitOp) (i : Nat) :
    p.updateAll (us ++ [(op, i)]) = (p.updateAll us).update op i := by
  simp [updateAll]

theorem updateAll_append (p : Plain) (us us' : List (BitOp × Nat)) :
    p.updateAll (us ++ us') = (p.updateAll us).updateAll us' := by
  simp only [updateAll, List.foldl_append]

theorem capacity_updateAll : ∀ (us : List (BitOp × Nat)) (p : Plain),
    (p.updateAll us).capacity = p.capacity
  | [], _ => rfl
  | (op, i) :: us, p => (capacity_updateAll us (p.update op i)).trans (p.capacity_update op i)

theorem store_change {p : Plain} {i : Nat} (hi : i < p.capacity) (op : BitOp) {v : Word w}
    (hv : (p.packed w).load? (Address.locate w i).word = some v) :
    (p.packed w).store (Address.locate w i).word (op.apply v ((Address.locate w i).mask w))
      = (p.update op i).packed w := by
  obtain rfl : p.word w (Address.locate w i).word = v :=
    Option.some.inj ((p.load?_locate hi).symm.trans hv)
  exact (p.packed_update op hi).symm

end Plain

section Labels

variable {p : Plain} {capacity : Nat} {l : Label w Call Reply} {call : Call}
  {labels : List (Label w Call Reply)}

theorem history_append (labels labels' : List (Label w Call Reply)) :
    history (labels ++ labels') = history labels ++ history labels' := List.filterMap_append

theorem history_subset {labels' : List (Label w Call Reply)} (h : labels.Sublist labels') :
    history labels ⊆ history labels' := (h.filterMap _).subset

@[simp] theorem Plain.capacity_after : (p.after labels).capacity = p.capacity :=
  capacity_updateAll _ p

theorem Plain.after_append (p : Plain) (labels labels' : List (Label w Call Reply)) :
    p.after (labels ++ labels') = (p.after labels).after labels' := by
  simp only [after, history_append, updateAll_append]

theorem Plain.after_snoc_of_none (h : l.change? = none) :
    p.after (labels ++ [l]) = p.after labels := by
  simp [after, history, h]

theorem Plain.after_snoc_of_some {op : BitOp} {k : Nat} (h : l.change? = some (op, k)) :
    p.after (labels ++ [l]) = (p.after labels).update op k := by
  simp [after, history, h, updateAll_snoc]

theorem Call.change_eq_some {op : BitOp} {k : Nat} (h : call.change capacity = some (op, k)) :
    call = .update op k ∧ k < capacity := by
  cases call with
  | update op' k' =>
    simp only [change] at h
    split at h
    · cases h
      exact ⟨rfl, ‹_›⟩
    · cases h
  | get i => cases h
  | count => cases h

end Labels

/-! ## Programs that make one change -/

namespace Prog

/-- The program writes at most once, and what it writes is this change of the word that it has read or
replaces: `known` is the cell that it has read last, and the word that was there. -/
def Makes : Prog w α → (change : Option (BitOp × Nat)) → (known : Option (Nat × Word w)) → Prop
  | ret _, _, _ => True
  | read cell next, change, _ => ∀ v, (next v).Makes change (some (cell, v))
  | write cell value next, change, known =>
    (∃ op i v, change = some (op, i) ∧ cell = (Address.locate w i).word ∧ known = some (cell, v)
      ∧ value = op.apply v ((Address.locate w i).mask w)) ∧ next.Makes none none
  | modify cell transform next, change, _ =>
    (∃ op i, change = some (op, i) ∧ cell = (Address.locate w i).word
      ∧ ∀ v, transform v = op.apply v ((Address.locate w i).mask w))
      ∧ ∀ v, (next v).Makes none none
  | acquire _ next, change, _ => ∀ b, (next b).Makes change none
  | release _ next, change, _ => next.Makes change none
  | compute next, change, known => next.Makes change known

variable {change : Option (BitOp × Nat)}

/-- A program that writes nothing may be expected to make any change. -/
theorem Makes.of_none {p : Prog w α} {known known' : Option (Nat × Word w)}
    (h : p.Makes none known) : p.Makes change known' := by
  induction p generalizing known known' with
  | ret a => trivial
  | read cell next ih => exact fun v => ih v (h v)
  | write cell value next ih =>
    obtain ⟨⟨_, _, _, hchange, _⟩, _⟩ := h
    cases hchange
  | modify cell transform next ih =>
    obtain ⟨⟨_, _, hchange, _⟩, _⟩ := h
    cases hchange
  | acquire guard next ih => exact fun b => ih b (h b)
  | release guard next ih => exact ih h
  | compute next ih => exact ih h

theorem Makes.bind {f : α → Prog w β} {p : Prog w α} {known : Option (Nat × Word w)}
    (h : p.Makes change known) (hf : ∀ a, (f a).Makes none none) :
    (p.bind f).Makes change known := by
  induction p generalizing change known with
  | ret a => exact (hf a).of_none
  | read cell next ih => exact fun v => ih v (h v)
  | write cell value next ih => exact ⟨h.1, ih h.2⟩
  | modify cell transform next ih => exact ⟨h.1, fun v => ih v (h.2 v)⟩
  | acquire guard next ih => exact fun b => ih b (h b)
  | release guard next ih => exact ih h
  | compute next ih => exact ih h

theorem Makes.guarded {guard : Guard} {body : Prog w α} (h : body.Makes change none) :
    (guarded guard body).Makes change none := by
  intro poisoned
  cases poisoned with
  | true => trivial
  | false => exact h.bind fun _ => trivial

theorem makes_readBit (a : Address) : (readBit (w := w) a).Makes none none := fun _ => trivial

theorem makes_readOnes (cell : Nat) : (readOnes (w := w) cell).Makes none none := fun _ => trivial

theorem makes_changeBit (i : Nat) (op : BitOp) :
    (changeBit (w := w) (Address.locate w i) op).Makes (some (op, i)) none :=
  fun v => ⟨⟨op, i, v, rfl, rfl, rfl, rfl⟩, trivial⟩

theorem makes_modifyBit (i : Nat) (op : BitOp) :
    (modifyBit (w := w) (Address.locate w i) op).Makes (some (op, i)) none :=
  ⟨⟨op, i, rfl, rfl, fun _ => rfl⟩, fun _ => trivial⟩

theorem makes_sum {each : Nat → Prog w Nat} (h : ∀ i, (each i).Makes none none) :
    ∀ n first total, (sum each first n total).Makes none none
  | 0, _, _ => trivial
  | n + 1, first, total => (h first).bind fun k => makes_sum h n (first + 1) (total + k)

theorem makes_sumUntilRefused {each : Nat → Prog w (Except Error Nat)}
    (h : ∀ i, (each i).Makes none none) :
    ∀ n first total, (sumUntilRefused each first n total).Makes none none
  | 0, _, _ => trivial
  | n + 1, first, total => (h first).bind fun r => by
    cases r with
    | error _ => trivial
    | ok k => exact makes_sumUntilRefused h n (first + 1) (total + k)

end Prog

namespace Strategy

open Prog

variable (s : Strategy)

theorem getAt_makes (a : Address) : (s.getAt w a).Makes none none := by
  rcases hd : s.discipline with ⟨span, reading⟩ | _ | _ <;> simp only [getAt, hd]
  · exact (makes_readBit a).guarded
  · exact (makes_readBit a).bind fun _ => trivial
  · exact (makes_readBit a).bind fun _ => trivial

theorem get_makes (capacity i : Nat) : (s.get w capacity i).Makes none none := by
  unfold Strategy.get
  cases requireIndex i capacity with
  | error _ => trivial
  | ok _ => exact s.getAt_makes _

theorem updateAt_makes (i : Nat) (op : BitOp) :
    (s.updateAt w (Address.locate w i) op).Makes (some (op, i)) none := by
  rcases hd : s.discipline with ⟨span, reading⟩ | _ | _ <;> simp only [updateAt, hd]
  · exact (makes_changeBit i op).guarded
  · exact (makes_modifyBit i op).bind fun _ => trivial
  · exact (makes_changeBit i op).bind fun _ => trivial

theorem count_makes (capacity : Nat) : (s.count w capacity).Makes none none := by
  rcases hd : s.discipline with ⟨_ | _, reading⟩ | _ | _ <;> simp only [count, hd]
  · exact (makes_sum makes_readOnes _ _ _).guarded
  · exact makes_sumUntilRefused (fun k => (makes_readOnes k).guarded) _ _ _
  · exact (makes_sum makes_readOnes _ _ _).bind fun _ => trivial
  · exact makes_sumUntilRefused (fun i => (s.get_makes capacity i).bind fun r => by
      cases r <;> trivial) _ _ _

/-- The calls make their own change and no other, and that once. -/
theorem code_makes (capacity : Nat) :
    ∀ call : Call, (s.code w capacity call).Makes (call.change capacity) none
  | .get i => (s.get_makes capacity i).bind fun _ => trivial
  | .update op i => by
    refine Makes.bind ?_ fun _ => trivial
    by_cases hi : i < capacity
    · simp only [Strategy.update, requireIndex_eq_ok_iff.2 hi, Call.change, if_pos hi]
      exact s.updateAt_makes i op
    · simp only [Strategy.update, requireIndex, if_neg hi]
      trivial
  | .count => (s.count_makes capacity).bind fun _ => trivial

end Strategy

/-! ## Runs -/

/-- What is left of a call makes its change, and if it has one, `P` holds of the word that it has read. -/
def Active.Knows (P : Nat → Word w → Prop) (capacity : Nat) (a : Active w Call Reply) : Prop :=
  ∃ known, a.rest.Makes (a.call.change capacity) known
    ∧ (a.call.change capacity ≠ none → ∀ cell v, known = some (cell, v) → P cell v)

/-- The word that a changing call has read is still there. -/
def Active.IsFresh (capacity : Nat) (cells : Cells w) (a : Active w Call Reply) : Prop :=
  a.Knows (fun cell v => cells.load? cell = some v) capacity

/-- What is left of a call makes its change, and if it has one, the word that it has read is still
there, under a lock that the call holds alone. -/
def Active.IsSound (s : Strategy) (capacity : Nat) (cells : Cells w) (a : Active w Call Reply) :
    Prop :=
  ∃ known, a.rest.Makes (a.call.change capacity) known
    ∧ (a.call.change capacity ≠ none → ∀ cell v, known = some (cell, v) →
      cells.load? cell = some v ∧ a.held = s.guardOf .exclusive cell ∧ s.lockOfWord cell ≠ none)

/-- The words are those of the bits `p` after the history, and what is left of every call is sound. -/
structure Recorded (s : Strategy) (p : Plain) (labels : List (Label w Call Reply))
    (m : Machine w Call Reply) : Prop where
  cells : m.store.cells = (p.after labels).packed w
  sound : ∀ (i : Nat) (t : Thread w Call Reply) (a : Active w Call Reply), m.threads[i]? = some t →
    t.current = some a → a.IsSound s p.capacity m.store.cells

section Runs

variable {s : Strategy} {p : Plain} {capacity i n : Nat} {labels : List (Label w Call Reply)}
  {a a' : Active w Call Reply} {e : Event w Reply} {store : Store w}

theorem Strategy.modeOf_of_change {call : Call} (h : call.change capacity ≠ none) :
    s.modeOf call = .exclusive := by
  cases call with
  | update => rfl
  | get => exact absurd rfl h
  | count => exact absurd rfl h

section Knows

variable {P P' : Nat → Word w → Prop}

theorem Active.Knows.imp (h : a.Knows P capacity)
    (himp : a.call.change capacity ≠ none → ∀ cell v, P cell v → P' cell v) : a.Knows P' capacity := by
  obtain ⟨known, hmakes, hknown⟩ := h
  exact ⟨known, hmakes, fun hchange cell v heq => himp hchange cell v (hknown hchange cell v heq)⟩

theorem System.opening_knows {sys : System w Call Reply} (hcode : sys.code = s.code w capacity)
    (call : Call) : (sys.opening call).Knows P capacity := by
  refine ⟨none, ?_, fun _ _ _ heq => by cases heq⟩
  simp only [System.opening, hcode]
  exact s.code_makes capacity call

/-- A call knows what it has just loaded, and what it knew before as long as it does nothing else. -/
theorem Active.Knows.passes (h : a.Knows P capacity) (hp : a.Passes e a')
    (hloaded : ∀ cell next v, a.rest = .read cell next → e = .loaded cell v →
      a.call.change capacity ≠ none → P' cell v)
    (hkept : a'.held = a.held → (∀ store : Store w, e.after store = store) →
      ∀ cell v, P cell v → P' cell v) :
    a'.Knows P' capacity := by
  obtain ⟨known, hmakes, hknown⟩ := h
  cases hp with
  | @loaded cell next v hr =>
    rw [hr] at hmakes
    refine ⟨some (cell, v), hmakes v, fun hchange cell' v' heq => ?_⟩
    cases heq
    exact hloaded cell next v hr rfl hchange
  | stored old hr =>
    rw [hr] at hmakes
    exact ⟨none, hmakes.2.of_none, fun _ _ _ heq => by cases heq⟩
  | observed v hr hs =>
    exact ⟨known, hmakes, fun hchange cell v heq =>
      hkept rfl (fun _ => rfl) cell v (hknown hchange cell v heq)⟩
  | @committed _ _ _ v hr hs =>
    rw [hr] at hmakes
    exact ⟨none, (hmakes.2 v).of_none, fun _ _ _ heq => by cases heq⟩
  | missed actual hr hs =>
    exact ⟨known, hmakes, fun hchange cell v heq =>
      hkept rfl (fun _ => rfl) cell v (hknown hchange cell v heq)⟩
  | acquired poisoned hr =>
    rw [hr] at hmakes
    exact ⟨none, hmakes poisoned, fun _ _ _ heq => by cases heq⟩
  | released hr =>
    rw [hr] at hmakes
    exact ⟨none, hmakes, fun _ _ _ heq => by cases heq⟩
  | computed hr =>
    rw [hr] at hmakes
    exact ⟨known, hmakes, fun hchange cell v heq =>
      hkept rfl (fun _ => rfl) cell v (hknown hchange cell v heq)⟩

theorem Active.IsSound.isFresh {cells : Cells w} (h : a.IsSound s capacity cells) :
    a.IsFresh capacity cells :=
  Active.Knows.imp h fun _ _ _ hknown => hknown.1

theorem Active.IsSound.passes (h : a.IsSound s capacity store.cells)
    (hobeys : a.rest.Obeys s (s.modeOf a.call) a.held []) (hp : a.Passes e a')
    (hf : e.Fits store) : a'.IsSound s capacity (e.after store).cells := by
  refine Active.Knows.passes h hp (fun cell next v hr he hchange => ?_) fun hheld hafter cell v hknown => ?_
  · subst he
    rw [hr] at hobeys
    obtain ⟨⟨hheld, hlock⟩, -⟩ := hobeys
    rw [Strategy.modeOf_of_change hchange] at hheld hlock
    have hsame : a'.held = a.held := by cases hp; rfl
    exact ⟨hf, hsame.trans hheld, hlock rfl⟩
  · rwa [hheld, hafter]

theorem Active.IsFresh.passes (h : a.IsFresh capacity store.cells) (hp : a.Passes e a')
    (hf : e.Fits store) : a'.IsFresh capacity (e.after store).cells := by
  refine Active.Knows.passes h hp (fun cell next v _ he _ => ?_) fun _ hafter cell v hknown => ?_
  · subst he
    exact hf
  · rwa [hafter]

end Knows

/-- What a call writes is the next change of the history, if the word that it has read is there. -/
theorem Active.IsFresh.cells_after (h : a.IsFresh p.capacity store.cells) (hp : a.Passes e a')
    (hf : e.Fits store) (hcells : store.cells = (p.after labels).packed w) :
    (e.after store).cells = (p.after (labels ++ [⟨i, n, a.call, e⟩])).packed w := by
  obtain ⟨known, hmakes, hknown⟩ := h
  have hstore : ∀ {op : BitOp} {k : Nat} {v : Word w}, k < p.capacity →
      store.cells.load? (Address.locate w k).word = some v →
      store.cells.store (Address.locate w k).word (op.apply v ((Address.locate w k).mask w))
        = ((p.after labels).update op k).packed w := by
    intro op k v hk hv
    rw [hcells] at hv ⊢
    exact Plain.store_change (by rwa [Plain.capacity_after]) op hv
  have hquiet : Label.change? ⟨i, n, a.call, e⟩ = none → (e.after store).cells = store.cells →
      (e.after store).cells = (p.after (labels ++ [⟨i, n, a.call, e⟩])).packed w := by
    intro hnone heq
    rw [heq, hcells, Plain.after_snoc_of_none hnone]
  cases hp with
  | @stored cell value next old hr =>
    rw [hr] at hmakes
    obtain ⟨⟨op, k, v, hchange, rfl, hk, rfl⟩, -⟩ := hmakes
    obtain ⟨hcall, hlt⟩ := Call.change_eq_some hchange
    have hv := hknown (by simp [hchange]) _ _ hk
    rw [Plain.after_snoc_of_some (by rw [hcall]; rfl)]
    exact hstore hlt hv
  | @committed cell transform next v hr hs =>
    rw [hr] at hmakes
    obtain ⟨⟨op, k, hchange, rfl, htransform⟩, -⟩ := hmakes
    obtain ⟨hcall, hlt⟩ := Call.change_eq_some hchange
    rw [Plain.after_snoc_of_some (by rw [hcall]; rfl), htransform]
    exact hstore hlt hf
  | _ => exact hquiet (by cases a.call <;> rfl) rfl

variable {m : Machine w Call Reply} {sys : System w Call Reply} {t t' : Thread w Call Reply}

/-- A move of thread `i`, put together from what it does to the words, to its own call and to the
calls of the others. -/
theorem Recorded.set (h : Recorded s p labels m) (ht : m.threads[i]? = some t)
    {labels' : List (Label w Call Reply)} {store' : Store w}
    (hcells : store'.cells = (p.after labels').packed w)
    (hself : ∀ b, t'.current = some b → b.IsSound s p.capacity store'.cells)
    (hother : ∀ (j : Nat) (u : Thread w Call Reply) (b : Active w Call Reply), j ≠ i →
      m.threads[j]? = some u → u.current = some b → b.IsSound s p.capacity m.store.cells →
      b.IsSound s p.capacity store'.cells) :
    Recorded s p labels' ⟨store', m.threads.set i t'⟩ := by
  refine ⟨hcells, fun j u b hu hb => ?_⟩
  rcases (getElem?_set_thread ht).1 hu with ⟨rfl, rfl⟩ | ⟨hj, hu⟩
  · exact hself b hb
  · exact hother j u b hj hu hb (h.sound j u b hu hb)

/-- A move that changes no word and is no event of a program. -/
theorem Recorded.set_quiet {call : Call} (h : Recorded s p labels m)
    (ht : m.threads[i]? = some t) {store' : Store w} (hcells : store'.cells = m.store.cells)
    (he : Label.change? ⟨i, n, call, e⟩ = none)
    (hself : ∀ b, t'.current = some b → b.IsSound s p.capacity store'.cells) :
    Recorded s p (labels ++ [⟨i, n, call, e⟩]) ⟨store', m.threads.set i t'⟩ := by
  refine h.set ht ?_ hself fun j u b _ _ _ hb => ?_
  · rw [hcells, h.cells, Plain.after_snoc_of_none he]
  · rwa [hcells]

theorem Recorded.moves {mishap : Mishap} {call : Call} {store' : Store w}
    (hcode : sys.code = s.code w p.capacity) (hh : Holding s s.modeOf m)
    (h : Recorded s p labels m) (ht : m.threads[i]? = some t)
    (hm : t.Moves sys m.store mishap call e store' t') :
    Recorded s p (labels ++ [⟨i, t.finished.size, call, e⟩])
      ⟨store', m.threads.set i t'⟩ := by
  cases hm with
  | begins hc hw =>
    refine h.set_quiet ht rfl (by cases call <;> rfl) fun b hb => ?_
    cases hb
    exact System.opening_knows hcode _
  | @passes a a' event hc hp hf =>
    have hsound := h.sound i t a ht hc
    refine h.set ht (hsound.isFresh.cells_after hp hf h.cells) (fun b hb => ?_) fun j u b hj hu hb hb' => ?_
    · cases hb
      exact hsound.passes (hh.obeys _ t a ht hc) hp hf
    · obtain ⟨known, hmakes, hknown⟩ := hb'
      refine ⟨known, hmakes, fun hchange cell v heq => ?_⟩
      obtain ⟨hv, hheld, hlock⟩ := hknown hchange cell v heq
      have hu' := (Thread.held_of_current hb).trans hheld
      exact ⟨(hh.load?_after (Ne.symm hj) ht hu hc hp hu' hlock).trans hv, hheld, hlock⟩
  | @returns a r hc hr =>
    exact h.set_quiet ht rfl (by cases a.call <;> rfl) fun b hb => by cases hb
  | @panics a hc hd =>
    exact h.set_quiet ht (m.store.cells_abandon a.held) (by cases a.call <;> rfl)
      fun b hb => by cases hb

theorem Store.books_of_isIdle
    (h : ∀ (l : Nat) (lock : Lock), store.locks[l]? = some lock → lock.isIdle = true) :
    store.Books fun _ => 0 := by
  refine ⟨fun _ _ => rfl, fun l lock hl => ?_⟩
  have hidle : lock.writer = false ∧ lock.readers = 0 := by simpa [Lock.isIdle] using h l lock hl
  exact ⟨hidle.2, by rw [hidle.1]; rfl, fun hw => by simp [hidle.1] at hw⟩

variable {b : BitSet w} {stops : Ending Reply → Bool} {calls : List (List Call)}

/-- Callers of a strategy that loses no update, on words that hold the bits `p`, with nobody at the
locks. -/
theorem Run.recorded (hs : s.isSynchronized = true) (hcode : sys.code = s.code w p.capacity)
    (hbooks : store.Books fun _ => 0) (hcells : store.cells = p.packed w)
    (h : Run sys (.start store calls) labels m) :
    Holding s s.modeOf m ∧ Recorded s p labels m := by
  have hholding : ∀ {labels m}, Run sys (.start store calls) labels m → Holding s s.modeOf m :=
    fun h => h.holding (by rw [hcode]; exact s.code_obeys hs p.capacity) hbooks
  refine ⟨hholding h, h.of_moves (Recorded s p) ⟨hcells, fun i t a ht hc => ?_⟩
    fun labels m mishap i t call e store' t' hr ih ht hm => ih.moves hcode (hholding hr) ht hm⟩
  cases (Machine.current_start (List.mem_of_getElem? ht)).symm.trans hc

theorem BitSet.eq_of_create (hb : BitSet.create s w capacity = .ok b) :
    b = ⟨s, capacity, Store.fresh (wordsFor w capacity) (s.locksFor (wordsFor w capacity))⟩ := by
  unfold BitSet.create at hb
  split at hb
  · cases hb
  · exact (Except.ok.inj hb).symm

theorem Store.getElem?_locks_fresh {words locks l : Nat} {lock : Lock}
    (hl : (Store.fresh words locks : Store w).locks[l]? = some lock) : lock = {} := by
  simp only [Store.fresh, Array.getElem?_replicate] at hl
  split at hl
  · exact (Option.some.inj hl).symm
  · cases hl

/-- The callers of a new bitset. -/
theorem Run.recorded_callers (hs : s.isSynchronized = true)
    (hb : BitSet.create s w capacity = .ok b)
    (h : Run (b.callers stops) (.start b.store calls) labels m) :
    Holding s s.modeOf m ∧ Recorded s (.clear capacity) labels m := by
  obtain rfl := BitSet.eq_of_create hb
  refine h.recorded hs ?_ (Store.books_of_isIdle fun l lock hl => ?_) (Plain.packed_clear capacity).symm
  · simp only [BitSet.callers, Plain.capacity_clear]
  · rw [Store.getElem?_locks_fresh hl]
    rfl

/-- The locks of a new bitset count their holders, however its callers run. -/
theorem Run.holding_callers (hs : s.isSynchronized = true)
    (hb : BitSet.create s w capacity = .ok b)
    (h : Run (b.callers stops) (.start b.store calls) labels m) : Holding s s.modeOf m :=
  (h.recorded_callers hs hb).1

theorem Run.cells_eq (hs : s.isSynchronized = true) (hb : BitSet.create s w capacity = .ok b)
    (h : Run (b.callers stops) (.start b.store calls) labels m) :
    m.store.cells = (bitsAfter capacity labels).packed w :=
  (h.recorded_callers hs hb).2.cells

/-- Whatever a run reads is the word of the history up to then. -/
theorem Run.load_eq (hs : s.isSynchronized = true) (hb : BitSet.create s w capacity = .ok b)
    (h : Run (b.callers stops) (.start b.store calls) labels m)
    {pre post : List (Label w Call Reply)} {call : Call} {cell : Nat} {v : Word w}
    (hl : labels = pre ++ ⟨i, n, call, .loaded cell v⟩ :: post) :
    ((bitsAfter capacity pre).packed w).load? cell = some v := by
  obtain ⟨m₁, mishap, t, store', t', hr, ht, hm, -⟩ := h.split hl
  rw [← hr.cells_eq hs hb]
  exact hm.fits

end Runs

/-- A bit that is read out of a word of the history is the bit of the history. -/
theorem bitIn_bitsAfter {capacity k : Nat} {labels : List (Label w Call Reply)} {v : Word w}
    (hk : k < capacity)
    (hv : ((bitsAfter capacity labels).packed w).load? (Address.locate w k).word = some v) :
    (Address.locate w k).bitIn v = (bitsAfter capacity labels).bit k := by
  have hcapacity : k < ((Plain.clear capacity).after labels).capacity := by simpa using hk
  exact Plain.bitIn_of_load? hcapacity hv

end SharedBits
