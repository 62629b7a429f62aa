import SharedBits.BitSet
import SharedBits.Fragile
import SharedBits.Proofs.Packing

/-!
# Programs that run alone

`Fragile.alone` is what a lone program finds: the words of the plain bits, and locks that nobody
holds and of which some are poisoned. A program that computes once with one word, under the lock of
that word where there is one, has four endings, and `Touches` names them: refused by a poisoned lock,
panicked, or ended with a value and new bits. Reading a bit and changing a bit are
such programs (`touches_getAt`, `touches_updateAt`), and a count is a series of computations that the
first poisoned lock or the first panic stops (`counts_count`).
-/

namespace SharedBits

variable {w : Width} {α : Type}

namespace Fragile

/-- The words and locks of a bitset that nobody uses now. -/
def store (f : Fragile) (s : Strategy) (w : Width) : Store w :=
  ⟨f.plain.packed w, (Array.range (s.locksFor (wordsFor w f.plain.capacity))).map fun i =>
    { poisoned := f.poisoned.contains i }⟩

/-- What a program finds that runs alone. -/
def alone (f : Fragile) (s : Strategy) (w : Width) (fuse : Option Nat) : Prog.Alone w :=
  { store := f.store s w, fuse := fuse }

end Fragile

/-! ## One computation -/

namespace Prog

/-- A program that computes once, with a word of `p`, and leaves `p'`. -/
def Computes (body : Prog w α) (p p' : Plain) (value : α) : Prop :=
  ∀ st : Alone w, st.store.cells = p.packed w →
    (Fragile.burn st.fuse = none → body.run st = (.panicked, { st.die with fuse := none }))
    ∧ ∀ fuse, Fragile.burn st.fuse = some fuse → body.run st
      = (.returned value, { st with store := { st.store with cells := p'.packed w }, fuse := fuse })

theorem Alone.tick_eq_burn (st : Alone w) :
    st.tick = (Fragile.burn st.fuse).map fun fuse => { st with fuse := fuse } := by
  obtain ⟨store, held, fuse⟩ := st
  rcases fuse with _ | _ | n <;> rfl

theorem computes_readBit (p : Plain) {i : Nat} (h : i < p.capacity) :
    Computes (readBit (w := w) (Address.locate w i)) p p (p.bit i) := by
  intro st hst
  have hl := Plain.load?_locate (w := w) p h
  simp only [readBit, run, hst, hl, Alone.tick_eq_burn]
  refine ⟨fun hb => by rw [hb]; rfl, fun fuse hb => ?_⟩
  rw [hb, ← hst]
  simp only [Option.map_some, Plain.bitIn_word]

theorem computes_readOnes (p : Plain) {k : Nat} (h : k < wordsFor w p.capacity) :
    Computes (readOnes (w := w) k) p p (p.word w k).ones := by
  intro st hst
  simp only [readOnes, run, hst, Plain.load?_packed p h, Alone.tick_eq_burn]
  refine ⟨fun hb => by rw [hb]; rfl, fun fuse hb => ?_⟩
  rw [hb, ← hst]
  rfl

theorem computes_changeBit (p : Plain) {i : Nat} (h : i < p.capacity) (op : BitOp) :
    Computes (changeBit (w := w) (Address.locate w i) op) p (p.update op i) () := by
  intro st hst
  have hl := Plain.load?_locate (w := w) p h
  simp only [changeBit, run, hst, hl, Alone.tick_eq_burn]
  refine ⟨fun hb => by rw [hb]; rfl, fun fuse hb => ?_⟩
  rw [hb, p.packed_update op h, ← hst]
  simp only [Option.map_some, hst, hl, Store.write]

theorem computes_modifyBit (p : Plain) {i : Nat} (h : i < p.capacity) (op : BitOp) :
    Computes (modifyBit (w := w) (Address.locate w i) op) p (p.update op i) () := by
  intro st hst
  have hl := Plain.load?_locate (w := w) p h
  simp only [modifyBit, run, hst, hl, Alone.tick_eq_burn]
  refine ⟨fun hb => by rw [hb]; rfl, fun fuse hb => ?_⟩
  rw [hb, p.packed_update op h, ← hst]
  rfl

end Prog

/-! ## Under the lock of a word -/

namespace Fragile

open Prog

variable {f f' : Fragile} {s : Strategy}

theorem burn_some {fuse fuse' : Option Nat} (h : burn fuse = some fuse') :
    fuse' = fuse.map (· - 1) := by
  rcases fuse with _ | _ | n
  · cases h
    rfl
  · cases h
  · cases h
    rfl

/-- How a program ends that computes once with a word, under its lock where there is one. -/
structure Touches (f : Fragile) (s : Strategy) (p : Prog w (Except Error α)) (word : Nat)
    (isAlone : Bool) (f' : Fragile) (value : α) : Prop where
  refused : f.isPoisoned s word = true → ∀ fuse,
    p.run (f.alone s w fuse) = (.returned (.error .lockPoisoned), f.alone s w fuse)
  panicked : f.isPoisoned s word = false → ∀ fuse, burn fuse = none →
    p.run (f.alone s w fuse) = (.panicked, (f.panic s word isAlone).alone s w none)
  done : f.isPoisoned s word = false → ∀ fuse fuse', burn fuse = some fuse' →
    p.run (f.alone s w fuse) = (.returned (.ok value), f'.alone s w fuse')

/-- Without a lock. -/
theorem touches_of_lockOfWord_none {body : Prog w α} {word : Nat} {isAlone : Bool} {value : α}
    (hl : s.lockOfWord word = none) (hp : f'.poisoned = f.poisoned)
    (hc : f'.plain.capacity = f.plain.capacity) (hb : Computes body f.plain f'.plain value) :
    Touches f s (body.bind fun a => ret (.ok a)) word isAlone f' value := by
  have hn : f.isPoisoned s word = false := by simp [isPoisoned, hl]
  refine ⟨fun h => by simp [hn] at h, fun _ fuse h => ?_, fun _ fuse fuse' h => ?_⟩
  · rw [run_bind, (hb (f.alone s w fuse) rfl).1 h]
    simp only [panic, hl]
    rfl
  · rw [run_bind, (hb (f.alone s w fuse) rfl).2 fuse' h]
    simp only [run, alone, store, hp, hc]

theorem getElem?_locks (f : Fragile) (s : Strategy) (w : Width) (i : Nat) :
    (f.store s w).locks[i]? = if i < s.locksFor (wordsFor w f.plain.capacity)
      then some { poisoned := f.poisoned.contains i } else none := by
  rw [store, Array.getElem?_map, Array.getElem?_range]
  split <;> rfl

/-- A change of one lock that shows only in whether it is poisoned. -/
theorem changeLock_store {l : Nat} {change : Lock → Lock}
    (h : change { poisoned := f.poisoned.contains l } = { poisoned := f'.poisoned.contains l })
    (ho : ∀ i, i ≠ l → f'.poisoned.contains i = f.poisoned.contains i)
    (hp : f'.plain = f.plain) : (f.store s w).changeLock l change = f'.store s w := by
  have hlocks : ((f.store s w).locks.modify l change) = (f'.store s w).locks := by
    refine Array.ext_getElem? fun i => ?_
    rw [Array.getElem?_modify, getElem?_locks, getElem?_locks, hp]
    by_cases hi : i < s.locksFor (wordsFor w f.plain.capacity)
    · by_cases hil : l = i
      · subst hil
        rw [if_pos hi, if_pos hi, if_pos rfl, Option.map_some, h]
      · rw [if_pos hi, if_pos hi, if_neg hil, ho i (Ne.symm hil)]
    · rw [if_neg hi, if_neg hi]
      split <;> rfl
  rw [Store.changeLock, hlocks]
  simp only [store, hp]

theorem changeLock_changeLock (st : Store w) (l : Nat) (g h : Lock → Lock) :
    (st.changeLock l g).changeLock l h = st.changeLock l fun lock => h (g lock) := by
  simp only [Store.changeLock, Store.mk.injEq, true_and]
  refine Array.ext_getElem? fun i => ?_
  simp only [Array.getElem?_modify]
  by_cases hi : l = i
  · simp [hi, Function.comp_def]
  · simp [hi]

theorem drop_take_store (f : Fragile) (s : Strategy) (w : Width) (g : Guard) :
    ((f.store s w).take g).drop g = f.store s w := by
  rw [Store.take, Store.drop, changeLock_changeLock]
  exact changeLock_store (Lock.drop_take _ g.mode (by cases g.mode <;> rfl)) (fun _ _ => rfl) rfl

/-- The death of the holder of a guard poisons its lock if it was held alone. -/
theorem abandon_take_store (f : Fragile) (s : Strategy) (w : Width) (g : Guard) :
    ((f.store s w).take g).abandon [g]
      = (if g.mode == .exclusive then { f with poisoned := g.lock :: f.poisoned } else f).store s w := by
  obtain ⟨l, mode⟩ := g
  simp only [Store.take, Store.abandon, List.foldl_cons, List.foldl_nil, changeLock_changeLock]
  cases mode with
  | shared => exact changeLock_store (by simp [Lock.take, Lock.abandon, Lock.drop]) (by simp) rfl
  | exclusive =>
    refine changeLock_store (by simp [Lock.take, Lock.abandon, Lock.drop]) (fun i hi => ?_) rfl
    simp [hi]

/-- What a program finds that has just taken a lock. -/
def inside (f : Fragile) (s : Strategy) (w : Width) (g : Guard) (fuse : Option Nat) : Alone w :=
  { store := (f.store s w).take g, held := [g], fuse := fuse }

theorem run_guarded {g : Guard} (hg : g.lock < s.locksFor (wordsFor w f.plain.capacity))
    (body : Prog w α) (fuse : Option Nat) :
    (guarded g body).run (f.alone s w fuse) =
      if f.poisoned.contains g.lock then (.returned (.error .lockPoisoned), f.alone s w fuse)
      else match body.run (f.inside s w g fuse) with
        | (.returned a, st) => (.returned (.ok a),
          { st with store := st.store.drop g, held := st.held.erase g })
        | (.panicked, st) => (.panicked, st)
        | (.blocked, st) => (.blocked, st) := by
  have hfree : ({ poisoned := f.poisoned.contains g.lock } : Lock).isFree g.mode = true := by
    cases g.mode <;> rfl
  simp only [guarded, run, alone, getElem?_locks, if_pos hg, hfree, if_true]
  by_cases hp : f.poisoned.contains g.lock = true
  · simp only [if_pos hp, run, drop_take_store, List.erase_cons_head]
  · simp only [if_neg hp, run_bind, inside]
    rfl

theorem die_inside {g : Guard} {word : Nat} (hl : s.lockOfWord word = some g.lock)
    (fuse : Option Nat) :
    { (f.inside s w g fuse).die with fuse := none }
      = (f.panic s word (g.mode == .exclusive)).alone s w none := by
  simp only [Alone.die, inside, abandon_take_store, panic, hl, alone]

/-- Under the lock of the word. -/
theorem touches_guarded {span : Span} {reading : Mode} (hd : s.discipline = .locked span reading)
    {word : Nat} (hw : word < wordsFor w f.plain.capacity) (mode : Mode) {body : Prog w α} {value : α}
    (hp : f'.poisoned = f.poisoned) (hc : f'.plain.capacity = f.plain.capacity)
    (hb : Computes body f.plain f'.plain value) :
    Touches f s (guarded ⟨span.lockOf word, mode⟩ body) word (mode == .exclusive) f' value := by
  have hg : span.lockOf word < s.locksFor (wordsFor w f.plain.capacity) := by
    cases span
    · simp [Strategy.locksFor, hd, Span.lockOf]
    · simpa [Strategy.locksFor, hd, Span.lockOf] using hw
  have hl : s.lockOfWord word = some (span.lockOf word) := by simp [Strategy.lockOfWord, hd]
  have hi : f.isPoisoned s word = f.poisoned.contains (span.lockOf word) := by
    simp [isPoisoned, hl]
  refine ⟨fun h fuse => ?_, fun h fuse hf => ?_, fun h fuse fuse' hf => ?_⟩
  · rw [run_guarded hg, if_pos (hi ▸ h)]
  · have hn := Bool.eq_false_iff.1 (hi ▸ h)
    rw [run_guarded hg, if_neg hn, (hb (f.inside s w _ fuse) rfl).1 hf]
    exact congrArg (Prod.mk Ending.panicked) (die_inside (g := ⟨span.lockOf word, mode⟩) hl fuse)
  · have hn := Bool.eq_false_iff.1 (hi ▸ h)
    rw [run_guarded hg, if_neg hn, (hb (f.inside s w _ fuse) rfl).2 fuse' hf]
    have hs : ({ (f.store s w).take ⟨span.lockOf word, mode⟩ with
        cells := f'.plain.packed w } : Store w) = (f'.store s w).take ⟨span.lockOf word, mode⟩ := by
      simp only [Store.take, Store.changeLock, store, hp, hc]
    simp only [inside, hs, drop_take_store, List.erase_cons_head, alone]

/-! ## Single bits -/

theorem lockOfWord_none {word : Nat} (h : ∀ span reading, s.discipline ≠ .locked span reading) :
    s.lockOfWord word = none := by
  unfold Strategy.lockOfWord
  split
  · rename_i span reading hd
    exact absurd hd (h span reading)
  · rfl
  · rfl

theorem touches_getAt {i : Nat} (h : i < f.plain.capacity) :
    Touches f s (s.getAt w (Address.locate w i)) (i / w.bits) s.readsAlone f (f.plain.bit i) := by
  have hb := computes_readBit (w := w) f.plain h
  rcases hd : s.discipline with ⟨span, reading⟩ | _ | _
  · simp only [Strategy.getAt, Strategy.readsAlone, hd]
    exact touches_guarded hd (word_lt_wordsFor w h) reading rfl rfl hb
  · simp only [Strategy.getAt, hd]
    exact touches_of_lockOfWord_none (lockOfWord_none (by simp [hd])) rfl rfl hb
  · simp only [Strategy.getAt, hd]
    exact touches_of_lockOfWord_none (lockOfWord_none (by simp [hd])) rfl rfl hb

theorem touches_updateAt {i : Nat} (h : i < f.plain.capacity) (op : BitOp) :
    Touches f s (s.updateAt w (Address.locate w i) op) (i / w.bits) true
      { f with plain := f.plain.update op i } () := by
  have hc := f.plain.capacity_update op i
  have hb := computes_changeBit (w := w) f.plain h op
  rcases hd : s.discipline with ⟨span, reading⟩ | _ | _
  · simp only [Strategy.updateAt, hd]
    exact touches_guarded hd (word_lt_wordsFor w h) .exclusive rfl hc hb
  · simp only [Strategy.updateAt, hd]
    exact touches_of_lockOfWord_none (lockOfWord_none (by simp [hd])) rfl hc
      (computes_modifyBit f.plain h op)
  · simp only [Strategy.updateAt, hd]
    exact touches_of_lockOfWord_none (lockOfWord_none (by simp [hd])) rfl hc hb

theorem requireIndex_of_lt {i n : Nat} (h : i < n) : requireIndex i n = .ok () :=
  requireIndex_eq_ok_iff.2 h

theorem requireIndex_of_ge {p : Plain} {i : Nat} (h : p.capacity ≤ i) :
    requireIndex i p.capacity = .error (p.refusal i) := by
  rw [requireIndex, if_neg (by omega), Plain.refusal]

theorem get_of_lt {i n : Nat} (h : i < n) : s.get w n i = s.getAt w (Address.locate w i) := by
  simp only [Strategy.get, requireIndex_of_lt h]

theorem update_of_lt {i n : Nat} (h : i < n) (op : BitOp) :
    s.update w n op i = s.updateAt w (Address.locate w i) op := by
  simp only [Strategy.update, requireIndex_of_lt h]

theorem get_of_ge {p : Plain} {i : Nat} (h : p.capacity ≤ i) :
    s.get w p.capacity i = ret (.error (p.refusal i)) := by
  simp only [Strategy.get, requireIndex_of_ge h]

theorem update_of_ge {p : Plain} {i : Nat} (h : p.capacity ≤ i) (op : BitOp) :
    s.update w p.capacity op i = ret (.error (p.refusal i)) := by
  simp only [Strategy.update, requireIndex_of_ge h]

/-- One call that reads a bit. -/
theorem run_get (f : Fragile) (s : Strategy) (w : Width) (fuse : Option Nat) (i : Nat) :
    ∃ fuse', ((s.get w f.plain.capacity i).bind fun r => ret (r.map .bit)).run (f.alone s w fuse)
      = ((f.get s w fuse i).1, (f.get s w fuse i).2.alone s w fuse') := by
  unfold Fragile.get
  by_cases hi : f.plain.capacity ≤ i
  · exact ⟨fuse, by rw [get_of_ge hi, if_pos hi]; rfl⟩
  rw [get_of_lt (by omega), if_neg hi, run_bind]
  have ht := touches_getAt (f := f) (s := s) (w := w) (Nat.lt_of_not_ge hi)
  by_cases hp : f.isPoisoned s (i / w.bits) = true
  · exact ⟨fuse, by rw [ht.refused hp, if_pos hp]; rfl⟩
  rw [if_neg hp]
  rw [Bool.not_eq_true] at hp
  cases hb : burn fuse with
  | none => exact ⟨none, by rw [ht.panicked hp fuse hb]⟩
  | some fuse' =>
    refine ⟨fuse', ?_⟩
    rw [ht.done hp fuse fuse' hb, Plain.perform, Plain.getElem?_bits (Nat.lt_of_not_ge hi)]
    rfl

/-- One change of a bit, with what is left of the fuse. -/
theorem run_update (f : Fragile) (s : Strategy) (w : Width) (fuse : Option Nat) (op : BitOp)
    (i : Nat) :
    ((s.update w f.plain.capacity op i).bind fun r => ret (r.map fun _ => .done)).run
        (f.alone s w fuse)
      = ((f.update s w fuse op i).1,
        (f.update s w fuse op i).2.2.alone s w (f.update s w fuse op i).2.1) := by
  unfold Fragile.update
  by_cases hi : f.plain.capacity ≤ i
  · rw [update_of_ge hi, if_pos hi]
    rfl
  rw [update_of_lt (by omega), if_neg hi, run_bind]
  have ht := touches_updateAt (f := f) (s := s) (w := w) (Nat.lt_of_not_ge hi) op
  by_cases hp : f.isPoisoned s (i / w.bits) = true
  · rw [ht.refused hp, if_pos hp]
    rfl
  rw [if_neg hp]
  rw [Bool.not_eq_true] at hp
  cases hb : burn fuse with
  | none => rw [ht.panicked hp fuse hb]
  | some fuse' =>
    rw [ht.done hp fuse fuse' hb]
    rfl

/-! ## Counts -/

theorem Touches.bind_ok {β : Type} {p : Prog w (Except Error α)} {word : Nat} {isAlone : Bool}
    {value : α} (ht : Touches f s p word isAlone f' value) {g : α → β}
    {k : Except Error α → Prog w (Except Error β)} (he : ∀ e, k (.error e) = ret (.error e))
    (hk : ∀ a, k (.ok a) = ret (.ok (g a))) :
    Touches f s (p.bind k) word isAlone f' (g value) := by
  refine ⟨fun h fuse => ?_, fun h fuse hf => ?_, fun h fuse fuse' hf => ?_⟩
  · rw [run_bind, ht.refused h]
    simp only [he, run]
  · rw [run_bind, ht.panicked h fuse hf]
  · rw [run_bind, ht.done h fuse fuse' hf]
    simp only [hk, run]

/-- How a count of the words `ks` ends that finds `ones` set bits: the first word that stops it
decides. -/
def Counts (f : Fragile) (s : Strategy) (p : Prog w (Except Error Nat)) (ks : List Nat)
    (ones : Nat) (fuse : Option Nat) : Prop :=
  ∃ fuse', p.run (f.alone s w fuse) = match f.stopsCount s fuse ks with
    | none => (.returned (.ok ones), f.alone s w fuse')
    | some (_, false) => (.returned (.error .lockPoisoned), f.alone s w fuse')
    | some (k, true) => (.panicked, (f.panic s k s.readsAlone).alone s w fuse')

theorem counts_sumUntilRefused (each : Nat → Prog w (Except Error Nat)) (word value : Nat → Nat) :
    ∀ (n first total : Nat) (fuse : Option Nat),
      (∀ i, first ≤ i → i < first + n → Touches f s (each i) (word i) s.readsAlone f (value i)) →
      Counts f s (sumUntilRefused each first n total) ((List.range' first n).map word)
        (total + ∑ k ∈ Finset.range n, value (first + k)) fuse
  | 0, first, total, fuse, _ => ⟨fuse, by simp [sumUntilRefused, run, stopsCount]⟩
  | n + 1, first, total, fuse, h => by
    have ht := h first le_rfl (by omega)
    simp only [Counts, sumUntilRefused, List.range'_succ, List.map_cons, stopsCount, run_bind]
    by_cases hp : f.isPoisoned s (word first) = true
    · exact ⟨fuse, by rw [ht.refused hp, if_pos hp]; rfl⟩
    rw [if_neg hp]
    rw [Bool.not_eq_true] at hp
    cases hb : burn fuse with
    | none => exact ⟨none, by rw [ht.panicked hp fuse hb]⟩
    | some fuse' =>
      obtain ⟨left, hrun⟩ := counts_sumUntilRefused each word value n (first + 1) (total + value first)
        fuse' fun i h₁ h₂ => h i (by omega) (by omega)
      have hsum : total + value first + ∑ k ∈ Finset.range n, value (first + 1 + k)
          = total + ∑ k ∈ Finset.range (n + 1), value (first + k) := by
        rw [Finset.sum_range_succ']
        simp only [Nat.add_right_comm, Nat.add_zero, Nat.add_assoc]
        omega
      refine ⟨left, ?_⟩
      rw [ht.done hp fuse fuse' hb, ← hsum]
      exact hrun

/-- Adding up the set bits of words that no poisoned lock keeps back. -/
theorem run_sum_readOnes (hp : ∀ k, f.isPoisoned s k = false) :
    ∀ (n first total : Nat) (st : Alone w), st.store.cells = f.plain.packed w →
      first + n ≤ wordsFor w f.plain.capacity →
      (sum readOnes first n total).run st
        = match f.stopsCount s st.fuse (List.range' first n) with
          | none => (.returned (total + ∑ k ∈ Finset.range n, (f.plain.word w (first + k)).ones),
            { st with fuse := st.fuse.map (· - n) })
          | some _ => (.panicked, { st.die with fuse := none })
  | 0, first, total, st, _, _ => by
    obtain ⟨store, held, fuse⟩ := st
    cases fuse <;> simp [sum, run, stopsCount]
  | n + 1, first, total, st, hst, hn => by
    have hc := computes_readOnes (w := w) f.plain (k := first) (by omega) st hst
    simp only [sum, List.range'_succ, stopsCount, run_bind, hp first]
    cases hb : burn st.fuse with
    | none =>
      rw [hc.1 hb]
      rfl
    | some fuse =>
      have ih := run_sum_readOnes hp n (first + 1) (total + (f.plain.word w first).ones)
        { st with fuse := fuse } hst (by omega)
      have hsum : total + (f.plain.word w first).ones
            + ∑ k ∈ Finset.range n, (f.plain.word w (first + 1 + k)).ones
          = total + ∑ k ∈ Finset.range (n + 1), (f.plain.word w (first + k)).ones := by
        rw [Finset.sum_range_succ']
        simp only [Nat.add_right_comm, Nat.add_zero, Nat.add_assoc]
        omega
      have hfuse : fuse.map (· - n) = st.fuse.map (· - (n + 1)) := by
        rw [burn_some hb]
        cases st.fuse with
        | none => rfl
        | some k => simp [Nat.sub_sub, Nat.add_comm]
      rw [hc.2 fuse hb, ← hst, ← hsum, ← hfuse]
      exact ih

theorem stopsCount_of_unpoisoned (hp : ∀ k, f.isPoisoned s k = false) :
    ∀ (ks : List Nat) {fuse : Option Nat} {k : Nat} {isPanic : Bool},
      f.stopsCount s fuse ks = some (k, isPanic) → isPanic = true
  | [], _, _, _, h => by simp [stopsCount] at h
  | k :: ks, fuse, _, _, h => by
    simp only [stopsCount, hp k, Bool.false_eq_true, if_false] at h
    cases hb : burn fuse with
    | none =>
      rw [hb] at h
      cases h
      rfl
    | some fuse' =>
      rw [hb] at h
      exact stopsCount_of_unpoisoned hp ks h

theorem lockOfWord_whole {reading : Mode} (hd : s.discipline = .locked .whole reading) (k : Nat) :
    s.lockOfWord k = some 0 := by
  simp [Strategy.lockOfWord, hd, Span.lockOf]

theorem isPoisoned_of_lockOfWord_none {k : Nat} (h : s.lockOfWord k = none) :
    f.isPoisoned s k = false := by
  simp [isPoisoned, h]

theorem wordsFor_pos {n : Nat} (h : 0 < n) : 0 < wordsFor w n :=
  Nat.zero_lt_of_lt (word_lt_wordsFor w h)

theorem sum_ones_packed (p : Plain) (w : Width) :
    0 + ∑ k ∈ Finset.range (wordsFor w p.capacity), (p.word w (0 + k)).ones = p.ones := by
  simp only [Nat.zero_add, Plain.sum_ones_word]

/-- Under one lock that is kept for the whole count. -/
theorem counts_whole {reading : Mode} (hd : s.discipline = .locked .whole reading)
    (hc : 0 < f.plain.capacity) (fuse : Option Nat) :
    Counts f s (guarded ⟨0, reading⟩ (sum (w := w) readOnes 0 (wordsFor w f.plain.capacity) 0))
      (List.range (wordsFor w f.plain.capacity)) f.plain.ones fuse := by
  have hg : 0 < s.locksFor (wordsFor w f.plain.capacity) := by simp [Strategy.locksFor, hd]
  have hl := lockOfWord_whole hd
  have hi : ∀ k, f.isPoisoned s k = f.poisoned.contains 0 := by simp [isPoisoned, hl]
  have hm : (reading == .exclusive) = s.readsAlone := by simp only [Strategy.readsAlone, hd]
  rw [Counts, run_guarded hg]
  by_cases hp : f.poisoned.contains 0 = true
  · obtain ⟨n, hn⟩ := Nat.exists_eq_add_of_lt (wordsFor_pos (w := w) hc)
    refine ⟨fuse, ?_⟩
    rw [if_pos hp, hn, List.range_eq_range', Nat.zero_add, List.range'_succ, stopsCount, hi, hp]
    rfl
  have hn : ∀ k, f.isPoisoned s k = false := fun k => by simpa [hi] using hp
  have hrun := run_sum_readOnes hn (wordsFor w f.plain.capacity) 0 0
    (f.inside s w ⟨0, reading⟩ fuse) rfl (by omega)
  rw [if_neg hp, hrun, sum_ones_packed, List.range_eq_range']
  rcases hstop : f.stopsCount s fuse (List.range' 0 (wordsFor w f.plain.capacity)) with
    _ | ⟨k, isPanic⟩
  · refine ⟨fuse.map (· - wordsFor w f.plain.capacity), ?_⟩
    simp only [inside, hstop, drop_take_store, List.erase_cons_head, alone]
  · cases stopsCount_of_unpoisoned hn _ hstop
    have hdie := die_inside (f := f) (w := w) (g := ⟨0, reading⟩) (hl k) fuse
    refine ⟨none, ?_⟩
    simp only [inside, hstop, ← hm] at hdie ⊢
    rw [← hdie]

/-- Under the lock of each word in turn. -/
theorem counts_perWord {reading : Mode} (hd : s.discipline = .locked .perWord reading)
    (fuse : Option Nat) :
    Counts f s (sumUntilRefused (fun k => guarded ⟨k, reading⟩ (readOnes (w := w) k)) 0
      (wordsFor w f.plain.capacity) 0) (List.range (wordsFor w f.plain.capacity)) f.plain.ones
      fuse := by
  have hcount := counts_sumUntilRefused (f := f) (s := s)
    (fun k => guarded ⟨k, reading⟩ (readOnes k)) id (fun k => (f.plain.word w k).ones)
    (wordsFor w f.plain.capacity) 0 0 fuse fun k _ hk => by
      simp only [Strategy.readsAlone, hd]
      exact touches_guarded hd (by omega) reading rfl rfl (computes_readOnes f.plain (by omega))
  rwa [sum_ones_packed, List.map_id, ← List.range_eq_range'] at hcount

/-- Without locks, word by word. -/
theorem counts_words (hl : ∀ k, s.lockOfWord k = none) (fuse : Option Nat) :
    Counts f s ((sum (w := w) readOnes 0 (wordsFor w f.plain.capacity) 0).bind fun n => ret (.ok n))
      (List.range (wordsFor w f.plain.capacity)) f.plain.ones fuse := by
  have hn : ∀ k, f.isPoisoned s k = false := fun k => isPoisoned_of_lockOfWord_none (hl k)
  have hrun := run_sum_readOnes hn (wordsFor w f.plain.capacity) 0 0 (f.alone s w fuse) rfl
    (by omega)
  rw [Counts, run_bind, hrun, sum_ones_packed, List.range_eq_range']
  rcases hstop : f.stopsCount s fuse (List.range' 0 (wordsFor w f.plain.capacity)) with
    _ | ⟨k, isPanic⟩
  · refine ⟨fuse.map (· - wordsFor w f.plain.capacity), ?_⟩
    simp only [alone, hstop]
    rfl
  · cases stopsCount_of_unpoisoned hn _ hstop
    refine ⟨none, ?_⟩
    simp only [alone, hstop, panic, hl k]
    rfl

/-- Bit by bit. -/
theorem counts_countBits (fuse : Option Nat) :
    Counts f s (s.countBits w f.plain.capacity)
      ((List.range f.plain.capacity).map fun i => i / w.bits) f.plain.ones fuse := by
  have hsum : f.plain.ones = 0 + ∑ k ∈ Finset.range f.plain.capacity, (f.plain.bit (0 + k)).toNat := by
    simp only [Nat.zero_add, Plain.ones_eq_sum]
  rw [hsum, List.range_eq_range']
  refine counts_sumUntilRefused _ (fun i => i / w.bits) (fun i => (f.plain.bit i).toNat)
    f.plain.capacity 0 0 fuse fun i _ hi => ?_
  have hi : i < f.plain.capacity := by omega
  rw [get_of_lt hi]
  exact (touches_getAt hi).bind_ok (fun _ => rfl) fun _ => rfl

theorem counts_count (hc : 0 < f.plain.capacity) (fuse : Option Nat) :
    Counts f s (s.count w f.plain.capacity) (s.countedWords w f.plain.capacity) f.plain.ones
      fuse := by
  rcases hd : s.discipline with ⟨_ | _, reading⟩ | _ | _ <;>
    simp only [Strategy.count, Strategy.countedWords, hd]
  · exact counts_whole hd hc fuse
  · exact counts_perWord hd fuse
  · exact counts_words (fun k => lockOfWord_none (by simp [hd])) fuse
  · exact counts_countBits fuse

theorem run_count (hc : 0 < f.plain.capacity) (fuse : Option Nat) :
    ∃ fuse', ((s.count w f.plain.capacity).bind fun r => ret (r.map .count)).run (f.alone s w fuse)
      = ((f.count s w fuse).1, (f.count s w fuse).2.alone s w fuse') := by
  obtain ⟨left, hrun⟩ := counts_count (s := s) (w := w) hc fuse
  refine ⟨left, ?_⟩
  rw [run_bind, hrun, Fragile.count]
  rcases f.stopsCount s fuse (s.countedWords w f.plain.capacity) with _ | ⟨k, _ | _⟩ <;> rfl

end Fragile

end SharedBits
