import SharedBits.Proofs.Paths
import SharedBits.Proofs.Rest

/-!
# The ways of a program

A program that runs to its end leaves its events behind, and what it gives is decided by them: that is
a `Way` of the program. A way through two programs, one after the other, is a way of the first and then
one of the second (`Way.of_bind`). So a count that finds no lock poisoned has read every word once, in
their order, and gives the sum of the bits in what it has read (`Strategy.way_count`).
-/

namespace SharedBits

variable {w : Width} {ρ α β : Type}

namespace Prog

/-- The events of a program that runs to its end, and what it gives then. -/
inductive Way : Prog w α → List (Event w ρ) → α → Prop
  | ret (a : α) : Way (ret a) [] a
  | read {cell next es a} (v : Word w) (h : Way (next v) es a) :
    Way (read cell next) (.loaded cell v :: es) a
  | write {cell value next es a} (old : Word w) (h : Way next es a) :
    Way (write cell value next) (.stored cell old value :: es) a
  | modify {cell transform next tries es a} (v : Word w)
    (htries : ∀ e ∈ tries, Event.isAttempt e = true) (h : Way (next v) es a) :
    Way (modify cell transform next) (tries ++ .committed cell v (transform v) :: es) a
  | acquire {guard next es a} (poisoned : Bool) (h : Way (next poisoned) es a) :
    Way (acquire guard next) (.acquired guard poisoned :: es) a
  | release {guard next es a} (h : Way next es a) : Way (release guard next) (.released guard :: es) a
  | compute {next es a} (h : Way next es a) : Way (compute next) (.computed :: es) a

variable {es : List (Event w ρ)}

theorem Way.attempt {cell transform} {next : Word w → Prog w α} {a : α} {e : Event w ρ}
    (he : e.isAttempt = true) (h : (Prog.modify cell transform next).Way es a) :
    (Prog.modify cell transform next).Way (e :: es) a := by
  cases h with
  | @modify _ _ _ tries es _ v htries h =>
    exact @Way.modify _ _ _ _ _ _ (e :: tries) es a v (List.forall_mem_cons.2 ⟨he, htries⟩) h

theorem Way.commit {cell transform} {next : Word w → Prog w α} {a : α} {v : Word w}
    (h : (next v).Way es a) :
    (Prog.modify cell transform next).Way (.committed cell v (transform v) :: es) a :=
  @Way.modify _ _ _ _ _ _ [] es a v (fun _ he => absurd he List.not_mem_nil) h

theorem Way.of_bind {f : α → Prog w β} {b : β} {p : Prog w α} (h : (p.bind f).Way es b) :
    ∃ es₁ a es₂, es = es₁ ++ es₂ ∧ p.Way es₁ a ∧ (f a).Way es₂ b := by
  induction p generalizing es with
  | ret a => exact ⟨[], a, es, rfl, .ret a, h⟩
  | read cell next ih =>
    cases h with
    | read v h =>
      obtain ⟨es₁, a, es₂, rfl, hp, hf⟩ := ih v h
      exact ⟨_ :: es₁, a, es₂, rfl, .read v hp, hf⟩
  | write cell value next ih =>
    cases h with
    | write old h =>
      obtain ⟨es₁, a, es₂, rfl, hp, hf⟩ := ih h
      exact ⟨_ :: es₁, a, es₂, rfl, .write old hp, hf⟩
  | modify cell transform next ih =>
    cases h with
    | @modify _ _ _ tries _ _ v htries h =>
      obtain ⟨es₁, a, es₂, rfl, hp, hf⟩ := ih v h
      refine ⟨tries ++ _ :: es₁, a, es₂, ?_, .modify v htries hp, hf⟩
      rw [List.append_assoc, List.cons_append]
  | acquire guard next ih =>
    cases h with
    | acquire poisoned h =>
      obtain ⟨es₁, a, es₂, rfl, hp, hf⟩ := ih poisoned h
      exact ⟨_ :: es₁, a, es₂, rfl, .acquire poisoned hp, hf⟩
  | release guard next ih =>
    cases h with
    | release h =>
      obtain ⟨es₁, a, es₂, rfl, hp, hf⟩ := ih h
      exact ⟨_ :: es₁, a, es₂, rfl, .release hp, hf⟩
  | compute next ih =>
    cases h with
    | compute h =>
      obtain ⟨es₁, a, es₂, rfl, hp, hf⟩ := ih h
      exact ⟨_ :: es₁, a, es₂, rfl, .compute hp, hf⟩

theorem Way.of_ret {a b : α} (h : (Prog.ret a : Prog w α).Way es b) : es = [] ∧ b = a := by
  cases h
  exact ⟨rfl, rfl⟩

/-- What comes after a program without events of its own does not show in its way. -/
theorem Way.of_map {p : Prog w α} {f : α → β} {b : β} (h : (p.bind fun a => Prog.ret (f a)).Way es b) :
    ∃ a, p.Way es a ∧ b = f a := by
  obtain ⟨es₁, a, es₂, rfl, hp, hf⟩ := h.of_bind
  obtain ⟨rfl, rfl⟩ := hf.of_ret
  exact ⟨a, by rwa [List.append_nil], rfl⟩

end Prog

/-- A call that comes to its return has gone a way of its program. -/
theorem Active.Follows.way {κ : Type} {a b : Active w κ ρ} {es : List (Event w ρ)} {r : ρ}
    (h : a.Follows es b) (hr : b.rest = .ret r) : a.rest.Way es r := by
  induction h with
  | nil =>
    rw [hr]
    exact .ret r
  | cons hp _ ih =>
    have ih := ih hr
    cases hp with
    | loaded v hr' =>
      rw [hr']
      exact .read v ih
    | stored old hr' =>
      rw [hr']
      exact .write old ih
    | observed v hr' hs =>
      simp only [hr'] at ih ⊢
      exact .attempt rfl ih
    | committed hr' hs =>
      rw [hr']
      exact .commit ih
    | missed actual hr' hs =>
      simp only [hr'] at ih ⊢
      exact .attempt rfl ih
    | acquired poisoned hr' =>
      rw [hr']
      exact .acquire poisoned ih
    | released hr' =>
      rw [hr']
      exact .release ih
    | computed hr' =>
      rw [hr']
      exact .compute ih

/-! ## Without a poisoned lock -/

def FindsHealthy (es : List (Event w ρ)) : Prop := ∀ guard, .acquired guard true ∉ es

theorem findsHealthy_append {es es' : List (Event w ρ)} :
    FindsHealthy (es ++ es') ↔ FindsHealthy es ∧ FindsHealthy es' := by
  simp only [FindsHealthy, List.mem_append, not_or, forall_and]

/-- In a run without a panic every call finds its locks healthy. -/
theorem Run.findsHealthy {p : Plain} {s : Strategy} {stops : Ending Reply → Bool}
    {calls : List (List Call)} {labels : List (Label w Call Reply)} {m : Machine w Call Reply}
    {i n : Nat} (h : Run ((p.bitSet s w).callers stops) (.start (p.bitSet s w).store calls) labels m)
    (hcalm : IsCalm labels) {call : Call} {es : List (Event w Reply)}
    (hes : ∀ e ∈ es, ⟨i, n, call, e⟩ ∈ labels) : FindsHealthy es :=
  fun guard he => h.not_acquired_poisoned hcalm (hes _ he) guard rfl

namespace Prog

variable {es : List (Event w ρ)}

/-- A guarded program takes its lock, goes its way and gives the lock back. -/
theorem Way.of_guarded {guard : Guard} {body : Prog w α} {r : Except Error α}
    (h : (guarded guard body).Way es r) (hes : FindsHealthy es) :
    ∃ es' a, es = .acquired guard false :: (es' ++ [.released guard]) ∧ body.Way es' a ∧ r = .ok a := by
  cases h with
  | acquire poisoned h =>
    cases poisoned with
    | true => exact absurd (List.mem_cons_self ..) (hes guard)
    | false =>
      obtain ⟨es₁, a, es₂, rfl, hbody, hrest⟩ := Way.of_bind h
      cases hrest with
      | release hrest =>
        obtain ⟨rfl, rfl⟩ := hrest.of_ret
        exact ⟨es₁, a, rfl, hbody, rfl⟩

theorem Way.of_readOnes {cell n : Nat} (h : (readOnes (w := w) cell).Way es n) :
    ∃ v, es = [.loaded cell v, .computed] ∧ n = Word.ones v := by
  cases h with
  | read v h =>
    cases h with
    | compute h =>
      obtain ⟨rfl, rfl⟩ := h.of_ret
      exact ⟨v, rfl, rfl⟩

/-- The loads are of the words from `first` on, one after another, and these words were there. -/
def Loads (es : List (Event w ρ)) (first : Nat) (words : List (Word w)) : Prop :=
  es.filterMap Event.load? = (words.zipIdx first).map Prod.swap

theorem Loads.cons {es₁ es₂ : List (Event w ρ)} {first : Nat} {v : Word w} {words : List (Word w)}
    (h₂ : Loads es₂ (first + 1) words) (h₁ : es₁.filterMap Event.load? = [(first, v)]) :
    Loads (es₁ ++ es₂) first (v :: words) := by
  rw [Loads, List.filterMap_append, h₁, h₂]
  rfl

theorem Way.of_sum {each : Nat → Prog w Nat}
    (heach : ∀ k n (es : List (Event w ρ)), (each k).Way es n →
      ∃ v, es.filterMap Event.load? = [(k, v)] ∧ n = Word.ones v) :
    ∀ {n first total r} {es : List (Event w ρ)}, (sum each first n total).Way es r →
      ∃ words, words.length = n ∧ Loads es first words ∧ r = total + (words.map Word.ones).sum
  | 0, _, _, _, _, h => by
    obtain ⟨rfl, rfl⟩ := h.of_ret
    exact ⟨[], rfl, rfl, rfl⟩
  | n + 1, first, total, r, es, h => by
    obtain ⟨es₁, k, es₂, rfl, hfirst, hrest⟩ := Way.of_bind h
    obtain ⟨v, hload, rfl⟩ := heach first k es₁ hfirst
    obtain ⟨words, rfl, hloads, rfl⟩ := Way.of_sum heach hrest
    refine ⟨v :: words, rfl, hloads.cons hload, ?_⟩
    rw [List.map_cons, List.sum_cons, Nat.add_assoc]

/-- A sum that would stop at the first refusal, if there were one. -/
theorem Way.of_sumUntilRefused {each : Nat → Prog w (Except Error Nat)}
    (heach : ∀ k r (es : List (Event w ρ)), FindsHealthy es → (each k).Way es r →
      ∃ v, es.filterMap Event.load? = [(k, v)] ∧ r = .ok (Word.ones v)) :
    ∀ {n first total r} {es : List (Event w ρ)}, FindsHealthy es →
      (sumUntilRefused each first n total).Way es r →
      ∃ words, words.length = n ∧ Loads es first words
        ∧ r = .ok (total + (words.map Word.ones).sum)
  | 0, _, _, _, _, _, h => by
    obtain ⟨rfl, rfl⟩ := h.of_ret
    exact ⟨[], rfl, rfl, rfl⟩
  | n + 1, first, total, r, es, hes, h => by
    obtain ⟨es₁, k, es₂, rfl, hfirst, hrest⟩ := Way.of_bind h
    obtain ⟨hes₁, hes₂⟩ := findsHealthy_append.1 hes
    obtain ⟨v, hload, rfl⟩ := heach first k es₁ hes₁ hfirst
    obtain ⟨words, rfl, hloads, rfl⟩ := Way.of_sumUntilRefused heach hes₂ hrest
    refine ⟨v :: words, rfl, hloads.cons hload, ?_⟩
    rw [List.map_cons, List.sum_cons, Nat.add_assoc]

/-- A sum of which no part is refused. -/
theorem Way.isOk_of_sumUntilRefused {each : Nat → Prog w (Except Error Nat)} :
    ∀ {n first total r} {es : List (Event w ρ)}, (∀ k < first + n, ∀ r (es : List (Event w ρ)),
        FindsHealthy es → (each k).Way es r → ∃ m, r = .ok m) →
      FindsHealthy es → (sumUntilRefused each first n total).Way es r → ∃ m, r = .ok m
  | 0, _, _, _, _, _, _, h => ⟨_, h.of_ret.2⟩
  | n + 1, first, total, r, es, heach, hes, h => by
    obtain ⟨es₁, k, es₂, rfl, hfirst, hrest⟩ := Way.of_bind h
    obtain ⟨hes₁, hes₂⟩ := findsHealthy_append.1 hes
    obtain ⟨m, rfl⟩ := heach first (by omega) k es₁ hes₁ hfirst
    exact Way.isOk_of_sumUntilRefused (fun k hk => heach k (by omega)) hes₂ hrest

theorem Way.loads_readOnes {k n : Nat} (h : (readOnes (w := w) k).Way es n) :
    ∃ v, es.filterMap Event.load? = [(k, v)] ∧ n = Word.ones v := by
  obtain ⟨v, rfl, rfl⟩ := h.of_readOnes
  exact ⟨v, rfl, rfl⟩

theorem Way.loads_guarded {guard : Guard} {k : Nat} {r : Except Error Nat} (hes : FindsHealthy es)
    (h : (guarded guard (readOnes (w := w) k)).Way es r) :
    ∃ v, es.filterMap Event.load? = [(k, v)] ∧ r = .ok (Word.ones v) := by
  obtain ⟨es', n, rfl, hbody, rfl⟩ := h.of_guarded hes
  obtain ⟨v, rfl, rfl⟩ := hbody.of_readOnes
  exact ⟨v, rfl, rfl⟩

theorem Way.forall_of_sum {each : Nat → Prog w Nat} {P : Event w ρ → Prop}
    (heach : ∀ k n es, (each k).Way es n → ∀ e ∈ es, P e) :
    ∀ {n first total r es}, (sum each first n total).Way es r → ∀ e ∈ es, P e
  | 0, _, _, _, _, h => by
    obtain ⟨rfl, -⟩ := h.of_ret
    exact fun e he => absurd he List.not_mem_nil
  | n + 1, first, total, r, es, h => by
    obtain ⟨es₁, k, es₂, rfl, hfirst, hrest⟩ := Way.of_bind h
    intro e he
    rcases List.mem_append.1 he with he | he
    · exact heach first k es₁ hfirst e he
    · exact Way.forall_of_sum heach hrest e he

end Prog

def Event.isReading : Event w ρ → Bool
  | loaded _ _ => true
  | computed => true
  | _ => false

/-- Whether a call addresses a bit that is not there. -/
def Call.isRefused (capacity : Nat) (call : Call) : Bool :=
  call.index?.any fun k => decide (capacity ≤ k)

namespace Strategy

open Prog

variable {s : Strategy} {capacity : Nat} {es : List (Event w ρ)}

/-- A count under one lock over all words keeps it from before its first load to after its last. -/
theorem way_count_whole {reading : Mode} (hd : s.discipline = .locked .whole reading)
    {r : Except Error Nat} (h : (s.count w capacity).Way es r) (hes : FindsHealthy es) :
    ∃ loads words, es = .acquired ⟨0, reading⟩ false :: (loads ++ [.released ⟨0, reading⟩])
      ∧ (∀ e ∈ loads, e.isReading = true) ∧ words.length = wordsFor w capacity
      ∧ Loads loads 0 words ∧ r = .ok (words.map Word.ones).sum := by
  simp only [count, hd] at h
  obtain ⟨loads, n, rfl, hbody, rfl⟩ := h.of_guarded hes
  obtain ⟨words, hlength, hloads, rfl⟩ := hbody.of_sum fun _ _ _ => Way.loads_readOnes
  refine ⟨loads, words, rfl, hbody.forall_of_sum fun k n es hway e he => ?_, hlength, hloads, ?_⟩
  · obtain ⟨v, rfl, -⟩ := hway.of_readOnes
    simp only [List.mem_cons, List.not_mem_nil, or_false] at he
    rcases he with rfl | rfl <;> rfl
  · rw [Nat.zero_add]

/-- Whatever the locks, a count loads every word once, one after another, and counts their bits. -/
theorem way_count (hs : s.isSynchronized = true) {r : Except Error Nat}
    (h : (s.count w capacity).Way es r) (hes : FindsHealthy es) :
    ∃ words, words.length = wordsFor w capacity ∧ Loads es 0 words
      ∧ r = .ok (words.map Word.ones).sum := by
  rcases hd : s.discipline with ⟨_ | _, reading⟩ | _ | _
  · obtain ⟨loads, words, rfl, -, hlength, hloads, rfl⟩ := way_count_whole hd h hes
    exact ⟨words, hlength, by simpa [Loads, List.filterMap_cons, Event.load?] using hloads, rfl⟩
  · simp only [count, hd] at h
    obtain ⟨words, hlength, hloads, rfl⟩ :=
      Way.of_sumUntilRefused (fun _ _ _ => Way.loads_guarded) hes h
    exact ⟨words, hlength, hloads, by rw [Nat.zero_add]⟩
  · simp only [count, hd] at h
    obtain ⟨n, hway, rfl⟩ := h.of_map
    obtain ⟨words, hlength, hloads, rfl⟩ := hway.of_sum fun _ _ _ => Way.loads_readOnes
    exact ⟨words, hlength, hloads, by rw [Nat.zero_add]⟩
  · exact absurd hd (discipline_ne_loadStore hs)

theorem way_getAt {a : Address} {r : Except Error Bool} (h : (s.getAt w a).Way es r)
    (hes : FindsHealthy es) : ∃ b, r = .ok b := by
  unfold getAt at h
  split at h
  · obtain ⟨es', b, -, -, rfl⟩ := h.of_guarded hes
    exact ⟨b, rfl⟩
  · obtain ⟨b, -, rfl⟩ := h.of_map
    exact ⟨b, rfl⟩
  · obtain ⟨b, -, rfl⟩ := h.of_map
    exact ⟨b, rfl⟩

theorem way_changeBit {a : Address} {op : BitOp} {u : Unit} (h : (changeBit (w := w) a op).Way es u) :
    es.countP Event.isWrite = 1 := by
  cases h with
  | read v h =>
    cases h with
    | compute h =>
      cases h with
      | write old h =>
        obtain ⟨rfl, -⟩ := h.of_ret
        rfl

theorem way_modifyBit {a : Address} {op : BitOp} {u : Unit} (h : (modifyBit (w := w) a op).Way es u) :
    es.countP Event.isWrite = 1 := by
  cases h with
  | @modify _ _ _ tries _ _ v htries h =>
    obtain ⟨rfl, -⟩ := h.of_ret
    have hnone : tries.countP Event.isWrite = 0 :=
      List.countP_eq_zero.2 fun e he => by simp [Event.isWrite_of_isAttempt (htries e he)]
    rw [List.countP_append, hnone]
    rfl

/-- An update that finds its lock healthy writes, and that once. -/
theorem way_updateAt {a : Address} {op : BitOp} {r : Except Error Unit}
    (h : (s.updateAt w a op).Way es r) (hes : FindsHealthy es) :
    r = .ok () ∧ es.countP Event.isWrite = 1 := by
  unfold updateAt at h
  split at h
  · obtain ⟨es', u, rfl, hbody, rfl⟩ := h.of_guarded hes
    refine ⟨rfl, ?_⟩
    rw [List.countP_cons_of_neg (by simp [Event.isWrite]), List.countP_append, way_changeBit hbody]
    rfl
  · obtain ⟨u, hway, rfl⟩ := h.of_map
    exact ⟨rfl, way_modifyBit hway⟩
  · obtain ⟨u, hway, rfl⟩ := h.of_map
    exact ⟨rfl, way_changeBit hway⟩

theorem isOk_of_way_get {k : Nat} (hk : k < capacity) {r : Except Error Bool}
    (h : (s.get w capacity k).Way es r) (hes : FindsHealthy es) : ∃ b, r = .ok b := by
  simp only [Strategy.get, requireIndex_eq_ok_iff.2 hk] at h
  exact way_getAt h hes

theorem isOk_of_way_count {r : Except Error Nat} (h : (s.count w capacity).Way es r)
    (hes : FindsHealthy es) : ∃ n, r = .ok n := by
  cases hs : s.isSynchronized with
  | true =>
    obtain ⟨words, -, -, rfl⟩ := way_count hs h hes
    exact ⟨_, rfl⟩
  | false =>
    obtain rfl := Strategy.eq_unsynchronized hs
    refine Way.isOk_of_sumUntilRefused (fun k hk r es hes hway => ?_) hes h
    obtain ⟨es₁, a, es₂, rfl, hget, hrest⟩ := hway.of_bind
    obtain ⟨b, rfl⟩ := isOk_of_way_get (by omega) hget (findsHealthy_append.1 hes).1
    exact ⟨_, hrest.of_ret.2⟩

/-- A call that finds its locks healthy is refused only for its index, and makes its change. -/
theorem way_code {call : Call} {r : Reply}
    (h : (s.code w capacity call).Way es r) (hes : FindsHealthy es) :
    (Ending.returned r).isOk = !call.isRefused capacity
      ∧ (call.change capacity).toList.length ≤ es.countP Event.isWrite := by
  cases call with
  | get k =>
    refine ⟨?_, Nat.zero_le _⟩
    by_cases hk : k < capacity
    · obtain ⟨r, hway, rfl⟩ := h.of_map
      obtain ⟨b, rfl⟩ := isOk_of_way_get hk hway hes
      simp [Ending.isOk, Except.map, Call.isRefused, Call.index?, hk]
    · have hle := Nat.le_of_not_lt hk
      rw [s.code_of_refused rfl hle] at h
      obtain ⟨-, rfl⟩ := h.of_ret
      simp [Ending.isOk, refusalOf, Call.isRefused, Call.index?, hle]
  | update op k =>
    by_cases hk : k < capacity
    · obtain ⟨r, hway, rfl⟩ := h.of_map
      simp only [Strategy.update, requireIndex_eq_ok_iff.2 hk] at hway
      obtain ⟨rfl, hwrites⟩ := way_updateAt hway hes
      simp [Ending.isOk, Except.map, Call.isRefused, Call.index?, Call.change, hk, hwrites]
    · have hle := Nat.le_of_not_lt hk
      rw [s.code_of_refused rfl hle] at h
      obtain ⟨-, rfl⟩ := h.of_ret
      simp [Ending.isOk, refusalOf, Call.isRefused, Call.index?, Call.change, hk, hle]
  | count =>
    refine ⟨?_, Nat.zero_le _⟩
    obtain ⟨r, hway, rfl⟩ := h.of_map
    obtain ⟨n, rfl⟩ := isOk_of_way_count hway hes
    rfl

end Strategy

end SharedBits
