import Mathlib.Data.List.Chain
import SharedBits.Call
import SharedBits.Proofs.Traces

/-!
# Words under optimistic updates

Threads that share a row of words and load them or update them by transforms of any kind, in every
interleaving of their loads and swaps. The commits of one word form a chain: the first replaces zero,
each other replaces what the one before has left, and the last has left what is there now. The swap
compares no more than the value, and that is enough: a transform is a function of the value that it
replaces, whatever the word has been in between. `CellsRun` says so of a run, with what the calls give
back, and `cells_linearize` that it holds of all of them.
-/

namespace SharedBits

variable {w : Width}

/-- What a thread asks of a row of words. -/
inductive CellCall (w : Width) where
  | load (cell : Nat)
  | update (cell : Nat) (transform : Word w → Word w)

/-- Gives back the word that was loaded, or the one that was replaced. -/
def CellCall.code : CellCall w → Prog w (Word w)
  | load cell => .read cell .ret
  | update cell transform => .modify cell transform .ret

def Cells.users (w : Width) (stops : Ending (Word w) → Bool) : System w (CellCall w) (Word w) where
  code := CellCall.code
  stops := stops

/-- An update that has committed: in which call, by which transform, and the word that it replaced. -/
structure Commit (w : Width) where
  thread : Nat
  number : Nat
  transform : Word w → Word w
  previous : Word w

def Commit.result (c : Commit w) : Word w := c.transform c.previous

/-- The commit of a word that a step makes, if it does. -/
def Label.commit? (cell : Nat) (l : Label w (CellCall w) (Word w)) : Option (Commit w) :=
  match l.call, l.event with
  | .update _ transform, .committed other previous _ =>
    if other = cell then some ⟨l.thread, l.number, transform, previous⟩ else none
  | _, _ => none

def commitsOf (cell : Nat) (labels : List (Label w (CellCall w) (Word w))) : List (Commit w) :=
  labels.filterMap (Label.commit? cell)

def wordAfter (commits : List (Commit w)) : Word w := (commits.getLast?.map Commit.result).getD 0

/-- The commits of each word form a chain that ends in the word that is there now. -/
structure Chained (size : Nat) (labels : List (Label w (CellCall w) (Word w))) (cells : Cells w) :
    Prop where
  size_eq : cells.size = size
  /-- The first commit of a word has replaced zero. -/
  first : ∀ cell c, (commitsOf cell labels).head? = some c → c.previous = 0
  /-- Each later one has replaced what the commit before it has left. -/
  next : ∀ cell, (commitsOf cell labels).IsChain fun c d => d.previous = c.result
  present : ∀ cell < size, cells.load? cell = some (wordAfter (commitsOf cell labels))

/-- The updates of a row of words take effect at their commits, and the loads where they load. -/
structure CellsRun (size : Nat) (labels : List (Label w (CellCall w) (Word w)))
    (m : Machine w (CellCall w) (Word w)) : Prop where
  chained : Chained size labels m.store.cells
  /-- A call changes no other word than its own, and that by its transform. -/
  own : ∀ l ∈ labels, ∀ cell previous new, l.event = .committed cell previous new →
    ∃ transform, l.call = .update cell transform ∧ new = transform previous
  /-- An update that has returned has committed once on its way, after attempts that changed nothing,
  and gives the word that it replaced. -/
  updated : ∀ i n cell transform r, ⟨i, n, .update cell transform, .returned r⟩ ∈ labels →
    (∃ tries, (∀ e ∈ tries, Event.isAttempt e = true) ∧ eventsOf labels i n
      = .began :: (tries ++ [.committed cell r (transform r), .returned r]))
    ∧ (commitsOf cell labels).filter (fun c => c.thread == i && c.number == n)
      = [⟨i, n, transform, r⟩]
  /-- No call has committed twice, whether it has returned or not. -/
  once : ∀ cell i n,
    ((commitsOf cell labels).filter fun c => c.thread == i && c.number == n).length ≤ 1
  /-- A load that has returned has loaded its word once, and gives that. -/
  loaded : ∀ i n cell r, ⟨i, n, .load cell, .returned r⟩ ∈ labels →
    eventsOf labels i n = [.began, .loaded cell r, .returned r]
  /-- What is loaded is the word of the chain at that time. -/
  current : ∀ pre post i n call cell v, labels = pre ++ ⟨i, n, call, .loaded cell v⟩ :: post →
    call = .load cell ∧ cell < size ∧ v = wordAfter (commitsOf cell pre)
      ∧ commitsOf cell pre <+: commitsOf cell labels
  /-- The loads of one word that a thread makes never go back along its chain. -/
  forward : ∀ pre post pre' post' i n n' cell v v', n ≤ n' →
    labels = pre ++ ⟨i, n, .load cell, .loaded cell v⟩ :: post →
    labels = pre' ++ ⟨i, n', .load cell, .loaded cell v'⟩ :: post' →
    commitsOf cell pre <+: commitsOf cell pre'

/-! ## Chains -/

section Chains

variable {size cell i n : Nat} {labels : List (Label w (CellCall w) (Word w))}
  {l : Label w (CellCall w) (Word w)} {cells : Cells w}

theorem commitsOf_append (labels' : List (Label w (CellCall w) (Word w))) :
    commitsOf cell (labels ++ labels') = commitsOf cell labels ++ commitsOf cell labels' :=
  List.filterMap_append

theorem commitsOf_snoc_of_none (h : l.commit? cell = none) :
    commitsOf cell (labels ++ [l]) = commitsOf cell labels := by
  simp [commitsOf, h]

theorem commitsOf_snoc_of_some {c : Commit w} (h : l.commit? cell = some c) :
    commitsOf cell (labels ++ [l]) = commitsOf cell labels ++ [c] := by
  simp [commitsOf, h]

theorem wordAfter_snoc (commits : List (Commit w)) (c : Commit w) :
    wordAfter (commits ++ [c]) = c.result := by
  simp [wordAfter]

theorem chained_zeros (size : Nat) : Chained size [] (Cells.zeros size : Cells w) where
  size_eq := Cells.size_zeros size
  first _ _ h := by cases h
  next _ := .nil
  present _ h := Cells.load?_zeros h

theorem Chained.quiet (h : Chained size labels cells) (hl : ∀ cell, l.commit? cell = none) :
    Chained size (labels ++ [l]) cells := by
  refine ⟨h.size_eq, fun cell => ?_, fun cell => ?_, fun cell => ?_⟩
  · rw [commitsOf_snoc_of_none (hl cell)]
    exact h.first cell
  · rw [commitsOf_snoc_of_none (hl cell)]
    exact h.next cell
  · rw [commitsOf_snoc_of_none (hl cell)]
    exact h.present cell

/-- A swap that has found the word `v` extends the chain of its cell by one commit. -/
theorem Chained.commit (h : Chained size labels cells) {v : Word w} {transform : Word w → Word w}
    {home : Nat} (hv : cells.load? cell = some v) : Chained size
      (labels ++ [⟨i, n, .update home transform, .committed cell v (transform v)⟩])
      (cells.store cell (transform v)) := by
  have hcell : cell < size := by
    by_contra hcell
    rw [Cells.load?_eq_none.2 (by rw [h.size_eq]; omega)] at hv
    cases hv
  -- Whatever has happened to the cell since `v` was observed, it is the end of the chain.
  have hnow : v = wordAfter (commitsOf cell labels) :=
    Option.some.inj (hv.symm.trans (h.present cell hcell))
  have hself : commitsOf cell
      (labels ++ [⟨i, n, .update home transform, .committed cell v (transform v)⟩])
        = commitsOf cell labels ++ [⟨i, n, transform, v⟩] :=
    commitsOf_snoc_of_some (by simp [Label.commit?])
  have hother : ∀ other, other ≠ cell → commitsOf other
      (labels ++ [⟨i, n, .update home transform, .committed cell v (transform v)⟩])
        = commitsOf other labels :=
    fun other hne => commitsOf_snoc_of_none (by simp [Label.commit?, Ne.symm hne])
  refine ⟨by rw [Cells.size_store, h.size_eq], fun other => ?_, fun other => ?_, fun other hlt => ?_⟩
  · rcases eq_or_ne other cell with rfl | hne
    · rw [hself]
      rcases hcommits : commitsOf other labels with _ | ⟨c, commits⟩
      · intro c hc
        cases hc
        simp [hnow, hcommits, wordAfter]
      · intro d hd
        cases hd
        exact h.first other c (by rw [hcommits]; rfl)
    · rw [hother other hne]
      exact h.first other
  · rcases eq_or_ne other cell with rfl | hne
    · rw [hself, List.isChain_append]
      refine ⟨h.next other, .singleton _, fun c hc d hd => ?_⟩
      cases hd
      rw [hnow, wordAfter, hc]
      rfl
    · rw [hother other hne]
      exact h.next other
  · rw [Cells.load?_store]
    rcases eq_or_ne other cell with rfl | hne
    · rw [hself, wordAfter_snoc, if_pos ⟨rfl, by rwa [h.size_eq]⟩]
      rfl
    · rw [hother other hne, if_neg (fun heq => hne heq.1.symm)]
      exact h.present other hlt

end Chains

/-! ## The ways of the calls -/

section Paths

variable {stops : Ending (Word w) → Bool} {a b : Active w (CellCall w) (Word w)}
  {es : List (Event w (Word w))} {cell : Nat}

theorem Active.Follows.cell_load (h : a.Follows es b) (ha : a.rest = .read cell .ret) :
    (es = [] ∧ b = a) ∨ ∃ v, es = [.loaded cell v] ∧ b.rest = .ret v := by
  rcases h.of_read ha with hstart | ⟨v, es', rfl, hload⟩
  · exact .inl hstart
  · obtain ⟨rfl, rfl⟩ := hload.of_ret rfl
    exact .inr ⟨v, rfl, rfl⟩

theorem Active.Follows.cell_update {transform : Word w → Word w} (h : a.Follows es b)
    (ha : a.rest = .modify cell transform .ret) :
    ((∀ e ∈ es, e.isAttempt = true) ∧ b.rest = a.rest) ∨ ∃ tries v,
      es = tries ++ [.committed cell v (transform v)] ∧ (∀ e ∈ tries, e.isAttempt = true)
        ∧ b.rest = .ret v := by
  rcases h.of_modify ha with htries | ⟨tries, v, es', rfl, htries, hf⟩
  · exact .inl htries
  · obtain ⟨rfl, rfl⟩ := hf.of_ret rfl
    exact .inr ⟨tries, v, rfl, htries, rfl⟩

/-- A call is before its only access to a cell, or it has its answer. -/
theorem Active.Follows.cell_call {call : CellCall w}
    (h : ((Cells.users w stops).opening call).Follows es a) :
    a.rest = call.code ∨ ∃ v, a.rest = .ret v := by
  cases call with
  | load cell =>
    rcases h.cell_load rfl with ⟨-, rfl⟩ | ⟨v, -, hr⟩
    · exact .inl rfl
    · exact .inr ⟨v, hr⟩
  | update cell transform =>
    rcases h.cell_update rfl with ⟨-, hr⟩ | ⟨_, v, -, -, hr⟩
    · exact .inl hr
    · exact .inr ⟨v, hr⟩

end Paths

/-! ## Runs -/

section Runs

variable {stops : Ending (Word w) → Bool} {size i n : Nat} {locks : Nat}
  {calls : List (List (CellCall w))} {labels : List (Label w (CellCall w) (Word w))}
  {m : Machine w (CellCall w) (Word w)}

theorem Run.rest_cases (h : Run (Cells.users w stops) (.start (.fresh size locks) calls) labels m)
    {t : Thread w (CellCall w) (Word w)} {a : Active w (CellCall w) (Word w)}
    (ht : m.threads[i]? = some t) (hc : t.current = some a) :
    a.rest = a.call.code ∨ ∃ v, a.rest = .ret v := by
  obtain ⟨es, -, hf⟩ := (h.traced.2 i t ht).current a hc
  exact hf.cell_call

theorem CellCall.code_eq_modify {call : CellCall w} {cell : Nat} {transform : Word w → Word w}
    {next : Word w → Prog w (Word w)}
    (h : .modify cell transform next = call.code ∨ ∃ v, Prog.modify cell transform next = .ret v) :
    call = .update cell transform := by
  rcases h with h | ⟨v, h⟩
  · cases call with
    | load => cases h
    | update =>
      cases h
      rfl
  · cases h

theorem Run.chained (h : Run (Cells.users w stops) (.start (.fresh size locks) calls) labels m) :
    Chained size labels m.store.cells := by
  refine h.of_moves (fun labels m => Chained size labels m.store.cells) (chained_zeros size) ?_
  intro labels m mishap i t call e store t' hr ih ht hm
  cases hm with
  | begins hc hw => exact ih.quiet fun cell => by cases call <;> rfl
  | @returns a r hc hr => exact ih.quiet fun cell => by cases a.call <;> rfl
  | @panics a hc hd =>
    show Chained size _ (m.store.abandon a.held).cells
    rw [Store.cells_abandon]
    exact ih.quiet fun cell => by cases a.call <;> rfl
  | @passes a a' _ hc hp hf =>
    have hrest := hr.rest_cases ht hc
    cases hp with
    | committed hr' hs =>
      rw [hr'] at hrest
      rw [CellCall.code_eq_modify hrest]
      exact ih.commit hf
    | stored old hr' =>
      rw [hr'] at hrest
      rcases hrest with h | ⟨v, h⟩
      · cases hcall : a.call <;> rw [hcall] at h <;> cases h
      · cases h
    | _ => exact ih.quiet fun cell => by cases a.call <;> rfl

theorem Run.call_of_commit (h : Run (Cells.users w stops) (.start (.fresh size locks) calls) labels m)
    {l : Label w (CellCall w) (Word w)} (hl : l ∈ labels) {cell : Nat} {previous new : Word w}
    (he : l.event = .committed cell previous new) :
    ∃ transform, l.call = .update cell transform ∧ new = transform previous := by
  obtain ⟨pre, post, rfl⟩ := List.append_of_mem hl
  obtain ⟨m₁, mishap, t, store, t', hr, ht, hm, -⟩ := h.split rfl
  rw [he] at hm
  generalize l.call = call at hm
  cases hm with
  | passes hc hp hf =>
    have hrest := hr.rest_cases ht hc
    cases hp with
    | @committed _ transform next _ hr' hs =>
      rw [hr'] at hrest
      exact ⟨transform, CellCall.code_eq_modify hrest, rfl⟩

theorem Run.load_current (h : Run (Cells.users w stops) (.start (.fresh size locks) calls) labels m)
    {pre post : List (Label w (CellCall w) (Word w))} {call : CellCall w} {cell : Nat} {v : Word w}
    (hsplit : labels = pre ++ ⟨i, n, call, .loaded cell v⟩ :: post) :
    call = .load cell ∧ cell < size ∧ v = wordAfter (commitsOf cell pre) := by
  obtain ⟨m₁, mishap, t, store, t', hr, ht, hm, -⟩ := h.split hsplit
  have hv := hm.fits
  have hchained := hr.chained
  have hcell : cell < size := by
    by_contra hcell
    rw [Event.Fits, Cells.load?_eq_none.2 (by rw [hchained.size_eq]; omega)] at hv
    cases hv
  refine ⟨?_, hcell, Option.some.inj (hv.symm.trans (hchained.present cell hcell))⟩
  generalize hl : (⟨i, n, call, .loaded cell v⟩ : Label w (CellCall w) (Word w)) = l at hm
  obtain rfl : call = l.call := by rw [← hl]
  have he : l.event = .loaded cell v := by rw [← hl]
  rw [he] at hm
  generalize l.call = call at hm ⊢
  cases hm with
  | @passes a a' _ hc hp hf =>
    have hrest := hr.rest_cases ht hc
    cases hp with
    | loaded _ hr' =>
      rw [hr'] at hrest
      rcases hrest with h | ⟨v, h⟩
      · cases hcall : a.call <;> rw [hcall] at h <;> cases h
        rfl
      · cases h

theorem filter_commitsOf (cell i n : Nat) : ∀ labels : List (Label w (CellCall w) (Word w)),
    (commitsOf cell labels).filter (fun c => c.thread == i && c.number == n)
      = commitsOf cell (labelsOf labels i n)
  | [] => rfl
  | l :: labels => by
    have ih := filter_commitsOf cell i n labels
    have hcommit : ∀ c, l.commit? cell = some c → c.thread = l.thread ∧ c.number = l.number := by
      intro c hc
      unfold Label.commit? at hc
      split at hc
      · split at hc <;> cases hc
        exact ⟨rfl, rfl⟩
      · cases hc
    simp only [commitsOf, labelsOf, List.filterMap_cons, List.filter_cons] at ih ⊢
    rcases hc : l.commit? cell with _ | c
    · cases hmine : l.thread == i && l.number == n <;> simp [ih, hc]
    · obtain ⟨hthread, hnumber⟩ := hcommit c hc
      simp only [List.filter_cons, hthread, hnumber]
      cases hmine : l.thread == i && l.number == n <;> simp [ih, hc]

theorem commitsOf_attempts {cell : Nat} {call : CellCall w} {es : List (Event w (Word w))}
    (h : ∀ e ∈ es, e.isAttempt = true) : commitsOf cell (es.map (Label.mk i n call)) = [] := by
  refine List.filterMap_eq_nil_iff.2 fun l hl => ?_
  obtain ⟨e, he, rfl⟩ := List.mem_map.1 hl
  have := h e he
  cases call <;> cases e <;> simp_all [Label.commit?, Event.isAttempt]

theorem Active.Follows.commits_le_one {call : CellCall w} {es : List (Event w (Word w))}
    {b : Active w (CellCall w) (Word w)} (h : ((Cells.users w stops).opening call).Follows es b)
    (cell : Nat) : (commitsOf cell (es.map (Label.mk i n call))).length ≤ 1 := by
  cases call with
  | load other =>
    have hnone : commitsOf cell (es.map (Label.mk i n (CellCall.load other))) = [] := by
      refine List.filterMap_eq_nil_iff.2 fun l hl => ?_
      obtain ⟨e, -, rfl⟩ := List.mem_map.1 hl
      rfl
    rw [hnone]
    exact Nat.zero_le 1
  | update other transform =>
    rcases h.cell_update rfl with ⟨htries, -⟩ | ⟨tries, v, rfl, htries, -⟩
    · rw [commitsOf_attempts htries]
      exact Nat.zero_le 1
    · rw [List.map_append, commitsOf_append, commitsOf_attempts htries]
      exact List.length_filterMap_le _ _

theorem Active.Follows.loads_le_one {call : CellCall w} {es : List (Event w (Word w))}
    {b : Active w (CellCall w) (Word w)} (h : ((Cells.users w stops).opening call).Follows es b) :
    (es.filterMap Event.load?).length ≤ 1 := by
  have hattempts : ∀ tries : List (Event w (Word w)), (∀ e ∈ tries, e.isAttempt = true) →
      tries.filterMap Event.load? = [] := fun tries htries =>
    List.filterMap_eq_nil_iff.2 fun e he => by
      have := htries e he
      cases e <;> simp_all [Event.load?, Event.isAttempt]
  cases call with
  | load cell =>
    rcases h.cell_load rfl with ⟨rfl, -⟩ | ⟨v, rfl, -⟩
    · exact Nat.zero_le 1
    · exact Nat.le_refl 1
  | update cell transform =>
    rcases h.cell_update rfl with ⟨htries, -⟩ | ⟨tries, v, rfl, htries, -⟩
    · rw [hattempts es htries]
      exact Nat.zero_le 1
    · rw [List.filterMap_append, hattempts tries htries]
      exact Nat.zero_le 1

theorem Run.loads_le_one (h : Run (Cells.users w stops) (.start (.fresh size locks) calls) labels m)
    {l : Label w (CellCall w) (Word w)} (hl : l ∈ labels) :
    ((eventsOf labels l.thread l.number).filterMap Event.load?).length ≤ 1 := by
  obtain ⟨es, b, hf, hes⟩ := h.events_of_label hl
  have hle := hf.loads_le_one
  rcases hes with heq | ⟨r, -, heq⟩ | ⟨-, heq⟩ <;>
    simpa [heq, List.filterMap_cons, Event.load?] using hle

theorem Run.commits_le_one
    (h : Run (Cells.users w stops) (.start (.fresh size locks) calls) labels m) (cell i n : Nat) :
    ((commitsOf cell labels).filter fun c => c.thread == i && c.number == n).length ≤ 1 := by
  rw [filter_commitsOf]
  rcases hcall : labelsOf labels i n with _ | ⟨l, rest⟩
  · exact Nat.zero_le 1
  · obtain ⟨hl, rfl, rfl⟩ := mem_labelsOf.1 (hcall ▸ List.mem_cons_self : l ∈ labelsOf labels i n)
    obtain ⟨es, b, hf, hes⟩ := h.events_of_label hl
    have hle := hf.commits_le_one (i := l.thread) (n := l.number) cell
    have hquiet : ∀ e : Event w (Word w), e = .began ∨ (∃ r, e = .returned r) ∨ e = .panicked →
        (Label.mk l.thread l.number l.call e).commit? cell = none := by
      rintro e (rfl | ⟨r, rfl⟩ | rfl) <;> cases l.call <;> rfl
    rw [← hcall, h.labelsOf_eq hl]
    rcases hes with heq | ⟨r, -, heq⟩ | ⟨-, heq⟩ <;>
      simpa [heq, commitsOf, hquiet] using hle

/-- A thread that loads a word in a later call loads it at a later time. -/
theorem Run.loads_forward
    (h : Run (Cells.users w stops) (.start (.fresh size locks) calls) labels m)
    {pre post pre' post' : List (Label w (CellCall w) (Word w))} {l l' : Label w (CellCall w) (Word w)}
    (hsplit : labels = pre ++ l :: post) (hsplit' : labels = pre' ++ l' :: post')
    (hthread : l.thread = l'.thread) (hnumber : l.number ≤ l'.number)
    (hload : l.event.load? ≠ none) (hload' : l'.event.load? ≠ none) : pre <+: pre' := by
  rcases List.append_eq_append_iff.1 (hsplit.symm.trans hsplit') with
    ⟨mid, rfl, -⟩ | ⟨mid, rfl, hmid⟩
  · exact List.prefix_append _ _
  · rcases mid with _ | ⟨l'', mid⟩
    · simp
    · -- The load of the later call would come first, so both would be of one call.
      obtain ⟨rfl, rfl⟩ := List.cons.inj hmid
      have hpair := h.numbers_le
      rw [hsplit] at hpair
      have hle : l'.number ≤ l.number :=
        (List.pairwise_append.1 hpair).2.2 l' (by simp) l (by simp) hthread.symm
      have hone := h.loads_le_one (l := l) (by simp [hsplit])
      obtain ⟨x, hx⟩ := Option.ne_none_iff_exists'.1 hload
      obtain ⟨x', hx'⟩ := Option.ne_none_iff_exists'.1 hload'
      have hnumbers : l'.number = l.number := by omega
      simp [hsplit, eventsOf, labelsOf, hthread, hnumbers, hx, hx', List.filter_append] at hone
      omega

end Runs

/-- Threads that load and update the words of a row linearise, however they interleave. -/
theorem cells_linearize {stops : Ending (Word w) → Bool} {size locks : Nat}
    {calls : List (List (CellCall w))} {labels : List (Label w (CellCall w) (Word w))}
    {m : Machine w (CellCall w) (Word w)}
    (h : Run (Cells.users w stops) (.start (.fresh size locks) calls) labels m) :
    CellsRun size labels m := by
  refine ⟨h.chained, fun l hl cell previous new he => h.call_of_commit hl he,
    fun i n cell transform r hl => ?_, h.commits_le_one, fun i n cell r hl => ?_,
    fun pre post i n call cell v hsplit => ?_,
    fun pre post pre' post' i n n' cell v v' hle hsplit hsplit' => ?_⟩
  · obtain ⟨es, b, hes, hf, hr⟩ := h.events_of_returned hl
    rcases hf.cell_update rfl with ⟨-, hrest⟩ | ⟨tries, v, rfl, htries, hret⟩
    · rw [hrest] at hr
      cases hr
    · obtain rfl := Prog.ret.inj (hret.symm.trans hr)
      refine ⟨⟨tries, htries, by simpa using hes⟩, ?_⟩
      rw [filter_commitsOf, h.labelsOf_eq hl]
      have hnone : commitsOf cell (tries.map (Label.mk i n (.update cell transform))) = [] :=
        commitsOf_attempts htries
      simp only [commitsOf] at hnone
      simp [commitsOf, Label.commit?, List.filterMap_cons, hes, hnone]
  · obtain ⟨es, b, hes, hf, hr⟩ := h.events_of_returned hl
    rcases hf.cell_load rfl with ⟨-, rfl⟩ | ⟨v, rfl, hret⟩
    · cases hr
    · obtain rfl := Prog.ret.inj (hret.symm.trans hr)
      exact hes
  · obtain ⟨hcall, hcell, hv⟩ := h.load_current hsplit
    refine ⟨hcall, hcell, hv, ?_⟩
    rw [hsplit, commitsOf_append]
    exact List.prefix_append _ _
  · obtain ⟨mid, rfl⟩ := h.loads_forward hsplit hsplit' rfl hle (by simp [Event.load?])
      (by simp [Event.load?])
    rw [commitsOf_append]
    exact List.prefix_append _ _

/-- While the first thread holds the word that it has seen, the second changes the word and changes it
back, by transforms that do not commute; a swap of the first fails spuriously, then it commits. -/
theorem cells_linearize_aba : ∃ (labels : List (Label .w8 (CellCall .w8) (Word .w8)))
    (m : Machine .w8 (CellCall .w8) (Word .w8)),
      Run (Cells.users .w8 fun _ => false) (.start (.fresh 2 0)
        [[.update 1 fun v => 2 * v + 1, .load 1], [.update 1 (· + 3), .update 1 (· - 3)]]) labels m
      ∧ CellsRun 2 labels m
      ∧ (commitsOf 1 labels).map (fun c => (c.thread, c.previous, c.result))
        = [(1, 0, 3), (1, 3, 0), (0, 0, 1)]
      ∧ eventsOf labels 0 0
        = [.began, .observed 1 0, .missed 1 0 0, .committed 1 0 1, .returned 0]
      ∧ eventsOf labels 0 1 = [.began, .loaded 1 1, .returned 1] := by
  obtain ⟨⟨labels, m⟩, hf, hlabels⟩ :
      ∃ r : List (Label .w8 (CellCall .w8) (Word .w8)) × Machine .w8 (CellCall .w8) (Word .w8),
        (Cells.users .w8 fun _ => false).follow (.start (.fresh 2 0)
            [[.update 1 fun v => 2 * v + 1, .load 1], [.update 1 (· + 3), .update 1 (· - 3)]])
          [⟨0, .none⟩, ⟨0, .none⟩, ⟨1, .none⟩, ⟨1, .none⟩, ⟨1, .none⟩, ⟨1, .none⟩, ⟨1, .none⟩,
            ⟨1, .none⟩, ⟨1, .none⟩, ⟨1, .none⟩, ⟨0, .spuriousFailure⟩, ⟨0, .none⟩, ⟨0, .none⟩,
            ⟨0, .none⟩, ⟨0, .none⟩, ⟨0, .none⟩] = some r
        ∧ (commitsOf 1 r.1).map (fun c => (c.thread, c.previous, c.result))
          = [(1, 0, 3), (1, 3, 0), (0, 0, 1)]
        ∧ eventsOf r.1 0 0
          = [.began, .observed 1 0, .missed 1 0 0, .committed 1 0 1, .returned 0]
        ∧ eventsOf r.1 0 1 = [.began, .loaded 1 1, .returned 1] :=
    ⟨_, rfl, rfl, rfl, rfl⟩
  have hrun := Run.of_follow .start hf
  exact ⟨labels, m, hrun, cells_linearize hrun, hlabels⟩

end SharedBits
