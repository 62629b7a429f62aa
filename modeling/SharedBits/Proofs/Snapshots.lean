import Mathlib.Order.Monotone.Basic
import SharedBits.Proofs.Counting
import SharedBits.Proofs.Paths
import SharedBits.Proofs.Ways

/-!
# Counts while other threads change the bits

A count loads the words one after another, and other threads may change them meanwhile. What it gives is
then the sum of what each word held at its own moment, the moments in the order of the words, all of
them within the call; under one lock over all words nobody can change a word between the first load and
the last, and the count is that of a single moment. `CountedWithin` says so of what a count gives, and
`count_within` that it holds in every run without a panic.
-/

namespace SharedBits

variable {w : Width} {κ ρ : Type}

/-- What a count of `start.capacity` bits may give: `start` are the bits when it begins, `during` the
steps that all threads take until it returns. -/
structure CountedWithin (s : Strategy) (start : Plain) (during : List (Label w Call Reply))
    (ones : Nat) : Prop where
  /-- Under one lock, all bits are counted at one moment. -/
  snapshot : s ∈ [Strategy.fullMutex, .globalRwLock] →
    ∃ t ≤ during.length, ones = (start.after (during.take t)).ones
  /-- Every word is counted at its own moment, later words at later moments. -/
  wordwise : ∃ moment : Nat → Nat, Monotone moment ∧ (∀ k, moment k ≤ during.length)
    ∧ ones = ∑ k ∈ Finset.range (wordsFor w start.capacity),
      ((start.after (during.take (moment k))).word w k).ones
  le_capacity : ones ≤ start.capacity
  sets : (∀ change ∈ history during, change.1 = .set) →
    start.ones ≤ ones ∧ ones ≤ (start.after during).ones
  clears : (∀ change ∈ history during, change.1 = .clear) →
    (start.after during).ones ≤ ones ∧ ones ≤ start.ones

/-! ## Bits that only come, and bits that only go -/

namespace Plain

/-- Every bit of the first is one of the second. -/
def Within (p q : Plain) : Prop := p.capacity = q.capacity ∧ ∀ i, p.bit i = true → q.bit i = true

variable {p q : Plain}

theorem Within.refl (p : Plain) : p.Within p := ⟨rfl, fun _ h => h⟩

theorem Within.trans {r : Plain} (h : p.Within q) (h' : q.Within r) : p.Within r :=
  ⟨h.1.trans h'.1, fun i hi => h'.2 i (h.2 i hi)⟩

theorem Within.ones_word_le (h : p.Within q) (k : Nat) :
    (p.word w k).ones ≤ (q.word w k).ones := by
  rw [ones_word, ones_word]
  refine Finset.sum_le_sum fun j _ => Bool.toNat_le_toNat fun hj => ?_
  exact h.2 _ hj

theorem within_update_set (p : Plain) (i : Nat) : p.Within (p.update .set i) := by
  refine ⟨(p.capacity_update .set i).symm, fun j hj => ?_⟩
  rcases Nat.lt_or_ge i p.capacity with hi | hi
  · rw [bit_update p .set i j hi]
    split
    · rfl
    · exact hj
  · rwa [update_of_ge hi]

theorem update_clear_within (p : Plain) (i : Nat) : (p.update .clear i).Within p := by
  refine ⟨p.capacity_update .clear i, fun j hj => ?_⟩
  rcases Nat.lt_or_ge i p.capacity with hi | hi
  · rw [bit_update p .clear i j hi] at hj
    split at hj
    · cases hj
    · exact hj
  · rwa [update_of_ge hi] at hj

theorem within_updateAll : ∀ {us : List (BitOp × Nat)} {p : Plain}, (∀ u ∈ us, u.1 = .set) →
    p.Within (p.updateAll us)
  | [], p, _ => .refl p
  | (op, i) :: us, p, h => by
    obtain ⟨rfl, htail⟩ := List.forall_mem_cons.1 h
    exact (p.within_update_set i).trans (within_updateAll htail)

theorem updateAll_within : ∀ {us : List (BitOp × Nat)} {p : Plain}, (∀ u ∈ us, u.1 = .clear) →
    (p.updateAll us).Within p
  | [], p, _ => .refl p
  | (op, i) :: us, p, h => by
    obtain ⟨rfl, htail⟩ := List.forall_mem_cons.1 h
    exact (updateAll_within htail).trans (p.update_clear_within i)

theorem within_full (p : Plain) : p.Within ⟨List.replicate p.capacity true⟩ := by
  refine ⟨by simp [capacity], fun i hi => ?_⟩
  rcases Nat.lt_or_ge i p.capacity with hlt | hge
  · simp [bit, hlt]
  · rw [bit_of_ge hge] at hi
    cases hi

end Plain

namespace CountedWithin

variable {s : Strategy} {start : Plain} {during : List (Label w Call Reply)} {ones : Nat}

/-- The bounds follow from when the words were counted. -/
theorem of_wordwise
    (snapshot : s ∈ [Strategy.fullMutex, .globalRwLock] →
      ∃ t ≤ during.length, ones = (start.after (during.take t)).ones)
    (wordwise : ∃ moment : Nat → Nat, Monotone moment ∧ (∀ k, moment k ≤ during.length)
      ∧ ones = ∑ k ∈ Finset.range (wordsFor w start.capacity),
        ((start.after (during.take (moment k))).word w k).ones) :
    CountedWithin s start during ones := by
  obtain ⟨moment, hmono, hle, hsum⟩ := wordwise
  have hsplit : ∀ t, start.after during = (start.after (during.take t)).after (during.drop t) := by
    intro t
    rw [← Plain.after_append, List.take_append_drop]
  have hbelow : ∀ q : Plain, (∀ k, q.Within (start.after (during.take (moment k)))) →
      q.ones ≤ ones := by
    intro q hall
    have hq : q.capacity = start.capacity := (hall 0).1.trans Plain.capacity_after
    rw [hsum, ← q.sum_ones_word (w := w), hq]
    exact Finset.sum_le_sum fun k _ => (hall k).ones_word_le k
  have habove : ∀ q : Plain, (∀ k, (start.after (during.take (moment k))).Within q) →
      ones ≤ q.ones := by
    intro q hall
    have hq : start.capacity = q.capacity := Plain.capacity_after.symm.trans (hall 0).1
    rw [hsum, ← q.sum_ones_word (w := w), hq]
    exact Finset.sum_le_sum fun k _ => (hall k).ones_word_le k
  refine ⟨snapshot, ⟨moment, hmono, hle, hsum⟩, ?_, fun hsets => ⟨?_, ?_⟩, fun hclears => ⟨?_, ?_⟩⟩
  · refine (habove ⟨List.replicate start.capacity true⟩ fun k => ?_).trans ?_
    · have hfull := (start.after (during.take (moment k))).within_full
      rwa [Plain.capacity_after] at hfull
    · exact (Plain.ones_le_capacity _).trans (by simp [Plain.capacity])
  · exact hbelow start fun k =>
      Plain.within_updateAll fun u hu => hsets u (history_subset (List.take_sublist ..) hu)
  · refine habove _ fun k => ?_
    rw [hsplit (moment k)]
    exact Plain.within_updateAll fun u hu => hsets u (history_subset (List.drop_sublist ..) hu)
  · refine hbelow _ fun k => ?_
    rw [hsplit (moment k)]
    exact Plain.updateAll_within fun u hu => hclears u (history_subset (List.drop_sublist ..) hu)
  · exact habove start fun k =>
      Plain.updateAll_within fun u hu => hclears u (history_subset (List.take_sublist ..) hu)

end CountedWithin

/-! ## Moments -/

/-- What a list gives, entry by entry, it gives at places that lie one after another. -/
theorem exists_moments {S T : Type} (g : S → Option T) : ∀ l : List S, ∃ moment : Nat → Nat,
    Monotone moment ∧ (∀ k, moment k ≤ l.length) ∧ ∀ k x, (l.filterMap g)[k]? = some x →
      ∃ y post, l = l.take (moment k) ++ y :: post ∧ g y = some x
  | [] => ⟨fun _ => 0, monotone_const, fun _ => Nat.le_refl 0, fun k x hx => by simp at hx⟩
  | y :: l => by
    obtain ⟨moment, hmono, hle, hat⟩ := exists_moments g l
    have hlater : ∀ k x, (l.filterMap g)[k]? = some x → ∃ z post,
        y :: l = (y :: l).take (moment k + 1) ++ z :: post ∧ g z = some x := by
      intro k x hx
      obtain ⟨z, post, hsplit, hz⟩ := hat k x hx
      exact ⟨z, post, by rw [List.take_succ_cons, List.cons_append, ← hsplit], hz⟩
    rcases hy : g y with _ | b
    · refine ⟨fun k => moment k + 1, fun j k hjk => Nat.succ_le_succ (hmono hjk),
        fun k => Nat.succ_le_succ (hle k), fun k x hx => hlater k x ?_⟩
      rwa [List.filterMap_cons_none hy] at hx
    · refine ⟨fun k => k.casesOn 0 fun k => moment k + 1, monotone_nat_of_le_succ fun k => ?_,
        fun k => ?_, fun k x hx => ?_⟩
      · cases k with
        | zero => exact Nat.zero_le _
        | succ k => exact Nat.succ_le_succ (hmono (Nat.le_succ k))
      · cases k with
        | zero => exact Nat.zero_le _
        | succ k => exact Nat.succ_le_succ (hle k)
      · rw [List.filterMap_cons_some hy] at hx
        cases k with
        | zero =>
          obtain rfl : b = x := by simpa using hx
          exact ⟨y, l, rfl, hy⟩
        | succ k => exact hlater k x (by simpa using hx)

section Runs

variable {s : Strategy} {p : Plain} {stops : Ending Reply → Bool} {calls : List (List Call)}
  {labels pre mid post : List (Label w Call Reply)} {m : Machine w Call Reply} {i n : Nat}

theorem Run.words_of_loads (hs : s.isSynchronized = true)
    (h : Run ((p.bitSet s w).callers stops) (.start (p.bitSet s w).store calls) labels m)
    (hsplit : labels = pre ++ (mid ++ post)) {words : List (Word w)}
    (hlength : words.length = wordsFor w p.capacity) (hloads : Prog.Loads (eventsOf mid i n) 0 words) :
    ∃ moment : Nat → Nat, Monotone moment ∧ (∀ k, moment k ≤ mid.length)
      ∧ words = (List.range (wordsFor w p.capacity)).map fun k =>
        ((p.after pre).after (mid.take (moment k))).word w k := by
  have hfilter : mid.filterMap (fun l => if l.thread == i && l.number == n then l.event.load? else none)
      = (words.zipIdx 0).map Prod.swap := by
    rw [← hloads, eventsOf, labelsOf, List.filterMap_map, List.filterMap_filter]
    rfl
  obtain ⟨moment, hmono, hle, hat⟩ := exists_moments
    (fun l : Label w Call Reply => if l.thread == i && l.number == n then l.event.load? else none) mid
  refine ⟨moment, hmono, hle, List.ext_getElem (by simpa using hlength) fun k hk hk' => ?_⟩
  obtain ⟨l, rest, hmid, hl⟩ := hat k (k, words[k]) (by
    rw [hfilter, List.getElem?_map, List.getElem?_zipIdx, List.getElem?_eq_getElem hk]
    simp)
  have hload : l.event = .loaded k words[k] := by
    split at hl
    · cases he : l.event <;> rw [he] at hl <;> cases hl
      rfl
    · cases hl
  have hwhole : labels = (pre ++ mid.take (moment k)) ++ l :: (rest ++ post) := by
    rw [hsplit, List.append_assoc]
    conv_lhs => rw [hmid]
    simp
  obtain ⟨m₁, mishap, t, store, t', hr, ht, hm, -⟩ := h.split hwhole
  have hfits := hm.fits
  rw [hload, Event.Fits, hr.cells_bitSet hs, Plain.load?_packed _ (by simpa [hlength] using hk)] at hfits
  rw [List.getElem_map, List.getElem_range, ← Plain.after_append]
  exact (Option.some.inj hfits).symm

theorem sum_ones_map {N : Nat} {word : Nat → Word w} {words : List (Word w)}
    (h : words = (List.range N).map word) :
    (words.map Word.ones).sum = ∑ k ∈ Finset.range N, (word k).ones := by
  rw [h, List.map_map]
  rfl

theorem Active.Follows.held_of_reading {a b : Active w κ ρ} {es : List (Event w ρ)}
    (h : a.Follows es b) (hes : ∀ e ∈ es, e.isReading = true) : b.held = a.held := by
  induction h with
  | nil => rfl
  | cons hp hf ih =>
    obtain ⟨he, hrest⟩ := List.forall_mem_cons.1 hes
    rw [ih hrest]
    cases hp <;> first | rfl | cases he

/-- While a count reads under the lock of all words, no bit changes. -/
theorem Run.history_of_reading {reading : Mode} (hs : s.isSynchronized = true)
    (hd : s.discipline = .locked .whole reading)
    (h : Run ((p.bitSet s w).callers stops) (.start (p.bitSet s w).store calls) labels m)
    (hsplit : labels = pre ++ (mid ++ post)) (hbegan : ⟨i, n, .count, .began⟩ ∈ pre)
    (hpre : eventsOf pre i n = [.began, .acquired ⟨0, reading⟩ false])
    (hmid : ∀ e ∈ eventsOf mid i n, e.isReading = true) : history mid = [] := by
  refine List.filterMap_eq_nil_iff.2 fun l hl => ?_
  obtain ⟨x, y, rfl⟩ := List.append_of_mem hl
  rw [eventsOf_append] at hmid
  have hx : ∀ e ∈ eventsOf x i n, e.isReading = true :=
    fun e he => hmid e (List.mem_append_left _ he)
  have hwhole : labels = (pre ++ x) ++ l :: (y ++ post) := by rw [hsplit]; simp
  obtain ⟨m₁, mishap, t, store, t', hr, ht, hm, -⟩ := h.split hwhole
  have hevents : eventsOf (pre ++ x) i n
      = .began :: .acquired ⟨0, reading⟩ false :: eventsOf x i n := by
    rw [eventsOf_append, hpre]
    rfl
  obtain ⟨es, u, a, heq, hu, hc, hf⟩ := hr.current_of_label (l := ⟨i, n, .count, .began⟩)
    (List.mem_append_left _ hbegan)
    (fun r hmem => by
      rw [hevents] at hmem
      simpa [Event.isReading] using hx (.returned r) (by simpa using hmem))
    (fun hmem => by
      rw [hevents] at hmem
      simpa [Event.isReading] using hx .panicked (by simpa using hmem))
  obtain rfl : .acquired ⟨0, reading⟩ false :: eventsOf x i n = es :=
    (List.cons.inj (hevents.symm.trans heq)).2
  -- The count has done nothing but read since it took the lock, so it still holds it.
  have hheld : ⟨0, reading⟩ ∈ u.held := by
    cases hf with
    | cons hp hf =>
      rw [Thread.held_of_current hc, hf.held_of_reading hx]
      cases hp
      exact List.mem_cons_self ..
  rcases l.change?_eq_none_or with hnone | ⟨⟨op, k, hcall⟩, hwrite⟩
  · exact hnone
  · exfalso
    by_cases hthread : l.thread = i
    · rw [hthread] at ht
      obtain rfl := Option.some.inj (ht.symm.trans hu)
      rw [hm.call_eq hc, hf.call_eq] at hcall
      cases hcall
    · rw [(hr.recorded_bitSet hs).1.not_isWrite hd hthread ht hu hm hheld] at hwrite
      cases hwrite

/-- A count under one lock over all words counts the bits of one moment. -/
theorem Run.snapshot {reading : Mode} (hs : s.isSynchronized = true)
    (hd : s.discipline = .locked .whole reading)
    (h : Run ((p.bitSet s w).callers stops) (.start (p.bitSet s w).store calls) labels m)
    {before during after : List (Label w Call Reply)} {es : List (Event w Reply)}
    {counted : Except Error Nat} (hsplit : labels = before ++ ⟨i, n, .count, .began⟩ :: (during ++ after))
    (hbefore : labelsOf before i n = [])
    (hduring : labelsOf during i n = es.map (Label.mk i n .count))
    (hway : (s.count w p.capacity).Way es counted) (hhealthy : FindsHealthy es) :
    ∃ t ≤ during.length, counted = .ok ((p.after before).after (during.take t)).ones := by
  obtain ⟨loads, words, rfl, hreading, hlength, hloads, rfl⟩ :=
    Strategy.way_count_whole hd hway hhealthy
  simp only [List.map_cons, List.map_append, List.map_nil] at hduring
  obtain ⟨early, held, late, rfl, hearly, hheld⟩ := labelsOf_span hduring
  -- Until it takes the lock the count has done nothing; while it has the lock, nothing changes.
  have hone : ∀ e : Event w Reply, eventsOf [⟨i, n, Call.count, e⟩] i n = [e] := by
    simp [eventsOf, labelsOf]
  have hpre : eventsOf ((before ++ [⟨i, n, Call.count, .began⟩])
      ++ (early ++ [⟨i, n, Call.count, .acquired ⟨0, reading⟩ false⟩])) i n
        = [.began, .acquired ⟨0, reading⟩ false] := by
    simp only [eventsOf_append, hone]
    rw [eventsOf, hbefore, eventsOf, hearly]
    rfl
  have hwhole : labels = ((before ++ [⟨i, n, .count, .began⟩])
      ++ (early ++ [⟨i, n, .count, .acquired ⟨0, reading⟩ false⟩]))
      ++ (held ++ (⟨i, n, .count, .released ⟨0, reading⟩⟩ :: (late ++ after))) := by
    rw [hsplit]
    simp
  have hevents : eventsOf held i n = loads := eventsOf_of_labelsOf hheld
  have hquiet : history held = [] := h.history_of_reading hs hd hwhole (by simp) hpre
    fun e he => hreading e (hevents ▸ he)
  obtain ⟨moment, -, -, hwords⟩ := h.words_of_loads hs hwhole hlength (hevents ▸ hloads)
  have hsame : ∀ (q : Plain) t, q.after (held.take t) = q := by
    intro q t
    have hnone : history (held.take t) = [] :=
      List.subset_nil.1 (hquiet ▸ history_subset (List.take_sublist ..))
    rw [Plain.after, hnone]
    rfl
  have hstart : p.after (before ++ [⟨i, n, .count, .began⟩]) = p.after before :=
    Plain.after_snoc_of_none rfl
  refine ⟨early.length + 1, by simp, ?_⟩
  have htake : (early ++ ⟨i, n, .count, .acquired ⟨0, reading⟩ false⟩
      :: (held ++ ⟨i, n, .count, .released ⟨0, reading⟩⟩ :: late)).take (early.length + 1)
        = early ++ [(⟨i, n, .count, .acquired ⟨0, reading⟩ false⟩ : Label w Call Reply)] := by
    simp [List.take_append]
  simp only [hsame] at hwords
  rw [htake, sum_ones_map hwords, Plain.after_append, hstart, ← Plain.sum_ones_word (w := w)]
  simp only [Plain.capacity_after]

/-- What a count gives that has returned in a run without a panic, from any bits at the start. -/
theorem count_within (hs : s.isSynchronized = true)
    (h : Run ((p.bitSet s w).callers stops) (.start (p.bitSet s w).store calls) labels m)
    (hcalm : IsCalm labels) {r : Reply} (hl : ⟨i, n, .count, .returned r⟩ ∈ labels) :
    ∃ before during after ones,
      labels = before ++ ⟨i, n, .count, .began⟩ :: (during ++ ⟨i, n, .count, .returned r⟩ :: after)
        ∧ r = .ok (.count ones)
        ∧ (∀ t, ∃ m', Run ((p.bitSet s w).callers stops) (.start (p.bitSet s w).store calls)
            (before ++ ⟨i, n, .count, .began⟩ :: during.take t) m'
          ∧ m'.store.cells = ((p.after before).after (during.take t)).packed w)
        ∧ CountedWithin s (p.after before) during ones := by
  obtain ⟨before, during, after, es, a, hsplit, hbefore, hduring, hf, hr⟩ := h.span_of_returned hl
  have hmem : ∀ e ∈ es, (⟨i, n, .count, e⟩ : Label w Call Reply) ∈ labels := by
    intro e he
    have hl : ⟨i, n, .count, e⟩ ∈ labelsOf during i n := hduring ▸ List.mem_map_of_mem he
    simp [hsplit, (mem_labelsOf.1 hl).1]
  have hhealthy := h.findsHealthy hcalm hmem
  have hbegan : ∀ t, p.after (before ++ ⟨i, n, .count, .began⟩ :: during.take t)
      = (p.after before).after (during.take t) := by
    intro t
    rw [Plain.after_append]
    rfl
  have hmoments : ∀ t, ∃ m', Run ((p.bitSet s w).callers stops) (.start (p.bitSet s w).store calls)
      (before ++ ⟨i, n, .count, .began⟩ :: during.take t) m'
        ∧ m'.store.cells = ((p.after before).after (during.take t)).packed w := by
    intro t
    have heq : labels = (before ++ ⟨i, n, .count, .began⟩ :: during.take t)
        ++ (during.drop t ++ ⟨i, n, .count, .returned r⟩ :: after) := by
      rw [hsplit, List.append_assoc, List.cons_append, ← List.append_assoc (during.take t),
        List.take_append_drop]
    obtain ⟨m', hrun⟩ := Run.of_append (heq ▸ h)
    exact ⟨m', hrun, by rw [hrun.cells_bitSet hs, hbegan]⟩
  obtain ⟨counted, hway, rfl⟩ := Prog.Way.of_map (hf.way hr)
  obtain ⟨words, hlength, hloads, rfl⟩ := Strategy.way_count hs hway hhealthy
  rw [← eventsOf_of_labelsOf hduring] at hloads
  have hwhole : labels = (before ++ [⟨i, n, .count, .began⟩])
      ++ (during ++ ⟨i, n, .count, .returned (.ok (.count (words.map Word.ones).sum))⟩ :: after) := by
    rw [hsplit]
    simp [Except.map]
  obtain ⟨moment, hmono, hle, hwords⟩ := h.words_of_loads hs hwhole hlength hloads
  have hstart : p.after (before ++ [⟨i, n, .count, .began⟩]) = p.after before := hbegan 0
  refine ⟨before, during, after, (words.map Word.ones).sum, hsplit, rfl, hmoments,
    .of_wordwise (fun hwhole => ?_) ⟨moment, hmono, hle, ?_⟩⟩
  · obtain ⟨reading, hd⟩ : ∃ reading, s.discipline = .locked .whole reading := by
      simp only [List.mem_cons, List.not_mem_nil, or_false] at hwhole
      rcases hwhole with rfl | rfl <;> exact ⟨_, rfl⟩
    obtain ⟨t, ht, hones⟩ := h.snapshot hs hd hsplit hbefore hduring hway hhealthy
    exact ⟨t, ht, Except.ok.inj hones⟩
  · rw [Plain.capacity_after, sum_ones_map hwords, hstart]

/-- Ten bits in bytes, the first of them set. Between the two loads of a count, another thread clears
that bit and sets the last: the count is 2, though at no moment two bits are set. -/
theorem count_within_torn : ∃ (labels : List (Label .w8 Call Reply)) (m : Machine .w8 Call Reply),
    Run ((((Plain.clear 10).update .set 0).bitSet .lockFree .w8).callers fun _ => false)
      (.start (((Plain.clear 10).update .set 0).bitSet .lockFree .w8).store
        [[.count], [.update .clear 0, .update .set 9]]) labels m
      ∧ IsCalm labels ∧ ⟨0, 0, .count, .returned (.ok (.count 2))⟩ ∈ labels
      ∧ history labels = [(.clear, 0), (.set, 9)]
      ∧ ∃ before during after, labels = before ++ ⟨0, 0, .count, .began⟩
          :: (during ++ ⟨0, 0, .count, .returned (.ok (.count 2))⟩ :: after)
        ∧ CountedWithin .lockFree (((Plain.clear 10).update .set 0).after before) during 2 := by
  obtain ⟨⟨labels, m⟩, hf, hlast, hhistory, hevents⟩ :
      ∃ r : List (Label .w8 Call Reply) × Machine .w8 Call Reply,
        ((((Plain.clear 10).update .set 0).bitSet .lockFree .w8).callers fun _ => false).follow
            (.start (((Plain.clear 10).update .set 0).bitSet .lockFree .w8).store
              [[.count], [.update .clear 0, .update .set 9]])
            [⟨0, .none⟩, ⟨0, .none⟩, ⟨0, .none⟩, ⟨1, .none⟩, ⟨1, .none⟩, ⟨1, .none⟩, ⟨1, .none⟩,
              ⟨1, .none⟩, ⟨1, .none⟩, ⟨1, .none⟩, ⟨1, .none⟩, ⟨0, .none⟩, ⟨0, .none⟩, ⟨0, .none⟩]
            = some r
          ∧ r.1.getLast? = some ⟨0, 0, .count, .returned (.ok (.count 2))⟩
          ∧ history r.1 = [(.clear, 0), (.set, 9)]
          ∧ r.1.all (fun l => !l.event.isPanic) = true :=
    ⟨_, rfl, rfl, rfl, rfl⟩
  have hrun := Run.of_follow .start hf
  have hcalm : IsCalm labels := isCalm_iff.2 hevents
  have hl := List.mem_of_getLast? hlast
  obtain ⟨before, during, after, ones, hsplit, hones, -, hwithin⟩ :=
    count_within rfl hrun hcalm hl
  obtain rfl : 2 = ones := by
    cases hones
    rfl
  exact ⟨labels, m, hrun, hcalm, hl, hhistory, before, during, after, hsplit, hwithin⟩

end Runs

end SharedBits
