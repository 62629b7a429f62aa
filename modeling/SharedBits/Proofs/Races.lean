import SharedBits.Proofs.Columns
import SharedBits.Proofs.Sessions
import SharedBits.Proofs.StressRuns
import SharedBits.Race

/-!
# Races under any schedule

Where only one thread changes a bit, the bit is at every moment as that thread has left it, whatever
others have written to the same word since (`Run.bit_of_owner`). So no schedule loses the last `set` of a
thread that races with its neighbour (`RaceRun.of_settles`). A race of strategies that lose no update is one
such stint of the threads for each round of each strategy, and prints one row for each strategy, with nothing
lost (`race_never_loses`).
-/

namespace SharedBits

variable {w : Width}

/-! ## Bits of one thread -/

/-- No thread but `i` changes bit `k`. -/
def Owns (calls : List (List Call)) (i k : Nat) : Prop :=
  ∀ j, j ≠ i → ∀ op, .update op k ∉ calls.getD j []

/-- The changes that thread `i` has made to bit `k`, in their order. -/
def ownOps (labels : List (Label w Call Reply)) (i k : Nat) : List BitOp :=
  opsOn k (history (labels.filter fun l => l.thread == i))

theorem opsOn_history_filter {k : Nat} {isOwn : Label w Call Reply → Bool} :
    ∀ {labels : List (Label w Call Reply)},
      (∀ l ∈ labels, ∀ op, l.change? = some (op, k) → isOwn l = true) →
      opsOn k (history (labels.filter isOwn)) = opsOn k (history labels)
  | [], _ => rfl
  | l :: labels, h => by
    obtain ⟨hl, hlabels⟩ := List.forall_mem_cons.1 h
    have ih := opsOn_history_filter hlabels
    simp only [opsOn, history, List.filter_cons, List.filterMap_cons] at ih ⊢
    rcases hc : l.change? with _ | ⟨op, i⟩
    · cases isOwn l <;> simp [hc, ih]
    · by_cases hik : i = k
      · subst hik
        simp [hl op hc, hc, ih]
      · cases isOwn l <;> simp [hc, hik, ih]

section Runs

variable {f : Fragile} {s : Strategy} {stops : Ending Reply → Bool} {calls : List (List Call)}
  {labels : List (Label w Call Reply)} {m : Machine w Call Reply} {i k : Nat}

theorem Run.ownOps_eq {sys : System w Call Reply} {store : Store w} (hown : Owns calls i k)
    (h : Run sys (.start store calls) labels m) : ownOps labels i k = opsOn k (history labels) := by
  refine opsOn_history_filter fun l hl op hchange => ?_
  have hcall := h.call_mem_of_label hl
  rw [Label.call_of_change hchange] at hcall
  by_contra hne
  exact hown l.thread (by simpa using hne) op hcall

/-- Whatever others write to its word, a bit that only one thread changes is as that thread has left
it. -/
theorem Run.bit_of_owner (hs : s.isSynchronized = true) (hk : k < f.plain.capacity)
    (hown : Owns calls i k)
    (h : Run ((f.bitSet s w).callers stops) (.start (f.bitSet s w).store calls) labels m) :
    ∃ v, m.store.cells.load? (Address.locate w k).word = some v
      ∧ (Address.locate w k).bitIn v
        = (ownOps labels i k).foldl (fun b op => op.onBit b) (f.plain.bit k) := by
  have hcap : k < (f.plain.after labels).capacity := by rwa [Plain.capacity_after]
  rw [(h.recorded_bitSet hs).2.cells, h.ownOps_eq hown, ← Plain.bit_updateAll _ hk]
  exact ⟨_, Plain.load?_locate _ hcap, Plain.bitIn_word _ k⟩

end Runs

/-! ## Rounds -/

namespace Race

/-- The bitset that is raced on. -/
def bitSet (s : Strategy) : BitSet s.defaultWidth := (Plain.clear capacity).bitSet s s.defaultWidth

variable {burst racer bit : Nat} {s : Strategy}

theorem mem_calls {call : Call} (h : call ∈ calls burst bit) :
    call = .update .set bit ∨ call = .update .clear bit := by
  simp only [calls, List.mem_append, List.mem_flatten, List.mem_replicate, List.mem_singleton] at h
  rcases h with ⟨pair, ⟨-, rfl⟩, hpair⟩ | h
  · simpa using hpair
  · exact .inl h

theorem exists_racer_of_mem {i : Nat} {call : Call} (h : call ∈ (bits.map (calls burst)).getD i []) :
    ∃ bit, bits[i]? = some bit ∧ call ∈ calls burst bit := by
  rw [List.getD_eq_getElem?_getD, List.getElem?_map] at h
  rcases hi : bits[i]? with _ | bit
  · simp [hi] at h
  · rw [hi] at h
    exact ⟨bit, rfl, h⟩

/-- The racers work on different bits. -/
theorem owns_calls (h : bits[racer]? = some bit) : Owns (bits.map (calls burst)) racer bit := by
  intro j hj op hmem
  obtain ⟨other, hother, hcall⟩ := exists_racer_of_mem hmem
  obtain rfl : bit = other := by
    rcases mem_calls hcall with heq | heq <;> cases heq <;> rfl
  have hlt : racer < bits.length := (List.getElem?_eq_some_iff.1 h).1
  exact hj ((List.getElem?_inj hlt (by decide)).1 (h.trans hother.symm)).symm

theorem lt_capacity (h : bits[racer]? = some bit) : bit < capacity := by
  have hall : ∀ bit ∈ bits, bit < capacity := by decide
  exact hall bit (List.mem_of_getElem? h)

theorem inRange_calls (burst : Nat) : InRange capacity (bits.map (calls burst)) := by
  intro thread hthread call hcall
  obtain ⟨bit, hbit, rfl⟩ := List.mem_map.1 hthread
  obtain ⟨racer, hracer⟩ := List.getElem?_of_mem hbit
  have hlt := lt_capacity hracer
  rcases mem_calls hcall with rfl | rfl <;> simp [Call.isRefused, Call.index?, hlt]

theorem getLast?_opsOn_calls (hbit : bit < capacity) :
    (opsOn bit ((calls burst bit).filterMap (Call.change capacity))).getLast? = some .set := by
  have hlast : (calls burst bit).filterMap (Call.change capacity)
      = (List.replicate burst [Call.update .set bit, Call.update .clear bit]).flatten.filterMap
        (Call.change capacity) ++ [(.set, bit)] := by
    simp [calls, List.filterMap_append, Call.change, hbit]
  rw [hlast, opsOn, List.filter_append]
  simp

end Race

section Rounds

variable {s : Strategy} {burst racer bit : Nat} {labels : List (Label w Call Reply)}
  {m : Machine w Call Reply}

theorem flip_notMem_ownOps {sys : System w Call Reply} {store : Store w}
    (h : Run sys (.start store (Race.bits.map (Race.calls burst))) labels m) (i k : Nat) :
    .flip ∉ ownOps labels i k := by
  intro hmem
  obtain ⟨l, hl, hchange⟩ := List.mem_filterMap.1 (Plain.mem_opsOn.1 hmem)
  have hcall := h.call_mem_of_label (List.mem_filter.1 hl).1
  obtain ⟨bit, -, hcall⟩ := Race.exists_racer_of_mem hcall
  rw [Label.call_of_change hchange] at hcall
  rcases Race.mem_calls hcall with heq | heq <;> cases heq

theorem foldl_onBit_of_no_flip {ops : List BitOp} (h : .flip ∉ ops) :
    ops.foldl (fun b op => op.onBit b) false = (ops.getLast? == some .set) := by
  rcases List.eq_nil_or_concat ops with rfl | ⟨before, op, rfl⟩
  · rfl
  · rw [List.concat_eq_append] at h ⊢
    rw [List.foldl_append]
    cases op <;> simp [BitOp.onBit] at h ⊢

/-- At every moment of a race a bit is set if the last change of its own racer has set it. -/
theorem Run.bit_of_racer (hs : s.isSynchronized = true) {stops : Ending Reply → Bool}
    (h : Run (((Plain.clear Race.capacity).bitSet s w).callers stops)
      (.start ((Plain.clear Race.capacity).bitSet s w).store (Race.bits.map (Race.calls burst))) labels m)
    (hbit : Race.bits[racer]? = some bit) :
    ∃ v, m.store.cells.load? (Address.locate w bit).word = some v
      ∧ (Address.locate w bit).bitIn v = ((ownOps labels racer bit).getLast? == some .set) := by
  have hlt : bit < (Plain.clear Race.capacity).capacity := by simpa using Race.lt_capacity hbit
  obtain ⟨v, hload, hv⟩ := h.bit_of_owner (f := ⟨.clear Race.capacity, []⟩) hs hlt (Race.owns_calls hbit)
  refine ⟨v, hload, hv.trans ?_⟩
  rw [Plain.bit_clear, foldl_onBit_of_no_flip (flip_notMem_ownOps h racer bit)]

theorem EndedRun.bit_of_racer
    (h : EndedRun (.clear Race.capacity) s w (Race.bits.map (Race.calls burst)) labels m)
    (hbit : Race.bits[racer]? = some bit) : ((Plain.clear Race.capacity).after labels).bit bit = true := by
  have hlt : bit < Race.capacity := Race.lt_capacity hbit
  obtain ⟨stops, hrun⟩ := h.run
  have hcalls : (Race.bits.map (Race.calls burst)).getD racer [] = Race.calls burst bit := by
    rw [List.getD_eq_getElem?_getD, List.getElem?_map, hbit]
    rfl
  refine Plain.bit_updateAll_of_last (by simpa using hlt) (fun _ => rfl : ∀ c, BitOp.set.onBit c = true) ?_
  rw [← hrun.ownOps_eq (Race.owns_calls hbit), ownOps, history, h.changes_of_thread, hcalls,
    Plain.capacity_clear, Race.getLast?_opsOn_calls hlt]

end Rounds

open Race in
/-- A race in which no thread can go on: all calls have been made, none has been refused, and every bit that
was raced on is set. -/
structure RaceRun (s : Strategy) (burst : Nat) (labels : List (Label s.defaultWidth Call Reply))
    (m : Machine s.defaultWidth Call Reply) : Prop where
  ended : EndedRun (.clear capacity) s s.defaultWidth (bits.map (calls burst)) labels m
  isOk : ∀ es ∈ m.endings, ∀ e ∈ es, e.isOk = true
  isSet : ∀ bit ∈ bits, (((bitSet s).after m).perform (.get bit)).1 = .returned (.ok (.bit true))

open Race in
theorem RaceRun.of_settles {s : Strategy} {burst : Nat} (hs : s.isSynchronized = true)
    {m : Machine s.defaultWidth Call Reply}
    (h : (bitSet s).strict.Settles (.start (bitSet s).store (bits.map (calls burst))) m) :
    ∃ labels, RaceRun s burst labels m := by
  obtain ⟨labels, hended⟩ := EndedRun.of_settles (by simpa using inRange_calls burst) h
  have hafter : (bitSet s).after m = ((Plain.clear capacity).after labels).bitSet s s.defaultWidth :=
    hended.after_eq (.inl hs)
  refine ⟨labels, hended, hended.isOk (by simpa using inRange_calls burst), fun bit hbit => ?_⟩
  obtain ⟨racer, hracer⟩ := List.getElem?_of_mem hbit
  have hlt : bit < ((Plain.clear capacity).after labels).capacity := by simpa using lt_capacity hracer
  rw [hafter, perform_bitSet (by omega), Plain.perform, Plain.getElem?_bits hlt,
    hended.bit_of_racer hracer]

namespace Race

variable {σ : Type} {env : Environment (StateM σ)} {s : Strategy} {burst rounds : Nat}

theorem bitSet_eq (s : Strategy) : s.bitSet capacity = .ok (bitSet s) :=
  Fragile.create_eq (by decide) s s.defaultWidth

/-- The threads of a round have raced in this stint. -/
def Raced (burst : Nat) (s : Strategy) (stint : Stint) : Prop :=
  ∃ labels m, stint = (bitSet s).stint (bits.map (calls burst)) m ∧ RaceRun s burst labels m

/-- The verdict of a round is read off the bits, as far as they can be read. -/
theorem anyClear_eq_pure {m : Type → Type} [Monad m] [LawfulMonad m] {w : Width} {b : BitSet w}
    (value : Nat → Bool) : ∀ {bits : List Nat},
      (∀ bit ∈ bits, (b.perform (.get bit)).1 = .returned (.ok (.bit (value bit)))) →
        (anyClear b bits : Session m Bool) = pure (bits.any fun bit => !value bit)
  | [], _ => rfl
  | bit :: bits, h => by
    obtain ⟨hbit, hbits⟩ := List.forall_mem_cons.1 h
    simp only [anyClear, Session.getBit, hbit, pure_bind, anyClear_eq_pure value hbits, List.any_cons]
    cases value bit <;> rfl

theorem returns_round (henv : env.IsLawful) (hs : s.isSynchronized = true) (burst : Nat)
    (t : Transcript) : (round env s burst).Returns env t fun isLost t' stints =>
      isLost = false ∧ (∃ stint, stints = [stint] ∧ Raced burst s stint)
        ∧ t' = t.append [] [(bitSet s).notice] := by
  unfold round
  refine Session.ensures_build_bind (bitSet_eq s) _ ?_
  refine Session.ensures_finish_bind henv (bitSet_eq s) _ fun m hsettles => ?_
  obtain ⟨labels, h⟩ := RaceRun.of_settles hs hsettles
  rw [Session.tallyAll_eq_pure _ _ h.isOk, anyClear_eq_pure (fun _ => true) h.isSet]
  simp only [pure_bind]
  exact Session.returns_pure ⟨by simp, ⟨_, rfl, labels, m, rfl, h⟩, rfl⟩

/-! ## The command -/

theorem line_eq (strategy rounds lost : String) : line strategy rounds lost
    = Text.left 16 strategy ++ " " ++ Text.right 8 rounds ++ " " ++ Text.right 8 lost := by
  simp only [line, Text.padEnd_eq, Text.padStart_eq]

theorem returns_countLost (henv : env.IsLawful) (hs : s.isSynchronized = true) (burst : Nat) :
    ∀ (rounds lost : Nat) (t : Transcript),
      (countLost env s burst rounds lost).Returns env t fun n t' stints => n = lost
        ∧ List.Forall₂ (Raced burst) (List.replicate rounds s) stints
        ∧ t' = t.append [] (List.replicate rounds (bitSet s).notice)
  | 0, lost, t => Session.returns_pure ⟨rfl, .nil, by simp⟩
  | rounds + 1, lost, t => by
    unfold countLost
    refine (returns_round henv hs burst t).bind ?_
    rintro isLost t' _ ⟨rfl, ⟨stint, rfl, hraced⟩, rfl⟩
    refine (returns_countLost henv hs burst rounds _ _).mono ?_
    rintro r t' stints ⟨n, rfl, rfl, hall, rfl⟩
    exact ⟨_, rfl, rfl, .cons hraced hall, by simp [List.replicate_succ]⟩

theorem returns_runAll (henv : env.IsLawful) (rounds burst : Nat) :
    ∀ {strategies : List Strategy}, (∀ s ∈ strategies, s.isSynchronized = true) → ∀ t : Transcript,
      (runAll env rounds burst strategies).Returns env t fun broken t' stints => broken = []
        ∧ List.Forall₂ (Raced burst) (strategies.flatMap (List.replicate rounds)) stints
        ∧ t' = t.append (strategies.map fun s => row s rounds 0)
          (strategies.flatMap fun s => List.replicate rounds (bitSet s).notice)
  | [], _, t => Session.returns_pure ⟨rfl, .nil, by simp⟩
  | s :: strategies, h, t => by
    obtain ⟨hs, hstrategies⟩ := List.forall_mem_cons.1 h
    simp only [runAll, hs, Bool.not_true, Bool.false_eq_true, if_false]
    refine (returns_countLost henv hs burst rounds 0 t).bind ?_
    rintro n t' stints ⟨rfl, hall, rfl⟩
    refine Session.ensures_say_bind _ ((returns_runAll henv rounds burst hstrategies _).bind ?_)
    rintro broken t' stints' ⟨rfl, hall', rfl⟩
    refine Session.returns_pure ⟨rfl, ?_, by simp⟩
    rw [List.append_nil, List.flatMap_cons]
    exact List.rel_append hall hall'

end Race

/-- Strategies that lose no update lose none in a race, whatever the schedule: at every moment the bit of
a racer is as that racer has left it, every round ends with nothing lost, and there is a row for each
strategy. -/
theorem race_never_loses {σ : Type} {env : Environment (StateM σ)} (henv : env.IsLawful)
    (rounds burst : Nat) :
    (∀ s : Strategy, s.isSynchronized = true → s.bitSet Race.capacity = .ok (Race.bitSet s)
      ∧ (Race.bitSet s).strict.Terminates
        (.start (Race.bitSet s).store (Race.bits.map (Race.calls burst)))
      ∧ (∀ labels m, Run (Race.bitSet s).strict
          (.start (Race.bitSet s).store (Race.bits.map (Race.calls burst))) labels m →
        ∀ racer bit, Race.bits[racer]? = some bit →
          ∃ v, m.store.cells.load? (Address.locate s.defaultWidth bit).word = some v
            ∧ (Address.locate s.defaultWidth bit).bitIn v
              = ((ownOps labels racer bit).getLast? == some .set))
      ∧ (∀ m, (Race.bitSet s).strict.Settles
          (.start (Race.bitSet s).store (Race.bits.map (Race.calls burst))) m →
        ∃ labels, RaceRun s burst labels m)
      ∧ ∀ t, (Race.round env s burst).Returns env t fun isLost t' stints =>
        isLost = false ∧ (∃ stint, stints = [stint] ∧ Race.Raced burst s stint)
          ∧ t' = t.append [] [(Race.bitSet s).notice])
    ∧ ∀ strategies : List Strategy, (∀ s ∈ strategies, s.isSynchronized = true) → ∀ t,
      (Race.command env strategies rounds burst).Returns env t fun _ t' stints =>
        List.Forall₂ (Race.Raced burst) (strategies.flatMap (List.replicate rounds)) stints
        ∧ t' = t.append
          ((Text.left 16 "strategy" ++ " " ++ Text.right 8 "rounds" ++ " " ++ Text.right 8 "lost")
            :: strategies.map fun s =>
              Text.left 16 s.name ++ " " ++ Text.right 8 (toString rounds) ++ " " ++ Text.right 8 "0")
          (.raceStarted rounds burst
            :: strategies.flatMap fun s => List.replicate rounds (Race.bitSet s).notice) := by
  refine ⟨fun s hs => ⟨Race.bitSet_eq s, Fragile.terminates ⟨.clear Race.capacity, []⟩ s _ _ _,
    fun labels m h racer bit hbit => h.bit_of_racer hs hbit,
    fun m hm => RaceRun.of_settles hs hm, Race.returns_round henv hs burst⟩,
    fun strategies hs t => ?_⟩
  have hrow : ∀ s : Strategy, Race.row s rounds 0 = Text.left 16 s.name ++ " "
      ++ Text.right 8 (toString rounds) ++ " " ++ Text.right 8 "0" :=
    fun s => Race.line_eq s.name (toString rounds) "0"
  unfold Race.command
  refine Session.ensures_report_bind _ (Session.ensures_say_bind _ ?_)
  refine (Race.returns_runAll henv rounds burst hs _).bind ?_
  rintro broken t' stints ⟨rfl, hall, rfl⟩
  exact Session.returns_pure ⟨by rwa [List.append_nil], by simp [hrow, Race.heading, Race.line_eq]⟩

/-- The second racer sets its bit between the load and the swap of the first, whose swap fails. -/
theorem race_never_loses_retry : ∃ (labels : List (Label .w8 Call Reply))
    (m : Machine .w8 Call Reply) (v : Word .w8), Environment.noting.IsLawful
      ∧ Strategy.lockFree.isSynchronized = true
      ∧ Run (Race.bitSet .lockFree).strict
        (.start (Race.bitSet .lockFree).store (Race.bits.map (Race.calls 1))) labels m
      ∧ eventsOf labels 0 0 = [.began, .observed 0 0, .missed 0 0 4, .committed 0 4 6]
      ∧ m.store.cells.load? 0 = some v ∧ (Address.locate .w8 2).bitIn v = true
      ∧ (∃ stint, (Race.round Environment.noting .lockFree 1).result {} []
          = ((.ok false, { notices := #[.created .lockFree 10 2 8] }), [stint])
        ∧ Race.Raced 1 .lockFree stint)
      ∧ (∀ s ∈ [Strategy.lockFree, .fullMutex], s.isSynchronized = true)
      ∧ ∃ stints t, (Race.command Environment.noting [.lockFree, .fullMutex] 2 1).result {} []
          = ((.ok (), t), stints)
        ∧ List.Forall₂ (Race.Raced 1)
          [Strategy.lockFree, Strategy.lockFree, Strategy.fullMutex, Strategy.fullMutex] stints
        ∧ t.lines = #["strategy           rounds     lost", "lock-free               2        0",
          "full-mutex              2        0"]
        ∧ t.notices = #[.raceStarted 2 1, .created .lockFree 10 2 8, .created .lockFree 10 2 8,
            .created .fullMutex 10 1 64, .created .fullMutex 10 1 64] := by
  obtain ⟨⟨labels, m⟩, hf, hevents, hown⟩ :
      ∃ r : List (Label .w8 Call Reply) × Machine .w8 Call Reply,
        (Race.bitSet .lockFree).strict.follow
            (.start (Race.bitSet .lockFree).store (Race.bits.map (Race.calls 1)))
            ([0, 0, 1, 1, 1, 0, 0].map fun i => ⟨i, .none⟩) = some r
          ∧ eventsOf r.1 0 0 = [.began, .observed 0 0, .missed 0 0 4, .committed 0 4 6]
          ∧ ownOps r.1 1 2 = [.set] :=
    ⟨_, rfl, rfl, rfl⟩
  have hrun := Run.of_follow .start hf
  have hlawful := Environment.isLawful_noting
  have hs : ∀ s ∈ [Strategy.lockFree, .fullMutex], s.isSynchronized = true := by decide
  obtain ⟨hstrategy, hcommand⟩ := race_never_loses hlawful 2 1
  obtain ⟨-, -, hbits, -, hround⟩ := hstrategy .lockFree rfl
  obtain ⟨v, hload, hv⟩ := hbits labels m hrun 1 2 rfl
  have hset : (Address.locate .w8 2).bitIn v = true :=
    hv.trans (congrArg (fun ops => ops.getLast? == some BitOp.set) hown)
  refine ⟨labels, m, v, hlawful, rfl, hrun, hevents, hload, hset, ?_, hs, ?_⟩
  · obtain ⟨stints, hserved, isLost, hok, rfl, ⟨stint, rfl, hraced⟩, ht⟩ := hround {} []
    exact ⟨stint, Prod.ext (Prod.ext hok ht) hserved.eq_append, hraced⟩
  · obtain ⟨stints, hserved, ⟨⟩, hok, hall, ht⟩ := hcommand [.lockFree, .fullMutex] hs {} []
    refine ⟨stints, _, Prod.ext (Prod.ext hok ht) hserved.eq_append, hall, ?_, rfl⟩
    decide

end SharedBits
