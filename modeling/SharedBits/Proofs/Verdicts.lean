import SharedBits.Proofs.Columns
import SharedBits.Proofs.StressRuns

/-!
# The verdict on stress runs

A stress command goes through the pairs of a strategy and a capacity, strategy by strategy. What it prints
and how it ends is told by these pairs and by whether anybody writes, however the threads of each run are
scheduled. A capacity of zero ends the command where it stands: the runs before it have their rows, it does
not matter any more whether they left bits clear, and no strategy but the first is run at all
(`Stress.served_pairs_of_mem`). Without one, each run has its row, and the verdict depends on the writers
only: where there are none, every run leaves all of its bits clear, and the failure names the number of all
pairs (`stress_verdict`). Each row stands for one stint of threads (`Stress.Stressed`).
-/

namespace SharedBits

open Session

variable {σ : Type} {env : Environment (StateM σ)} {s : Strategy} {capacity : Nat}
  {t t' : Transcript}

namespace Stress

variable {config : Config} {pairs : List (Strategy × Nat)}

/-- The pairs before the first of capacity zero. -/
def served (pairs : List (Strategy × Nat)) : List (Strategy × Nat) :=
  pairs.takeWhile fun p => p.2 != 0

/-- The columns of the table. -/
def columns (strategy bits reads writes set time : String) : String :=
  Text.left 16 strategy ++ " " ++ Text.right 8 bits ++ " " ++ Text.right 12 reads ++ " "
    ++ Text.right 10 writes ++ " " ++ Text.right 10 set ++ " " ++ time

/-- The row of a pair whose run took this time. -/
def dueRow (config : Config) (p : Strategy × Nat) (nanos : Nat) : String :=
  columns p.1.name (toString p.2) (toString (config.readers * config.passes * p.2))
    (toString (config.writers * p.2)) (toString (if config.writers = 0 then 0 else p.2))
    (Text.right 9 (Text.fixedPlaces 4 (nanos.toFloat / 1000000000)) ++ "s")

def created (s : Strategy) (capacity : Nat) : Notice :=
  .created s capacity (wordsFor s.defaultWidth capacity) s.defaultWidth.bits

/-- What is reported of a pair: its new bitset and, where nobody writes, that no bit is set. -/
def dueNotices (config : Config) (p : Strategy × Nat) : List Notice :=
  created p.1 p.2 :: if config.writers = 0 then [.bitsMissing p.1 p.2 0] else []

/-- How many runs of these pairs leave bits clear, unless one of them has no bits at all. -/
def failures (config : Config) (pairs : List (Strategy × Nat)) : Except Failure Nat :=
  if ∃ p ∈ pairs, p.2 = 0 then .error (.refused .invalidCapacity)
  else .ok (if config.writers = 0 then pairs.length else 0)

/-- The threads of a pair have made a stress run in this stint. -/
def Stressed (config : Config) (p : Strategy × Nat) (stint : Stint) : Prop :=
  ∃ b labels m, p.1.bitSet p.2 = .ok b ∧ stint = b.stint (threads p.2 config) m
    ∧ StressRun p.1 p.2 config p.1.defaultWidth labels m

/-- The runs of these pairs have been made in these stints, and have been written to a transcript. -/
structure Made (config : Config) (pairs : List (Strategy × Nat)) (t t' : Transcript)
    (stints : List Stint) : Prop where
  stressed : List.Forall₂ (Stressed config) (served pairs) stints
  written : ∃ times : List Nat, times.length = (served pairs).length
    ∧ t' = t.append (List.zipWith (dueRow config) (served pairs) times)
      ((served pairs).flatMap (dueNotices config))

end Stress

/-- Stress runs of these pairs write this and end so, after these stints. -/
structure StressVerdict (config : Stress.Config) (pairs : List (Strategy × Nat)) (t : Transcript)
    (verdict : Except Failure Unit) (t' : Transcript) (stints : List Stint) : Prop where
  /-- The threads of each pair before the first of capacity zero make one run, which has its row and its
  notices, and nothing comes after them. -/
  made : Stress.Made config pairs
    (t.append [Stress.columns "strategy" "bits" "reads" "writes" "set" (Text.right 10 "time")]
      [.stressStarted config.readers config.writers config.passes]) t' stints
  refused : (∃ p ∈ pairs, p.2 = 0) → verdict = .error (.refused .invalidCapacity)
  passed : (∀ p ∈ pairs, p.2 ≠ 0) → (verdict = .ok () ↔ 1 ≤ config.writers ∨ pairs = [])
  missing : (∀ p ∈ pairs, p.2 ≠ 0) → config.writers = 0 → pairs ≠ [] →
    verdict = .error (.bitsMissing pairs.length)

theorem BitSet.notice_of_create {w : Width} {b : BitSet w} (hb : BitSet.create s w capacity = .ok b) :
    b.notice = .created s capacity (wordsFor w capacity) w.bits := by
  unfold BitSet.create at hb
  split at hb
  · cases hb
  · obtain rfl := Except.ok.inj hb
    simp [BitSet.notice, BitSet.words, Store.fresh]

namespace Stress

variable {config : Config} {pairs : List (Strategy × Nat)}

/-! ## Pairs -/

theorem length_pairs (strategies : List Strategy) (capacities : List Nat) :
    (Stress.pairs strategies capacities).length = strategies.length * capacities.length := by
  simp only [Stress.pairs, List.length_flatMap, List.length_map, List.map_const', List.sum_replicate_nat]

/-- The place of a pair: behind all pairs of the strategies before its own. -/
theorem getElem?_pairs {capacities : List Nat} {j : Nat} (hj : capacities[j]? = some capacity) :
    ∀ {strategies : List Strategy} {i : Nat}, strategies[i]? = some s →
      (Stress.pairs strategies capacities)[i * capacities.length + j]? = some (s, capacity)
  | [], i, hi => by simp at hi
  | first :: strategies, i, hi => by
    have hlt : j < capacities.length := (List.getElem?_eq_some_iff.1 hj).1
    rw [Stress.pairs, List.flatMap_cons]
    rcases i with _ | i
    · obtain rfl : first = s := by simpa using hi
      rw [List.getElem?_append_left (by simpa using hlt), Nat.zero_mul, Nat.zero_add, List.getElem?_map, hj]
      rfl
    · have hrest : (i + 1) * capacities.length + j - capacities.length = i * capacities.length + j := by
        rw [Nat.succ_mul]
        omega
      rw [List.getElem?_append_right (by rw [List.length_map, Nat.succ_mul]; omega), List.length_map, hrest]
      exact getElem?_pairs hj (by simpa using hi)

theorem isSynchronized_of_mem_pairs {strategies : List Strategy}
    (hs : ∀ s ∈ strategies, s.isSynchronized = true ∨ config.writers ≤ 1) (capacities : List Nat) :
    ∀ p ∈ Stress.pairs strategies capacities, p.1.isSynchronized = true ∨ config.writers ≤ 1 := by
  intro p hp
  obtain ⟨s, hmem, hp⟩ := List.mem_flatMap.1 hp
  obtain ⟨capacity, -, rfl⟩ := List.mem_map.1 hp
  exact hs s hmem

theorem served_cons_zero : served ((s, 0) :: pairs) = [] :=
  List.takeWhile_cons_of_neg (by simp)

theorem served_cons (hcap : 0 < capacity) :
    served ((s, capacity) :: pairs) = (s, capacity) :: served pairs :=
  List.takeWhile_cons_of_pos (by simp; omega)

/-- A capacity of zero ends the command with the first strategy: the others are never run. -/
theorem served_pairs_of_mem {capacities : List Nat} (hzero : 0 ∈ capacities) (s : Strategy)
    (strategies : List Strategy) : served (Stress.pairs (s :: strategies) capacities)
      = (capacities.takeWhile fun capacity => capacity != 0).map fun capacity => (s, capacity) := by
  rw [Stress.pairs, List.flatMap_cons]
  -- The rest stays: only the first capacities get shorter.
  generalize strategies.flatMap _ = rest
  induction capacities with
  | nil => simp at hzero
  | cons capacity capacities ih =>
    rw [List.map_cons, List.cons_append]
    rcases Nat.eq_zero_or_pos capacity with rfl | hcap
    · rw [served_cons_zero, List.takeWhile_cons_of_neg (by simp), List.map_nil]
    · have hrest : 0 ∈ capacities := by simpa [Nat.ne_of_lt hcap] using hzero
      rw [served_cons hcap, ih hrest, List.takeWhile_cons_of_pos (by simp; omega), List.map_cons]

/-! ## What is written -/

theorem line_eq (strategy bits reads writes set time : String) :
    line strategy bits reads writes set time = columns strategy bits reads writes set time := by
  simp only [line, columns, Text.padEnd_eq, Text.padStart_eq]

theorem heading_eq :
    heading = columns "strategy" "bits" "reads" "writes" "set" (Text.right 10 "time") := by
  rw [heading, line_eq, Text.padStart_eq]

theorem row_due (config : Config) (p : Strategy × Nat) (nanos : Nat) :
    row p.1 p.2 (due config p.2 nanos) = dueRow config p nanos := by
  simp only [row, line_eq, Text.padStart_eq, due, dueRow]

theorem Made.nil : Made config [] t t [] := ⟨.nil, [], rfl, by simp [served]⟩

theorem Made.refused : Made config ((s, 0) :: pairs) t t [] :=
  ⟨by rw [served_cons_zero]; exact .nil, [], by simp [served_cons_zero], by simp [served_cons_zero]⟩

theorem Made.cons (hcap : 0 < capacity) {nanos : Nat} {stint : Stint} {stints : List Stint}
    (hstint : Stressed config (s, capacity) stint)
    (h : Made config pairs
      (t.append [dueRow config (s, capacity) nanos] (dueNotices config (s, capacity))) t' stints) :
    Made config ((s, capacity) :: pairs) t t' (stint :: stints) := by
  obtain ⟨hstints, times, hlength, rfl⟩ := h
  refine ⟨?_, nanos :: times, ?_, ?_⟩
  · rw [served_cons hcap]
    exact .cons hstint hstints
  · rw [served_cons hcap, List.length_cons, List.length_cons, hlength]
  · rw [served_cons hcap, List.zipWith_cons_cons, List.flatMap_cons, Transcript.append_append]
    rfl

/-! ## How many runs fail -/

theorem failures_cons_zero :
    failures config ((s, 0) :: pairs) = .error (.refused .invalidCapacity) := by
  simp [failures]

theorem failures_cons (hcap : 0 < capacity) : failures config ((s, capacity) :: pairs)
    = (failures config pairs).map fun n => if config.writers = 0 then n + 1 else n := by
  have hiff : (∃ p ∈ (s, capacity) :: pairs, p.2 = 0) ↔ ∃ p ∈ pairs, p.2 = 0 := by
    simp [Nat.ne_of_gt hcap]
  simp only [failures, hiff, List.length_cons]
  split
  · rfl
  · split <;> rfl

theorem failures_of_zero (h : ∃ p ∈ pairs, p.2 = 0) :
    failures config pairs = .error (.refused .invalidCapacity) := if_pos h

theorem failures_of_pos (h : ∀ p ∈ pairs, p.2 ≠ 0) :
    failures config pairs = .ok (if config.writers = 0 then pairs.length else 0) :=
  if_neg fun ⟨p, hp, hzero⟩ => h p hp hzero

/-! ## The runs -/

theorem ensures_run_zero (s : Strategy) (config : Config) (t : Transcript) :
    (run env s 0 config).Ensures env t fun r t' stints =>
      r = .error (.refused .invalidCapacity) ∧ t' = t ∧ stints = [] :=
  fun st => ⟨[], .nothing st, rfl, rfl, rfl⟩

/-- The runs of all pairs, one after another, are made and written down up to the first of capacity
zero. -/
theorem ensures_runAll (henv : env.IsLawful) :
    ∀ {pairs : List (Strategy × Nat)}, (∀ p ∈ pairs, p.1.isSynchronized = true ∨ config.writers ≤ 1) →
      ∀ t, (runAll env config pairs).Ensures env t fun r t' stints =>
        r = failures config pairs ∧ Made config pairs t t' stints
  | [], _, t => ensures_pure ⟨by simp [failures], .nil⟩
  | (s, capacity) :: pairs, h, t => by
    obtain ⟨hs, hpairs⟩ := List.forall_mem_cons.1 h
    unfold runAll
    rcases Nat.eq_zero_or_pos capacity with rfl | hcap
    · refine Ensures.bind (ensures_run_zero s config t) (fun _ _ _ h => nomatch h.1) ?_
      rintro e t' stints ⟨he, rfl, rfl⟩
      obtain rfl := Except.error.inj he
      exact ⟨failures_cons_zero.symm, .refused⟩
    have hb : s.bitSet capacity = .ok ((Plain.clear capacity).bitSet s s.defaultWidth) :=
      Fragile.create_eq hcap s s.defaultWidth
    refine (returns_run henv hb hs t).bind ?_
    rintro outcome t' _ ⟨⟨labels, m, rfl, hrun⟩, ⟨nanos, rfl⟩, rfl⟩
    have hstint : Stressed config (s, capacity)
        (((Plain.clear capacity).bitSet s s.defaultWidth).stint (threads capacity config) m) :=
      ⟨_, labels, m, hb, rfl, hrun⟩
    have hcreated : ((Plain.clear capacity).bitSet s s.defaultWidth).notice = created s capacity :=
      BitSet.notice_of_create hb
    rw [hcreated, failures_cons hcap, row_due config (s, capacity) nanos]
    refine ensures_say_bind _ ?_
    by_cases hnone : config.writers = 0
    -- No bit is set, but there are some: one more notice, and one more failure than the pairs behind have.
    · have hset : (due config capacity nanos).setBits = 0 := if_pos hnone
      rw [hset, if_neg (by omega)]
      refine ensures_report_bind _ ?_
      have hreported : ((t.append [] [created s capacity]).append [dueRow config (s, capacity) nanos]
          []).append [] [.bitsMissing s capacity 0]
          = t.append [dueRow config (s, capacity) nanos] (dueNotices config (s, capacity)) := by
        simp [dueNotices, hnone]
      rw [hreported]
      refine Ensures.bind (ensures_runAll henv hpairs _) ?_ ?_
      · rintro n t' stints ⟨hn, h⟩
        refine ensures_pure ⟨?_, ?_⟩
        · rw [← hn]
          simp only [hnone, if_true]
          rfl
        · rw [List.append_nil]
          exact h.cons hcap hstint
      -- A capacity of zero further on: what has been counted is lost, what has been written is not.
      · rintro e t' stints ⟨he, h⟩
        rw [← he]
        exact ⟨rfl, h.cons hcap hstint⟩
    · have hset : (due config capacity nanos).setBits = capacity := if_neg hnone
      rw [if_pos hset]
      have hreported : (t.append [] [created s capacity]).append [dueRow config (s, capacity) nanos] []
          = t.append [dueRow config (s, capacity) nanos] (dueNotices config (s, capacity)) := by
        simp [dueNotices, hnone]
      rw [hreported]
      refine (ensures_runAll henv hpairs _).mono ?_
      rintro r t' stints ⟨rfl, h⟩
      refine ⟨?_, h.cons hcap hstint⟩
      simp only [hnone, if_false]
      cases failures config pairs <;> rfl

end Stress

namespace StressVerdict

variable {config : Stress.Config} {pairs : List (Strategy × Nat)} {stints : List Stint}

theorem of_zero (hzero : ∃ p ∈ pairs, p.2 = 0) (h : Stress.Made config pairs
      (t.append [Stress.heading] [.stressStarted config.readers config.writers config.passes]) t' stints) :
    StressVerdict config pairs t (.error (.refused .invalidCapacity)) t' stints := by
  rw [Stress.heading_eq] at h
  obtain ⟨p, hp, hpzero⟩ := hzero
  exact ⟨h, fun _ => rfl, fun hpos => absurd hpzero (hpos p hp), fun hpos => absurd hpzero (hpos p hp)⟩

theorem of_pos (hpos : ∀ p ∈ pairs, p.2 ≠ 0) (h : Stress.Made config pairs
      (t.append [Stress.heading] [.stressStarted config.readers config.writers config.passes]) t' stints)
    {failures : Nat} (hfailures : failures = if config.writers = 0 then pairs.length else 0) :
    StressVerdict config pairs t (if 0 < failures then .error (.bitsMissing failures) else .ok ()) t'
      stints := by
  rw [Stress.heading_eq] at h
  refine ⟨h, fun ⟨p, hp, hzero⟩ => absurd hzero (hpos p hp), fun _ => ?_, fun _ hnone hpairs => ?_⟩
  · rcases Nat.eq_zero_or_pos config.writers with hnone | hsome
    · rw [if_pos hnone] at hfailures
      by_cases hpairs : pairs = []
      · simp [hfailures, hpairs]
      · simp [hfailures, hpairs, hnone, List.length_pos_iff]
    · rw [if_neg (by omega)] at hfailures
      simp [hfailures, Nat.succ_le_of_lt hsome]
  · rw [if_pos hnone] at hfailures
    rw [hfailures, if_pos (List.length_pos_iff.2 hpairs)]

end StressVerdict

/-- Whatever the schedules of the runs, and whoever reads: the pairs are gone through strategy by strategy,
each has its row, and the command ends with the first capacity of zero. Otherwise it passes if somebody
writes or there is nothing to run, and if not, all runs are missing bits. -/
theorem stress_verdict (henv : env.IsLawful) (config : Stress.Config) {strategies : List Strategy}
    (hs : ∀ s ∈ strategies, s.isSynchronized = true ∨ config.writers ≤ 1) (capacities : List Nat) :
    (Stress.pairs strategies capacities).length = strategies.length * capacities.length
    ∧ (∀ i j s capacity, strategies[i]? = some s → capacities[j]? = some capacity →
      (Stress.pairs strategies capacities)[i * capacities.length + j]? = some (s, capacity))
    ∧ (∀ s rest, strategies = s :: rest → 0 ∈ capacities →
      Stress.served (Stress.pairs strategies capacities)
        = (capacities.takeWhile fun capacity => capacity != 0).map fun capacity => (s, capacity))
    ∧ (∀ s ∈ strategies, ∀ capacity ∈ capacities, capacity ≠ 0 → ∃ b, s.bitSet capacity = .ok b
      ∧ b.strict.Terminates (.start b.store (Stress.threads capacity config)))
    ∧ (∀ t, (Stress.command env strategies capacities config).Ensures env t
      (StressVerdict config (Stress.pairs strategies capacities) t))
    ∧ Failure.message (.refused .invalidCapacity) = "bitset capacity must be positive"
    ∧ (∀ n, Failure.message (.bitsMissing n) = toString n ++ " stress run(s) ended with missing bits")
    ∧ ∀ s capacity, Notice.render (.bitsMissing s capacity 0)
      = "ERROR writers finished but bits are missing strategy=" ++ s.name ++ " capacity="
        ++ toString capacity ++ " set=0" := by
  refine ⟨Stress.length_pairs strategies capacities, fun i j s capacity hi hj => Stress.getElem?_pairs hj hi,
    fun s rest hfirst hzero => hfirst ▸ Stress.served_pairs_of_mem hzero s rest,
    fun s _ capacity _ hcap => ?_, fun t => ?_, rfl, fun _ => rfl, fun s capacity => ?_⟩
  · exact ⟨_, Fragile.create_eq (Nat.pos_of_ne_zero hcap) s s.defaultWidth,
      Fragile.terminates ⟨.clear capacity, []⟩ s _ _ _⟩
  · unfold Stress.command
    refine ensures_report_bind _ (ensures_say_bind _ ?_)
    rw [Transcript.append_append, List.nil_append, List.append_nil]
    have hrunAll := Stress.ensures_runAll henv (Stress.isSynchronized_of_mem_pairs hs capacities)
    by_cases hzero : ∃ p ∈ Stress.pairs strategies capacities, p.2 = 0
    · rw [Stress.failures_of_zero hzero] at hrunAll
      refine Ensures.bind (hrunAll _) (fun _ _ _ h => nomatch h.1) ?_
      rintro e t' stints ⟨he, h⟩
      obtain rfl := Except.error.inj he
      exact .of_zero hzero h
    · have hpos : ∀ p ∈ Stress.pairs strategies capacities, p.2 ≠ 0 :=
        fun p hp h => hzero ⟨p, hp, h⟩
      rw [Stress.failures_of_pos hpos] at hrunAll
      refine Ensures.bind (hrunAll _) ?_ (fun _ _ _ h => nomatch h.1)
      rintro n t' stints ⟨hn, h⟩
      have hverdict := StressVerdict.of_pos hpos h (Except.ok.inj hn)
      by_cases hfailed : 0 < n
      · rw [if_pos hfailed] at hverdict ⊢
        exact ensures_fail (by rwa [List.append_nil])
      · rw [if_neg hfailed] at hverdict ⊢
        exact ensures_pure (by rwa [List.append_nil])
  · simp [Notice.render, Notice.fields, Notice.level, Level.name, Notice.message,
      String.intercalate_cons_cons, ← String.toList_inj]

/-- Nobody writes: all four runs fail, but with a capacity of zero the failure does not speak of the run
before it. -/
theorem stress_verdict_silent : Environment.noting.IsLawful
    ∧ (∀ s ∈ [Strategy.lockFree, .unsynchronized], s.isSynchronized = true ∨ 0 ≤ 1)
    ∧ (∃ t stints,
      (Stress.command .noting [.lockFree, .unsynchronized] [10, 20] ⟨1, 0, 1⟩).result {} []
        = ((.error (.bitsMissing 4), t), stints)
      ∧ t.notices = #[.stressStarted 1 0 1, .created .lockFree 10 2 8, .bitsMissing .lockFree 10 0,
        .created .lockFree 20 3 8, .bitsMissing .lockFree 20 0, .created .unsynchronized 10 2 8,
        .bitsMissing .unsynchronized 10 0, .created .unsynchronized 20 3 8,
        .bitsMissing .unsynchronized 20 0]
      ∧ List.Forall₂ (Stress.Stressed ⟨1, 0, 1⟩) [(.lockFree, 10), (.lockFree, 20), (.unsynchronized, 10),
        (.unsynchronized, 20)] stints)
    ∧ ∃ t nanos stint,
      (Stress.command .noting [.lockFree, .unsynchronized] [10, 0, 20] ⟨1, 0, 1⟩).result {} []
        = ((.error (.refused .invalidCapacity), t), [stint])
      ∧ t.lines = #["strategy             bits        reads     writes        set       time",
        "lock-free              10           10          0          0 "
          ++ (Text.right 9 (Text.fixedPlaces 4 (Nat.toFloat nanos / 1000000000)) ++ "s")]
      ∧ t.notices = #[.stressStarted 1 0 1, .created .lockFree 10 2 8, .bitsMissing .lockFree 10 0]
      ∧ Stress.Stressed ⟨1, 0, 1⟩ (.lockFree, 10) stint := by
  have hlawful := Environment.isLawful_noting
  have hs : ∀ s ∈ [Strategy.lockFree, .unsynchronized], s.isSynchronized = true ∨ 0 ≤ 1 :=
    fun _ _ => .inr (by decide)
  obtain ⟨-, -, -, -, hmissing, -⟩ := stress_verdict hlawful ⟨1, 0, 1⟩ hs [10, 20]
  obtain ⟨-, -, -, -, hzero, -⟩ := stress_verdict hlawful ⟨1, 0, 1⟩ hs [10, 0, 20]
  refine ⟨hlawful, hs, ?_, ?_⟩
  · obtain ⟨stints, hserved, ⟨hstints, times, -, ht⟩, -, -, hverdict⟩ := hmissing {} []
    exact ⟨_, stints, Prod.ext (Prod.ext (hverdict (by decide) rfl (by decide)) ht) hserved.eq_append, rfl,
      hstints⟩
  · obtain ⟨stints, hserved, ⟨hstints, times, hlength, ht⟩, hverdict, -, -⟩ := hzero {} []
    obtain ⟨nanos, rfl⟩ := List.length_eq_one_iff.1 hlength
    obtain ⟨stint, hstint, rfl⟩ : ∃ stint, Stress.Stressed ⟨1, 0, 1⟩ (.lockFree, 10) stint
        ∧ stints = [stint] := by
      cases hstints with
      | cons hstint hnil =>
        cases hnil
        exact ⟨_, hstint, rfl⟩
    refine ⟨_, nanos, stint, Prod.ext (Prod.ext (hverdict (by decide)) ht) hserved.eq_append, ?_, rfl,
      hstint⟩
    have hheading : Stress.columns "strategy" "bits" "reads" "writes" "set" (Text.right 10 "time")
        = "strategy             bits        reads     writes        set       time" := by decide
    have hrow : Stress.dueRow ⟨1, 0, 1⟩ (.lockFree, 10) nanos
        = "lock-free              10           10          0          0 "
          ++ (Text.right 9 (Text.fixedPlaces 4 (Nat.toFloat nanos / 1000000000)) ++ "s") :=
      congrArg (fun cells => cells ++ _) (show Text.left 16 "lock-free" ++ " " ++ Text.right 8 "10" ++ " "
        ++ Text.right 12 "10" ++ " " ++ Text.right 10 "0" ++ " " ++ Text.right 10 "0" ++ " " = _ by decide)
    rw [← hheading, ← hrow]
    rfl

end SharedBits
