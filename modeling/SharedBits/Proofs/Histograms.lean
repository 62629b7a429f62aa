import Mathlib.Data.Finset.Max
import SharedBits.Benchmark
import SharedBits.Proofs.Sessions
import SharedBits.Proofs.Summaries

/-!
# What the report of a summary tells

The report has a line for each bucket that holds a sample. Such a bucket begins at or before one of the
samples, so its lower edge is a time that can be recorded. Its upper edge need not be, but that of any bucket
but the greatest that holds a sample is no further than the lower edge of that one (`Latency.rows_filled`).
So the greatest decides whether the report is printed to its end, and nothing is lost before (`report_charts`).
The lines of a whole report cut the samples up: each sample is on one line, and each line counts its samples
(`Latency.Charts`).
-/

namespace SharedBits.Latency

/-- The line of bucket `i`, whatever its edges. -/
def row (l : Latency) (i : Fin bucketCount) : Row :=
  ⟨i * l.width, (i + 1) * l.width, i + 1 = bucketCount, l.buckets.get i⟩

/-- The buckets that hold a sample, in ascending order. -/
def filled (l : Latency) : List (Fin bucketCount) :=
  (List.finRange bucketCount).filter fun i => 0 < l.buckets.get i

/-- The sample is between the edges of the line. -/
def Row.Holds (r : Row) (nanos : Nat) : Prop :=
  r.lower ≤ nanos ∧ (r.isOpen = true ∨ nanos < r.upper)

instance (r : Row) (nanos : Nat) : Decidable (r.Holds nanos) :=
  inferInstanceAs (Decidable (_ ∧ _))

/-- The lines of a summary are the histogram of the samples. -/
structure Charts (l : Latency) (samples : List Nat) (rows : List Row) : Prop where
  lines : rows = l.filled.map l.row
  /-- Each line ends where a later one begins, or before. -/
  ascending : rows.Pairwise fun r r' => r.upper ≤ r'.lower
  total : (rows.map Row.count).sum = samples.length
  unique : ∀ nanos ∈ samples, (rows.countP fun r => r.Holds nanos) = 1
  counts : ∀ r ∈ rows, 0 < r.count ∧ r.count = samples.countP fun nanos => r.Holds nanos

/-- Printing the report writes these lines and ends so. -/
def Prints (l : Latency) (lines : List String) (verdict : Except Failure Unit) : Prop :=
  ∀ (m : Type → Type) [Monad m] [LawfulMonad m] (t : Transcript),
    (Benchmark.sayReport l : Session m Unit).run.run t = pure (verdict, t.append lines [])

/-! ## Lines -/

section Lines

variable {l : Latency} {b nanos : Nat} {samples : List Nat} {i m : Fin bucketCount}

theorem mem_filled : i ∈ l.filled ↔ 0 < l.buckets.get i := by
  simp [filled]

theorem holds_row : (l.row i).Holds nanos ↔ InBucket l.width i nanos := by
  simp [Row.Holds, row, InBucket]

theorem row?_eq : l.row? i = if (i + 1) * l.width ≤ maxNanos then some (l.row i) else none := rfl

/-- Buckets whose edges can be recorded have their lines before any others. -/
theorem rows_append (js : List (Fin bucketCount)) : ∀ {is : List (Fin bucketCount)},
    (∀ i ∈ is, (i + 1) * l.width ≤ maxNanos) →
      l.rows (is ++ js) = (is.map l.row ++ (l.rows js).1, (l.rows js).2)
  | [], _ => rfl
  | i :: is, h => by
    obtain ⟨hi, his⟩ := List.forall_mem_cons.1 h
    simp only [List.cons_append, rows, row?_eq, if_pos hi, rows_append js his, List.map_cons]

theorem pairwise_filled (l : Latency) : l.filled.Pairwise (· < ·) :=
  (List.pairwise_lt_finRange bucketCount).filter _

/-- The greatest bucket that holds a sample comes last. -/
theorem exists_filled_eq (hm : IsGreatest {i : Fin bucketCount | 0 < l.buckets.get i} m) :
    ∃ lower, l.filled = lower ++ [m] ∧ ∀ i ∈ lower, i < m := by
  obtain ⟨lower, higher, hfilled⟩ := List.append_of_mem (mem_filled.2 hm.1)
  have hsorted := l.pairwise_filled
  rw [hfilled, List.pairwise_append, List.pairwise_cons] at hsorted
  obtain ⟨-, ⟨hhigher, -⟩, hlower⟩ := hsorted
  obtain rfl : higher = [] := by
    refine List.eq_nil_iff_forall_not_mem.2 fun i hi => ?_
    have hmem : i ∈ l.filled := by simp [hfilled, hi]
    exact absurd (hm.2 (mem_filled.1 hmem)) (not_le.2 (hhigher i hi))
  exact ⟨lower, hfilled, fun i hi => hlower i hi m List.mem_cons_self⟩

/-- If the lower edge of the greatest bucket can be recorded, all other buckets have their lines. -/
theorem rows_filled (hm : IsGreatest {i : Fin bucketCount | 0 < l.buckets.get i} m)
    (hlower : m * l.width ≤ maxNanos) : l.rows l.filled =
      if (m + 1) * l.width ≤ maxNanos then (l.filled.map l.row, true)
      else ((l.filled.filter fun i => i < m).map l.row, false) := by
  obtain ⟨lower, hfilled, hlt⟩ := exists_filled_eq hm
  have hupper : ∀ i ∈ lower, (i + 1) * l.width ≤ maxNanos := fun i hi =>
    (Nat.mul_le_mul_right l.width (hlt i hi)).trans hlower
  have hbelow : l.filled.filter (fun i => i < m) = lower := by
    rw [hfilled, List.filter_append, List.filter_eq_self.2 (by simpa using hlt)]
    simp
  rw [hbelow, hfilled, rows_append [m] hupper, rows, row?_eq]
  by_cases hfits : (m + 1) * l.width ≤ maxNanos
  · rw [if_pos hfits, if_pos hfits, List.map_append]
    rfl
  · rw [if_neg hfits, if_neg hfits, List.append_nil]

theorem report_eq (hcount : l.count ≠ 0) : l.report =
    (["Count: " ++ toString l.count,
      "Min:   " ++ wholeNanosText l.min,
      "Avg:   " ++ nanosText l.average,
      "Max:   " ++ wholeNanosText l.max,
      "Distribution (" ++ wholeNanosText l.width ++ " buckets):"]
        ++ (l.rows l.filled).1.map Row.render, (l.rows l.filled).2) := by
  rw [report, if_neg hcount]
  rfl

theorem report?_eq_none_iff : l.report? = none ↔ l.report.2 = false := by
  simp [report?]

theorem report?_of_whole {lines : List String} (h : l.report = (lines, true)) :
    l.report? = some lines := by
  rw [report?, h]
  rfl

theorem prints_report (l : Latency) : l.Prints l.report.1
    (if l.report.2 then .ok () else .error (.crashed "report")) := by
  intro m _ _ t
  simp only [Benchmark.sayReport]
  rw [Session.run_sayAll_bind]
  cases l.report.2 <;> rfl

/-- Leaving out what is zero does not change a total. -/
theorem sum_map_filter_pos {T : Type} (f : T → Nat) (xs : List T) :
    ((xs.filter fun x => 0 < f x).map f).sum = (xs.map f).sum := by
  induction xs with
  | nil => rfl
  | cons x xs ih =>
    by_cases hx : 0 < f x
    · simp [hx, ih]
    · simp [ih, Nat.eq_zero_of_not_pos hx]

/-- A bucket that holds a sample begins at or before one of the samples. -/
theorem Summarizes.exists_of_pos (h : l.Summarizes b samples) (hi : 0 < l.buckets.get i) :
    ∃ nanos ∈ samples, InBucket b i nanos := by
  rw [h.buckets, List.countP_pos_iff] at hi
  simpa using hi

theorem Summarizes.pos_of_mem (h : l.Summarizes b samples) (hmem : nanos ∈ samples)
    (hin : InBucket b i nanos) : 0 < l.buckets.get i := by
  rw [h.buckets, List.countP_pos_iff]
  exact ⟨nanos, hmem, by simpa using hin⟩

theorem Summarizes.charts (hb : 0 < b) (h : l.Summarizes b samples) :
    l.Charts samples (l.filled.map l.row) where
  lines := rfl
  ascending := by
    refine List.pairwise_map.2 (l.pairwise_filled.imp ?_)
    intro i j hij
    exact Nat.mul_le_mul_right l.width hij
  total := by
    rw [List.map_map, ← h.count, ← h.sum_buckets hb, Fin.sum_univ_def]
    exact sum_map_filter_pos (fun i : Fin bucketCount => l.buckets.get i) _
  unique nanos hmem := by
    -- Of all buckets only that of the sample has it between its edges, and it is not left out.
    have honly : ∀ i ∈ List.finRange bucketCount,
        (decide ((l.row i).Holds nanos) && decide (0 < l.buckets.get i)) = true
          ↔ (i == bucketOf b nanos) = true := by
      intro i _
      have hi : (l.row i).Holds nanos ↔ bucketOf b nanos = i := by
        rw [holds_row, h.width, bucketOf_eq_iff hb]
      rw [Bool.and_eq_true, decide_eq_true_eq, decide_eq_true_eq, beq_iff_eq, hi]
      exact ⟨fun hboth => hboth.1.symm,
        fun heq => ⟨heq.symm, h.pos_of_mem hmem ((bucketOf_eq_iff hb).1 heq.symm)⟩⟩
    rw [List.countP_map, filled, List.countP_filter]
    exact (List.countP_congr honly).trans
      (List.count_eq_one_of_mem (List.nodup_finRange _) (List.mem_finRange _))
  counts r hr := by
    obtain ⟨i, hi, rfl⟩ := List.mem_map.1 hr
    refine ⟨mem_filled.1 hi, (h.buckets i).trans (List.countP_congr fun nanos _ => ?_)⟩
    rw [decide_eq_true_eq, decide_eq_true_eq, holds_row, h.width]

theorem Summarizes.exists_greatest (hb : 0 < b) (h : l.Summarizes b samples)
    (hsamples : samples ≠ []) :
    ∃ m, IsGreatest {i : Fin bucketCount | 0 < l.buckets.get i} m := by
  obtain ⟨nanos, hmem⟩ := List.exists_mem_of_ne_nil samples hsamples
  have hpos : 0 < l.buckets.get (bucketOf b nanos) := h.pos_of_mem hmem ((bucketOf_eq_iff hb).1 rfl)
  have hne : (Finset.univ.filter fun i : Fin bucketCount => 0 < l.buckets.get i).Nonempty :=
    ⟨bucketOf b nanos, by simpa using hpos⟩
  exact ⟨_, by simpa using Finset.isGreatest_max' _ hne⟩

end Lines

end SharedBits.Latency

namespace SharedBits

open Latency

/-- The report of any samples, recorded in any order. The lower edges that are printed can be recorded
as times. If the upper edge of the greatest bucket `m` with a sample can be recorded too, the lines are
the histogram of the samples. Otherwise only the line of that bucket is missing, and the report ends there. -/
theorem report_charts (width : Nat) {samples : List Nat} {l : Latency}
    (hfit : ∀ nanos ∈ samples, nanos ≤ maxNanos) (hl : l = ofSamples width samples) :
    (∀ i : Fin bucketCount, 0 < l.buckets.get i → i * l.width ≤ maxNanos)
    ∧ (samples = [] → l.report? = some ["Count: 0"] ∧ l.Prints ["Count: 0"] (.ok ()))
    ∧ (samples ≠ [] → ∃ m : Fin bucketCount, IsGreatest {i : Fin bucketCount | 0 < l.buckets.get i} m
      ∧ ((∃ i : Fin bucketCount, 0 < l.buckets.get i ∧ maxNanos < (i + 1) * l.width)
        ↔ maxNanos < (m + 1) * l.width)
      ∧ (l.report? = none ↔ maxNanos < (m + 1) * l.width)
      ∧ ∃ rows lines,
        lines = ["Count: " ++ toString samples.length,
          "Min:   " ++ wholeNanosText l.min,
          "Avg:   " ++ nanosText l.average,
          "Max:   " ++ wholeNanosText l.max,
          "Distribution (" ++ wholeNanosText l.width ++ " buckets):"]
          ++ rows.map (fun r : Row => "[" ++ wholeNanosText r.lower ++ " - " ++ wholeNanosText r.upper
            ++ (if r.isOpen then "+" else "") ++ "]: " ++ toString r.count)
        ∧ ((m + 1) * l.width ≤ maxNanos →
          l.Charts samples rows ∧ l.report? = some lines ∧ l.Prints lines (.ok ()))
        ∧ (maxNanos < (m + 1) * l.width →
          rows = (l.filled.filter fun i => i < m).map l.row
            ∧ l.Prints lines (.error (.crashed "report")))) := by
  have hb : 0 < Max.max width 1 := by omega
  have h : l.Summarizes (Max.max width 1) samples := hl ▸ summarizes_ofSamples width hfit
  have hlower : ∀ i : Fin bucketCount, 0 < l.buckets.get i → i * l.width ≤ maxNanos := by
    intro i hi
    obtain ⟨nanos, hmem, hin⟩ := h.exists_of_pos hi
    exact h.width ▸ hin.1.trans (hfit nanos hmem)
  have hprints := l.prints_report
  refine ⟨hlower, fun hsamples => ?_, fun hsamples => ?_⟩
  · have hreport : l.report = (["Count: 0"], true) := by
      rw [report, if_pos (by rw [h.count, hsamples, List.length_nil]), h.count, hsamples]
      rfl
    rw [hreport] at hprints
    exact ⟨report?_of_whole hreport, hprints⟩
  · obtain ⟨m, hm⟩ := h.exists_greatest hb hsamples
    have hcount : l.count ≠ 0 := by rw [h.count]; exact List.length_pos_iff.2 hsamples |>.ne'
    have hreport := report_eq hcount
    rw [rows_filled hm (hlower m hm.1), h.count] at hreport
    have hedge : (∃ i : Fin bucketCount, 0 < l.buckets.get i ∧ maxNanos < (i + 1) * l.width)
        ↔ maxNanos < (m + 1) * l.width := by
      refine ⟨fun ⟨i, hi, hover⟩ => lt_of_lt_of_le hover ?_, fun hover => ⟨m, hm.1, hover⟩⟩
      exact Nat.mul_le_mul_right l.width (Nat.succ_le_succ (hm.2 hi))
    have hnone : l.report? = none ↔ maxNanos < (m + 1) * l.width := by
      rw [report?_eq_none_iff, hreport, ← not_le]
      by_cases hfits : (m + 1) * l.width ≤ maxNanos <;> simp [hfits]
    refine ⟨m, hm, hedge, hnone, ?_⟩
    by_cases hfits : (m + 1) * l.width ≤ maxNanos
    · rw [if_pos hfits] at hreport
      rw [hreport] at hprints
      exact ⟨l.filled.map l.row, _, rfl, fun _ => ⟨h.charts hb, report?_of_whole hreport, hprints⟩,
        fun hover => absurd hfits (not_le.2 hover)⟩
    · rw [if_neg hfits] at hreport
      rw [hreport] at hprints
      exact ⟨_, _, rfl, fun h => absurd h hfits, fun _ => ⟨rfl, hprints⟩⟩

/-- Samples on both sides of an edge and one in the last bucket; and a sample whose bucket ends beyond the
largest time, behind one whose bucket does not. -/
theorem report_charts_edges : (∀ nanos ∈ [5, 10, 9, 1000], nanos ≤ maxNanos)
    ∧ (∃ rows lines, (ofSamples 10 [5, 10, 9, 1000]).Charts [5, 10, 9, 1000] rows
      ∧ rows = [⟨0, 10, false, 2⟩, ⟨10, 20, false, 1⟩, ⟨190, 200, true, 1⟩]
      ∧ (ofSamples 10 [5, 10, 9, 1000]).Prints lines (.ok ())
      ∧ lines.length = 8 ∧ lines.head? = some "Count: 4"
      ∧ lines.drop 5 = ["[" ++ wholeNanosText 0 ++ " - " ++ wholeNanosText 10 ++ "]: 2",
        "[" ++ wholeNanosText 10 ++ " - " ++ wholeNanosText 20 ++ "]: 1",
        "[" ++ wholeNanosText 190 ++ " - " ++ wholeNanosText 200 ++ "+]: 1"])
    ∧ (∀ nanos ∈ [7, maxNanos], nanos ≤ maxNanos)
    ∧ (ofSamples (2 ^ 63) [7, maxNanos]).report? = none
    ∧ ∃ lines, (ofSamples (2 ^ 63) [7, maxNanos]).Prints lines (.error (.crashed "report"))
      ∧ lines.drop 5 = ["[" ++ wholeNanosText 0 ++ " - " ++ wholeNanosText (2 ^ 63) ++ "]: 1"] := by
  have hfit : ∀ nanos ∈ [5, 10, 9, 1000], nanos ≤ maxNanos := by decide
  have hfit' : ∀ nanos ∈ [7, maxNanos], nanos ≤ maxNanos := by decide
  have hone : Nat.repr 1 = "1" := rfl
  have htwo : Nat.repr 2 = "2" := rfl
  refine ⟨hfit, ?_, hfit', ?_⟩
  · obtain ⟨m, hm, -, -, rows, lines, hlines, hwhole, -⟩ := (report_charts 10 hfit rfl).2.2 (by decide)
    have hlast : m = ⟨19, by decide⟩ :=
      le_antisymm (Nat.le_of_lt_succ m.isLt) (hm.2 (by decide))
    obtain ⟨hcharts, -, hprints⟩ := hwhole (by rw [hlast]; decide)
    have hrows : rows = [⟨0, 10, false, 2⟩, ⟨10, 20, false, 1⟩, ⟨190, 200, true, 1⟩] :=
      hcharts.lines.trans (by decide)
    refine ⟨rows, lines, hcharts, hrows, hprints, ?_⟩
    rw [hlines, hrows]
    refine ⟨rfl, rfl, ?_⟩
    simp [String.append_assoc, hone, htwo]
  · obtain ⟨m, hm, -, hnone, rows, lines, hlines, -, hcut⟩ :=
      (report_charts (2 ^ 63) hfit' rfl).2.2 (by decide)
    have hlast : m = ⟨1, by decide⟩ :=
      hm.unique ⟨show 0 < _ by decide, fun i hi => by revert i; decide⟩
    have hover : maxNanos < (m + 1) * (ofSamples (2 ^ 63) [7, maxNanos]).width := by
      rw [hlast]
      decide
    obtain ⟨hrows, hprints⟩ := hcut hover
    refine ⟨hnone.2 hover, lines, hprints, ?_⟩
    have hrow : rows = [⟨0, 2 ^ 63, false, 1⟩] := by
      rw [hrows, hlast]
      decide
    rw [hlines, hrow]
    simp [String.append_assoc, hone]

end SharedBits
