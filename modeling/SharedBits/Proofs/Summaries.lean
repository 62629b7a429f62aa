import Mathlib.Algebra.BigOperators.Fin
import Mathlib.Data.List.Induction
import SharedBits.Latency

/-!
# What a summary of latencies tells

A summary is told by the samples as a whole: their number, their least and greatest, their sum up to the
largest time, and for each bucket how many of them fall into it (`Latency.Summarizes`). Every sample
falls into one bucket, however wide the buckets are. One more sample keeps this
(`Latency.Summarizes.record`), so it holds of every series of samples, and their order does not matter
(`latency_summarizes`).
-/

namespace SharedBits.Latency

/-- The summary of samples, recorded in this order. -/
def ofSamples (width : Nat) (samples : List Nat) : Latency := samples.foldl record (new width)

/-- The bucket for a sample is number `i`. The last bucket is open above. -/
def InBucket (b i nanos : Nat) : Prop :=
  i * b ≤ nanos ∧ (i + 1 = bucketCount ∨ nanos < (i + 1) * b)

instance (b i nanos : Nat) : Decidable (InBucket b i nanos) :=
  inferInstanceAs (Decidable (_ ∧ _))

/-- A summary tells of samples, with buckets of width `b`. -/
structure Summarizes (l : Latency) (b : Nat) (samples : List Nat) : Prop where
  width : l.width = b
  count : l.count = samples.length
  /-- The sum stops at the largest time, whenever it is reached. -/
  sum : l.sum = Min.min samples.sum maxNanos
  min : l.min = samples.min?.getD maxNanos
  max : l.max = samples.max?.getD 0
  buckets : ∀ i : Fin bucketCount, l.buckets.get i = samples.countP fun nanos => InBucket b i nanos

/-! ## Buckets -/

section Buckets

variable {b nanos : Nat} {i : Fin bucketCount}

theorem bucketOf_eq_iff (hb : 0 < b) : bucketOf b nanos = i ↔ InBucket b i nanos := by
  have hi : (i : Nat) < bucketCount := i.isLt
  rw [bucketOf, Fin.ext_iff, InBucket, ← Nat.le_div_iff_mul_le hb, ← Nat.div_lt_iff_lt_mul hb]
  show Min.min (nanos / b) (bucketCount - 1) = i ↔ _
  omega

/-- Whatever is counted, each entry is counted once. -/
theorem sum_countP_eq {T : Type} {n : Nat} (f : T → Fin n) : ∀ xs : List T,
    ∑ i, xs.countP (fun x => f x = i) = xs.length
  | [] => by simp
  | x :: xs => by
    have ih := sum_countP_eq f xs
    simp only [List.countP_cons, Finset.sum_add_distrib, ih, List.length_cons]
    simp

end Buckets

/-! ## Recording -/

section Recording

variable {l l' : Latency} {b nanos width : Nat} {samples samples' : List Nat}

theorem summarizes_new (width : Nat) : (new width).Summarizes (Max.max width 1) [] where
  width := rfl
  count := rfl
  sum := rfl
  min := rfl
  max := rfl
  buckets i := Vector.getElem_replicate i.isLt

theorem min?_snoc (h : nanos ≤ maxNanos) :
    (samples ++ [nanos]).min?.getD maxNanos = Min.min (samples.min?.getD maxNanos) nanos := by
  cases samples with
  | nil => simp [h]
  | cons x xs =>
    rw [List.cons_append, List.min?_cons', List.min?_cons', List.foldl_append]
    rfl

theorem max?_snoc :
    (samples ++ [nanos]).max?.getD 0 = Max.max (samples.max?.getD 0) nanos := by
  cases samples with
  | nil => simp
  | cons x xs =>
    rw [List.cons_append, List.max?_cons', List.max?_cons', List.foldl_append]
    rfl

theorem Summarizes.record (hb : 0 < b) (h : l.Summarizes b samples) (hnanos : nanos ≤ maxNanos) :
    (l.record nanos).Summarizes b (samples ++ [nanos]) where
  width := h.width
  count := by simp [Latency.record, h.count]
  sum := by
    simp only [Latency.record, h.sum, List.sum_append, List.sum_singleton]
    omega
  min := by rw [min?_snoc hnanos, ← h.min]; rfl
  max := by rw [max?_snoc, ← h.max]; rfl
  buckets i := by
    have hi : bucketOf b nanos = i ↔ InBucket b i nanos := bucketOf_eq_iff hb
    have hget : ∀ buckets : Vector Nat bucketCount, buckets.get i = buckets[(i : Nat)] := fun _ => rfl
    rw [List.countP_append, List.countP_singleton, ← h.buckets i]
    simp only [Latency.record, h.width, hget, Fin.getElem_fin, Vector.getElem_set, Fin.val_inj, hi,
      decide_eq_true_eq]
    split
    · rename_i hin
      rw [← hi.2 hin]
    · rfl

/-- A summary of the samples recorded so far. -/
theorem summarizes_ofSamples (width : Nat) (hfit : ∀ nanos ∈ samples, nanos ≤ maxNanos) :
    (ofSamples width samples).Summarizes (Max.max width 1) samples := by
  induction samples using List.reverseRecOn with
  | nil => exact summarizes_new width
  | append_singleton samples nanos ih =>
    obtain ⟨hfit, hnanos⟩ := List.forall_mem_append.1 hfit
    rw [ofSamples, List.foldl_append]
    exact (ih hfit).record (by omega) (hnanos nanos List.mem_cons_self)

theorem min?_eq_of_perm (h : samples.Perm samples') : samples.min? = samples'.min? :=
  Option.ext fun _ => by simp only [List.min?_eq_some_iff, h.mem_iff]

theorem max?_eq_of_perm (h : samples.Perm samples') : samples.max? = samples'.max? :=
  Option.ext fun _ => by simp only [List.max?_eq_some_iff, h.mem_iff]

/-- What a summary tells does not depend on the order of the samples. -/
theorem Summarizes.perm (h : l.Summarizes b samples) (hperm : samples.Perm samples') :
    l.Summarizes b samples' where
  width := h.width
  count := h.count.trans hperm.length_eq
  sum := by rw [h.sum, hperm.sum_eq]
  min := by rw [h.min, min?_eq_of_perm hperm]
  max := by rw [h.max, max?_eq_of_perm hperm]
  buckets i := (h.buckets i).trans (hperm.countP_eq _)

/-- There is only one summary of the same samples. -/
theorem Summarizes.unique (h : l.Summarizes b samples) (h' : l'.Summarizes b samples) : l = l' := by
  obtain ⟨min, max, sum, count, width, buckets⟩ := l
  obtain ⟨min', max', sum', count', width', buckets'⟩ := l'
  have hbuckets : buckets = buckets' :=
    Vector.ext fun i hi => (h.buckets ⟨i, hi⟩).trans (h'.buckets ⟨i, hi⟩).symm
  rw [hbuckets]
  simp only [mk.injEq]
  exact ⟨h.min.trans h'.min.symm, h.max.trans h'.max.symm, h.sum.trans h'.sum.symm,
    h.count.trans h'.count.symm, h.width.trans h'.width.symm, trivial⟩

/-- The buckets hold all samples. -/
theorem Summarizes.sum_buckets (hb : 0 < b) (h : l.Summarizes b samples) :
    ∑ i : Fin bucketCount, l.buckets.get i = l.count := by
  simp only [h.buckets, ← bucketOf_eq_iff hb, h.count]
  exact sum_countP_eq (bucketOf b) samples

theorem Summarizes.bucket_le (h : l.Summarizes b samples) (i : Fin bucketCount) :
    l.buckets.get i ≤ l.count := by
  rw [h.buckets, h.count]
  exact List.countP_le_length

end Recording

end SharedBits.Latency

namespace SharedBits

open Latency

/-- Whatever is recorded in whatever order, the summary is that of the samples: each falls into one of
the buckets, these add up to the number of samples, and no number leaves its range. -/
theorem latency_summarizes (width : Nat) {samples : List Nat}
    (hfit : ∀ nanos ∈ samples, nanos ≤ maxNanos) (hlength : samples.length < 2 ^ 64) :
    (ofSamples width samples).Summarizes (Max.max width 1) samples
    ∧ (∀ nanos i, bucketOf (Max.max width 1) nanos = i ↔ InBucket (Max.max width 1) i nanos)
    ∧ ∑ i : Fin bucketCount, (ofSamples width samples).buckets.get i = (ofSamples width samples).count
    ∧ (ofSamples width samples).count < 2 ^ 64
    ∧ (∀ i : Fin bucketCount, (ofSamples width samples).buckets.get i < 2 ^ 64)
    ∧ ∀ samples', samples'.Perm samples → ofSamples width samples' = ofSamples width samples := by
  have hb : 0 < Max.max width 1 := by omega
  have h := summarizes_ofSamples width hfit
  have hcount : (ofSamples width samples).count < 2 ^ 64 := by rwa [h.count]
  refine ⟨h, fun nanos i => bucketOf_eq_iff hb, h.sum_buckets hb, hcount,
    fun i => Nat.lt_of_le_of_lt (h.bucket_le i) hcount, fun samples' hperm => ?_⟩
  have hfit' : ∀ nanos ∈ samples', nanos ≤ maxNanos := fun nanos hmem =>
    hfit nanos (hperm.mem_iff.1 hmem)
  exact ((summarizes_ofSamples width hfit').perm hperm).unique h

/-- The first two samples alone reach the largest sum, and the edges of most buckets are beyond the
largest time. -/
theorem latency_summarizes_wide : (∀ nanos ∈ [maxNanos, 2 ^ 63, 7], nanos ≤ maxNanos)
    ∧ [maxNanos, 2 ^ 63, 7].length < 2 ^ 64
    ∧ (ofSamples (2 ^ 63) [maxNanos, 2 ^ 63, 7]).sum = maxNanos
    ∧ (ofSamples (2 ^ 63) [maxNanos, 2 ^ 63, 7]).min = 7
    ∧ (ofSamples (2 ^ 63) [maxNanos, 2 ^ 63, 7]).buckets[0] = 1
    ∧ (ofSamples (2 ^ 63) [maxNanos, 2 ^ 63, 7]).buckets[1] = 2
    ∧ ofSamples (2 ^ 63) [7, maxNanos, 2 ^ 63] = ofSamples (2 ^ 63) [maxNanos, 2 ^ 63, 7] := by
  have hfit : ∀ nanos ∈ [maxNanos, 2 ^ 63, 7], nanos ≤ maxNanos := by decide
  have hlength : [maxNanos, 2 ^ 63, 7].length < 2 ^ 64 := by decide
  obtain ⟨h, -, -, -, -, horder⟩ := latency_summarizes (2 ^ 63) hfit hlength
  exact ⟨hfit, hlength, h.sum.trans (by decide), h.min.trans (by decide),
    (h.buckets ⟨0, by decide⟩).trans (by decide), (h.buckets ⟨1, by decide⟩).trans (by decide),
    horder [7, maxNanos, 2 ^ 63] (by decide)⟩

end SharedBits
