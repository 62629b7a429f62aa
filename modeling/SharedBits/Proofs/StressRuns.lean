import Mathlib.Data.List.Rotate
import SharedBits.Proofs.Schedules
import SharedBits.Proofs.Sessions
import SharedBits.Proofs.Solo
import SharedBits.Stress

/-!
# Stress runs under any schedule

A writer that starts at some bit and goes around sets every bit once (`Stress.writerBits_perm`). No call
of a stress run is out of range, and nothing but a `set` changes a bit, so it does not matter in which
order the writers meet on a word: when none of the threads can go on, every bit is set if there is a
writer, and none otherwise (`StressRun.of_ended`). One stint of the threads is such a run, and what the
session tells of it is what was due (`Stress.returns_run`).
-/

namespace SharedBits

variable {w : Width}

/-! ## Bits that are all the same -/

namespace Plain

theorem bit_replicate {n k : Nat} (hk : k < n) (b : Bool) : (⟨List.replicate n b⟩ : Plain).bit k = b := by
  simp [bit, List.getD_eq_getElem?_getD, hk]

theorem capacity_replicate (n : Nat) (b : Bool) : (⟨List.replicate n b⟩ : Plain).capacity = n :=
  List.length_replicate

theorem ones_replicate (n : Nat) (b : Bool) :
    (⟨List.replicate n b⟩ : Plain).ones = if b then n else 0 := by
  cases b <;> simp [ones, List.count_replicate]

end Plain

namespace Stress

variable {capacity passes writer : Nat} {config : Config}

/-! ## The calls -/

theorem writerBits_eq_rotate (capacity writer : Nat) :
    writerBits capacity writer = (List.range capacity).rotate writer := by
  refine List.ext_getElem (by simp [writerBits]) fun step h _ => ?_
  simp [writerBits, List.getElem_rotate]

/-- Wherever a writer starts, it comes by every bit once. -/
theorem writerBits_perm (capacity writer : Nat) :
    (writerBits capacity writer).Perm (List.range capacity) := by
  rw [writerBits_eq_rotate]
  exact List.rotate_perm _ _

theorem mem_writerBits {i : Nat} : i ∈ writerBits capacity writer ↔ i < capacity := by
  rw [(writerBits_perm capacity writer).mem_iff, List.mem_range]

theorem mem_readerCalls {call : Call} (h : call ∈ readerCalls capacity passes) :
    ∃ i < capacity, call = .get i := by
  simp only [readerCalls, List.mem_map, List.mem_flatten, List.mem_replicate] at h
  obtain ⟨i, ⟨bits, ⟨-, rfl⟩, hi⟩, rfl⟩ := h
  exact ⟨i, List.mem_range.1 hi, rfl⟩

theorem length_readerCalls (capacity passes : Nat) :
    (readerCalls capacity passes).length = passes * capacity := by
  simp only [readerCalls, List.length_map, List.length_flatten, List.map_replicate, List.length_range,
    List.sum_replicate_nat]

theorem mem_writerCalls {call : Call} :
    call ∈ writerCalls capacity writer ↔ ∃ i < capacity, call = .update .set i := by
  simp [writerCalls, mem_writerBits, eq_comm]

theorem length_writerCalls (capacity writer : Nat) :
    (writerCalls capacity writer).length = capacity := by
  simp [writerCalls, writerBits]

theorem mem_threads {calls : List Call} : calls ∈ threads capacity config
    ↔ (config.readers ≠ 0 ∧ calls = readerCalls capacity config.passes)
      ∨ ∃ writer < config.writers, calls = writerCalls capacity writer := by
  simp [threads, List.map_const', List.mem_replicate, eq_comm]

theorem getElem?_threads_writer (h : writer < config.writers) :
    (threads capacity config)[config.readers + writer]? = some (writerCalls capacity writer) := by
  simp [threads, h]

theorem inRange_threads : InRange capacity (threads capacity config) := by
  intro calls hcalls call hcall
  rcases mem_threads.1 hcalls with ⟨-, rfl⟩ | ⟨writer, -, rfl⟩
  · obtain ⟨i, hi, rfl⟩ := mem_readerCalls hcall
    simp [Call.isRefused, Call.index?, hi]
  · obtain ⟨i, hi, rfl⟩ := mem_writerCalls.1 hcall
    simp [Call.isRefused, Call.index?, hi]

theorem oneWriter_threads (h : config.writers ≤ 1) : OneWriter capacity (threads capacity config) := by
  refine ⟨config.readers, fun j hj call hcall => ?_⟩
  rcases Nat.lt_or_ge j config.readers with hlt | hge
  · have hreader : (threads capacity config).getD j [] = readerCalls capacity config.passes := by
      simp [threads, List.getElem?_append_left, hlt]
    rw [hreader] at hcall
    obtain ⟨i, -, rfl⟩ := mem_readerCalls hcall
    rfl
  · have hlength : (threads capacity config).length ≤ j := by
      simp only [threads, List.length_append, List.length_map, List.length_range]
      omega
    rw [List.getD_eq_getElem?_getD, List.getElem?_eq_none hlength] at hcall
    simp at hcall

/-- The calls of the readers, and those of the writers. -/
theorem calls_of_threads (capacity : Nat) (config : Config) :
    (((threads capacity config).map List.length).take config.readers).sum
        = config.readers * config.passes * capacity
      ∧ (((threads capacity config).map List.length).drop config.readers).sum
        = config.writers * capacity := by
  have hreaders : ((List.range config.readers).map fun _ => readerCalls capacity config.passes).map
      List.length = List.replicate config.readers (config.passes * capacity) := by
    simp [List.map_const', length_readerCalls]
  have hwriters : ((List.range config.writers).map (writerCalls capacity)).map List.length
      = List.replicate config.writers capacity := by
    simp [List.map_map, Function.comp_def, length_writerCalls, List.map_const']
  rw [threads, List.map_append, hreaders, hwriters]
  refine ⟨?_, ?_⟩
  · rw [List.take_left' (List.length_replicate), List.sum_replicate_nat, Nat.mul_assoc]
  · rw [List.drop_left' (List.length_replicate), List.sum_replicate_nat]

/-- As long as the number of all writes can be told, so can the sums that writers divide. -/
theorem step_add_writer_lt {step : Nat} (hwriter : writer < config.writers) (hstep : step < capacity) :
    step + writer < config.writers * capacity := by
  have hle : (writer + 1) * capacity ≤ config.writers * capacity := Nat.mul_le_mul_right _ hwriter
  have hge : writer * 1 ≤ writer * capacity := Nat.mul_le_mul_left _ (by omega)
  rw [Nat.add_mul] at hle
  omega

end Stress

/-! ## The runs -/

/-- A stress run in which no thread can go on: no call has been refused, each writer has set every bit
once, going around from its own start, and every bit is set if there is a writer. -/
structure StressRun (s : Strategy) (capacity : Nat) (config : Stress.Config) (w : Width)
    (labels : List (Label w Call Reply)) (m : Machine w Call Reply) : Prop where
  ended : EndedRun (.clear capacity) s w (Stress.threads capacity config) labels m
  isOk : ∀ es ∈ m.endings, ∀ e ∈ es, e.isOk = true
  visits : ∀ writer < config.writers,
    (labels.filter fun l => l.thread == config.readers + writer).filterMap Label.change?
        = (List.range capacity).map (fun step => (.set, (step + writer) % capacity))
      ∧ ((List.range capacity).map fun step => (step + writer) % capacity).Perm (List.range capacity)
  bits : ((Plain.clear capacity).bitSet s w).after m
    = (Plain.mk (List.replicate capacity (decide (0 < config.writers)))).bitSet s w

section Runs

variable {s : Strategy} {capacity : Nat} {config : Stress.Config}
  {labels : List (Label w Call Reply)} {m : Machine w Call Reply}

theorem EndedRun.mem_history_stress
    (h : EndedRun (.clear capacity) s w (Stress.threads capacity config) labels m)
    {change : BitOp × Nat} : change ∈ history labels
      ↔ 0 < config.writers ∧ change.1 = .set ∧ change.2 < capacity := by
  rw [h.mem_history]
  constructor
  · rintro ⟨calls, hcalls, call, hcall, hchange⟩
    rcases Stress.mem_threads.1 hcalls with ⟨-, rfl⟩ | ⟨writer, hwriter, rfl⟩
    · obtain ⟨i, -, rfl⟩ := Stress.mem_readerCalls hcall
      cases hchange
    · obtain ⟨i, hi, rfl⟩ := Stress.mem_writerCalls.1 hcall
      simp only [Call.change, Plain.capacity_clear, if_pos hi] at hchange
      cases hchange
      exact ⟨by omega, rfl, hi⟩
  · obtain ⟨op, i⟩ := change
    rintro ⟨hpos, rfl, hi⟩
    refine ⟨Stress.writerCalls capacity 0, Stress.mem_threads.2 (.inr ⟨0, hpos, rfl⟩), .update .set i,
      Stress.mem_writerCalls.2 ⟨i, hi, rfl⟩, ?_⟩
    simp [Call.change, hi]

theorem EndedRun.after_stress
    (h : EndedRun (.clear capacity) s w (Stress.threads capacity config) labels m) :
    (Plain.clear capacity).after labels
      = ⟨List.replicate capacity (decide (0 < config.writers))⟩ := by
  refine Plain.ext_bit (by simp [Plain.capacity_replicate]) fun k hk => ?_
  have hk : k < capacity := by simpa using hk
  rw [Plain.bit_replicate hk]
  rcases Nat.eq_zero_or_pos config.writers with hzero | hpos
  · have hnone : history labels = [] :=
      List.eq_nil_iff_forall_not_mem.2 fun change hmem => by
        simpa [hzero] using (h.mem_history_stress.1 hmem).1
    simp [Plain.after, hnone, Plain.updateAll, hzero]
  · rw [decide_eq_true hpos]
    exact Plain.bit_updateAll_of_kind (by simpa using hk) (fun _ => rfl)
      (fun change hmem => (h.mem_history_stress.1 hmem).2.1) (h.mem_history_stress.2 ⟨hpos, rfl, hk⟩)

theorem StressRun.of_ended (hs : s.isSynchronized = true ∨ config.writers ≤ 1)
    (h : EndedRun (.clear capacity) s w (Stress.threads capacity config) labels m) :
    StressRun s capacity config w labels m := by
  refine ⟨h, h.isOk (by simpa using Stress.inRange_threads),
    fun writer hwriter => ⟨?_, Stress.writerBits_perm capacity writer⟩, ?_⟩
  · have hcalls : (Stress.threads capacity config).getD (config.readers + writer) []
        = Stress.writerCalls capacity writer := by
      rw [List.getD_eq_getElem?_getD, Stress.getElem?_threads_writer hwriter]
      rfl
    rw [h.changes_of_thread, hcalls, Plain.capacity_clear, Stress.writerCalls, Stress.writerBits,
      List.map_map, List.filterMap_map, ← List.filterMap_eq_map]
    refine List.filterMap_congr fun step hstep => ?_
    have hlt : (step + writer) % capacity < capacity :=
      Nat.mod_lt _ (Nat.zero_lt_of_lt (List.mem_range.1 hstep))
    simp [Call.change, hlt]
  · have hone : config.writers ≤ 1 →
        OneWriter (Plain.clear capacity).capacity (Stress.threads capacity config) := by
      simpa using Stress.oneWriter_threads
    rw [h.after_eq (hs.imp_right hone), h.after_stress]

theorem StressRun.of_settles (hs : s.isSynchronized = true ∨ config.writers ≤ 1)
    (h : ((Plain.clear capacity).bitSet s w).strict.Settles
      (.start ((Plain.clear capacity).bitSet s w).store (Stress.threads capacity config)) m) :
    ∃ labels, StressRun s capacity config w labels m := by
  obtain ⟨labels, hended⟩ := EndedRun.of_settles (by simpa using Stress.inRange_threads) h
  exact ⟨labels, .of_ended hs hended⟩

end Runs

/-! ## What is told of a run -/

namespace StressRun

open Session

variable {s : Strategy} {capacity : Nat} {config : Stress.Config} {labels : List (Label w Call Reply)}
  {m : Machine w Call Reply} {n : Type → Type} [Monad n]

theorem tallyAll_readers [LawfulMonad n] (h : StressRun s capacity config w labels m) :
    (tallyAll "reader" .refused (m.endings.take config.readers) : Session n Nat)
      = pure (config.readers * config.passes * capacity) := by
  rw [tallyAll_eq_pure _ _ fun es hes => h.isOk es (List.mem_of_mem_take hes), List.map_take,
    h.ended.length_endings, (Stress.calls_of_threads capacity config).1]

theorem tallyAll_writers [LawfulMonad n] (h : StressRun s capacity config w labels m) :
    (tallyAll "writer" .refused (m.endings.drop config.readers) : Session n Nat)
      = pure (config.writers * capacity) := by
  rw [tallyAll_eq_pure _ _ fun es hes => h.isOk es (List.mem_of_mem_drop hes), List.map_drop,
    h.ended.length_endings, (Stress.calls_of_threads capacity config).2]

theorem count_after (h : StressRun s capacity config w labels m) (hcap : 0 < capacity) :
    (count (((Plain.clear capacity).bitSet s w).after m) : Session n Nat)
      = pure (if config.writers = 0 then 0 else capacity) := by
  rw [h.bits, count_bitSet (by rwa [Plain.capacity_replicate]), Plain.ones_replicate]
  rcases Nat.eq_zero_or_pos config.writers with hzero | hpos
  · simp [hzero]
  · simp [hpos, Nat.ne_of_gt hpos]

end StressRun

section Sessions

variable {σ : Type} {env : Environment (StateM σ)} {s : Strategy} {capacity : Nat}

/-- What a run does in this time, if no `set` of its writers is lost. -/
def Stress.due (config : Config) (capacity nanos : Nat) : Outcome where
  reads := config.readers * config.passes * capacity
  writes := config.writers * capacity
  setBits := if config.writers = 0 then 0 else capacity
  nanos := nanos

/-- Whatever the schedule, the threads make a stress run in one stint, and what is due is told of it. -/
theorem Stress.returns_run (henv : env.IsLawful) {config : Config} {b : BitSet s.defaultWidth}
    (hb : s.bitSet capacity = .ok b) (hs : s.isSynchronized = true ∨ config.writers ≤ 1)
    (t : Transcript) : (run env s capacity config).Returns env t fun outcome t' stints =>
      (∃ labels m, stints = [b.stint (threads capacity config) m]
        ∧ StressRun s capacity config s.defaultWidth labels m)
      ∧ (∃ nanos, outcome = due config capacity nanos) ∧ t' = t.append [] [b.notice] := by
  unfold run
  refine Session.ensures_build_bind hb _ (Session.ensures_now_bind fun began => ?_)
  refine Session.ensures_finish_bind henv hb _ fun m hsettles => ?_
  obtain ⟨hcap, rfl⟩ := BitSet.eq_clear_of_create hb
  obtain ⟨labels, h⟩ := StressRun.of_settles hs hsettles
  rw [h.tallyAll_readers, h.tallyAll_writers, h.count_after hcap]
  simp only [pure_bind]
  refine Session.ensures_now_bind fun ended => ?_
  exact Session.returns_pure ⟨⟨labels, m, rfl, h⟩, ⟨ended - began, rfl⟩, rfl⟩

/-- Whatever the schedule, a stress run ends without a failure and has read, written and set as many bits
as it should. -/
theorem stress_sets_every_bit (henv : env.IsLawful) (hcap : 0 < capacity) (config : Stress.Config)
    (hs : s.isSynchronized = true ∨ config.writers ≤ 1) :
    ∃ b, s.bitSet capacity = .ok b
      ∧ b.strict.Terminates (.start b.store (Stress.threads capacity config))
      ∧ (∀ m, b.strict.Settles (.start b.store (Stress.threads capacity config)) m →
        ∃ labels, StressRun s capacity config s.defaultWidth labels m)
      ∧ (∀ writer < config.writers, ∀ step < capacity, step + writer < config.writers * capacity)
      ∧ ∀ t, (Stress.run env s capacity config).Returns env t fun outcome t' stints =>
        (∃ labels m, stints = [b.stint (Stress.threads capacity config) m]
          ∧ StressRun s capacity config s.defaultWidth labels m)
          ∧ outcome.reads = config.readers * config.passes * capacity
          ∧ outcome.writes = config.writers * capacity
          ∧ outcome.setBits = (if config.writers = 0 then 0 else capacity)
          ∧ t' = t.append [] [b.notice] := by
  have hb : s.bitSet capacity = .ok ((Plain.clear capacity).bitSet s s.defaultWidth) :=
    Fragile.create_eq hcap s s.defaultWidth
  refine ⟨_, hb, Fragile.terminates ⟨.clear capacity, []⟩ s _ _ _, fun m hm => StressRun.of_settles hs hm,
    fun writer hwriter step hstep => Stress.step_add_writer_lt hwriter hstep, fun t => ?_⟩
  refine (Stress.returns_run henv hb hs t).mono ?_
  rintro r t' stints ⟨outcome, hr, hrun, ⟨nanos, rfl⟩, ht⟩
  exact ⟨_, hr, hrun, rfl, rfl, rfl, ht⟩

/-- More writers than bits: two of them start where others have started, having gone around once. -/
theorem stress_sets_every_bit_crowded : Environment.noting.IsLawful ∧ 0 < 10
    ∧ (Strategy.lockFree.isSynchronized = true ∨ 12 ≤ 1)
    ∧ ∃ b outcome labels m, Strategy.lockFree.bitSet 10 = .ok b
      ∧ (Stress.run .noting .lockFree 10 ⟨2, 12, 3⟩).result {} []
        = ((.ok outcome, { notices := #[.created .lockFree 10 2 8] }),
          [b.stint (Stress.threads 10 ⟨2, 12, 3⟩) m])
      ∧ StressRun .lockFree 10 ⟨2, 12, 3⟩ .w8 labels m
      ∧ outcome.reads = 60 ∧ outcome.writes = 120 ∧ outcome.setBits = 10 := by
  have hlawful := Environment.isLawful_noting
  obtain ⟨b, hb, -, -, -, hreturns⟩ :=
    stress_sets_every_bit hlawful (s := .lockFree) (show 0 < 10 by decide) ⟨2, 12, 3⟩ (.inl rfl)
  obtain ⟨stints, hserved, outcome, hok, ⟨labels, m, rfl, hrun⟩, hreads, hwrites, hset, ht⟩ :=
    hreturns {} []
  refine ⟨hlawful, by decide, .inl rfl, b, outcome, labels, m, hb, ?_, hrun, hreads, hwrites, hset⟩
  cases hb
  exact Prod.ext (Prod.ext hok ht) hserved.eq_append

end Sessions

end SharedBits
