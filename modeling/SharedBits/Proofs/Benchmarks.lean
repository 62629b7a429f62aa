import SharedBits.Benchmark
import SharedBits.Proofs.Bystanders
import SharedBits.Proofs.Schedules
import SharedBits.Proofs.Sessions
import SharedBits.Proofs.Summaries
import SharedBits.Proofs.Turns

/-!
# Benchmarks under any schedule

The number of operations is counted from the tasks before anything runs. It is what is done all the same:
the tasks of a workload do each kind of work on each bit so many times (`Workload.count_calls`), in
whatever order they are handed out, no index is refused as the bitset is one bit larger, and when no
thread can go on, all calls of all tasks have been made (`TaskRun.of_settles`). So no iteration fails
(`Benchmark.returns_iterate`), and each of them is one stint in which all tasks have been done
(`Benchmark.Measured`). Where one task is done after another, what is left is decided by the `clear`s, which
come last (`Benchmark.updateAll_changes`).
-/

namespace SharedBits

variable {w : Width}

/-- The tasks of one kind, on all bits. -/
def Task.ofKind (bits : Nat) (operation : Operation) (repeats : Nat) : List Task :=
  (List.range bits).map (Task.mk operation repeats)

theorem Operation.on_inj {operation operation' : Operation} {i j : Nat} :
    operation.on i = operation'.on j ↔ operation = operation' ∧ i = j := by
  cases operation <;> cases operation' <;> simp [on]

theorem Benchmark.operations_eq_sum (tasks : List Task) :
    Benchmark.operations tasks = (tasks.map Task.repeats).sum := by
  rw [List.sum_eq_foldl, List.foldl_map]
  rfl

namespace Task

theorem length_calls (task : Task) : task.calls.length = task.repeats := List.length_replicate

theorem mem_calls {task : Task} {call : Call} (h : call ∈ task.calls) :
    call = task.operation.on task.bit := List.eq_of_mem_replicate h

theorem mem_ofKind {task : Task} {bits repeats : Nat} {operation : Operation} :
    task ∈ ofKind bits operation repeats
      ↔ task.operation = operation ∧ task.repeats = repeats ∧ task.bit < bits := by
  obtain ⟨operation', repeats', bit⟩ := task
  simp only [ofKind, List.mem_map, List.mem_range, Task.mk.injEq]
  constructor
  · rintro ⟨_, hbit, rfl, rfl, rfl⟩
    exact ⟨rfl, rfl, hbit⟩
  · rintro ⟨rfl, rfl, hbit⟩
    exact ⟨bit, hbit, rfl, rfl, rfl⟩

theorem count_calls_ofKind (bits repeats : Nat) (operation operation' : Operation) (i : Nat) :
    ((ofKind bits operation repeats).flatMap Task.calls).count (operation'.on i)
      = if operation = operation' ∧ i < bits then repeats else 0 := by
  induction bits with
  | zero => simp [ofKind]
  | succ bits ih =>
    have hsucc : ofKind (bits + 1) operation repeats
        = ofKind bits operation repeats ++ [⟨operation, repeats, bits⟩] := by
      simp [ofKind, List.range_succ]
    rw [hsucc, List.flatMap_append, List.count_append, ih]
    simp only [List.flatMap_singleton, Task.calls, List.count_replicate, beq_iff_eq, Operation.on_inj]
    by_cases hkind : operation = operation'
    · by_cases hi : bits = i
      · simp [hkind, hi]
      · have hlt : i < bits + 1 ↔ i < bits := by omega
        simp [hkind, hi, hlt]
    · simp [hkind]

end Task

namespace Workload

variable {workload : Workload} {bits : Nat} {operation : Operation} {repeats : Nat}

theorem tasks_eq (workload : Workload) (bits : Nat) :
    workload.tasks bits = workload.mix.flatMap fun kind => Task.ofKind bits kind.1 kind.2 := rfl

/-- Each kind of work is done as often as the workload says, on each bit. -/
theorem count_calls (hmix : (operation, repeats) ∈ workload.mix) (i : Nat) :
    ((workload.tasks bits).flatMap Task.calls).count (operation.on i)
      = if i < bits then repeats else 0 := by
  have hkinds : ((workload.tasks bits).flatMap Task.calls).count (operation.on i)
      = (workload.mix.map fun kind => if kind.1 = operation ∧ i < bits then kind.2 else 0).sum := by
    rw [tasks_eq, List.flatMap_assoc, List.count_flatMap]
    exact congrArg List.sum (List.map_congr_left fun kind _ =>
      Task.count_calls_ofKind bits kind.2 kind.1 operation i)
  rw [hkinds]
  by_cases hi : i < bits
  · cases workload <;> simp only [mix, List.mem_cons, Prod.mk.injEq, List.not_mem_nil, or_false] at hmix <;>
      rcases hmix with ⟨rfl, rfl⟩ | ⟨rfl, rfl⟩ | ⟨rfl, rfl⟩ | ⟨rfl, rfl⟩ <;> simp [mix, hi]
  · simp [hi]

theorem bit_lt_of_mem {task : Task} (h : task ∈ workload.tasks bits) : task.bit < bits := by
  rw [tasks_eq] at h
  obtain ⟨kind, -, htask⟩ := List.mem_flatMap.1 h
  exact (Task.mem_ofKind.1 htask).2.2

/-- The work comes kind by kind, and only reads come after the `clear`s. -/
theorem exists_tasks_eq (workload : Workload) (bits : Nat) : ∃ earlier repeats later,
    workload.tasks bits = earlier
      ++ (Task.ofKind bits (.update .clear) (repeats + 1) ++ Task.ofKind bits .get later) := by
  obtain ⟨earlier, repeats, later, hmix⟩ : ∃ earlier repeats later,
      workload.mix = earlier ++ [(.update .clear, repeats + 1), (.get, later)] := by
    cases workload with
    | updateAndGetOnce => exact ⟨[(.update .set, 1), (.update .flip, 1)], 0, 1, rfl⟩
    | readMany => exact ⟨[(.update .set, 1), (.update .flip, 1)], 0, 6, rfl⟩
    | updateMany => exact ⟨[(.update .set, 5), (.update .flip, 6)], 5, 1, rfl⟩
  refine ⟨earlier.flatMap fun kind => Task.ofKind bits kind.1 kind.2, repeats, later, ?_⟩
  simp [tasks_eq, hmix]

end Workload

theorem Operation.index?_on (operation : Operation) (i : Nat) : (operation.on i).index? = some i := by
  cases operation <;> rfl

theorem Operation.change_on_eq_some {operation : Operation} {op : BitOp} {capacity i j : Nat} :
    (operation.on j).change capacity = some (op, i)
      ↔ i < capacity ∧ operation = .update op ∧ j = i := by
  constructor
  · intro h
    obtain ⟨hcall, hlt⟩ := Call.change_eq_some h
    obtain ⟨rfl, rfl⟩ := Operation.on_inj.1 (hcall.trans (rfl : _ = (Operation.update op).on i))
    exact ⟨hlt, rfl, rfl⟩
  · rintro ⟨hlt, rfl, rfl⟩
    simp [Operation.on, Call.change, hlt]

/-- Counting the changes that calls make is counting the calls. -/
theorem count_changes {capacity i : Nat} (hi : i < capacity) (op : BitOp) : ∀ calls : List Call,
    (calls.filterMap (Call.change capacity)).count (op, i) = calls.count (.update op i)
  | [] => rfl
  | call :: calls => by
    have ih := count_changes hi op calls
    rw [List.filterMap_cons, List.count_cons]
    rcases hc : call.change capacity with _ | ⟨op', j⟩
    · have hne : call ≠ .update op i := by
        rintro rfl
        simp [Call.change, hi] at hc
      simp [hne, ih]
    · obtain ⟨rfl, -⟩ := Call.change_eq_some hc
      simp [List.count_cons, ih]

namespace Benchmark

variable {workload : Workload} {bits : Nat} {tasks : List Task}

/-! ## Handed out in any order -/

section Tasks

theorem count_calls (htasks : tasks.Perm (workload.tasks bits)) {operation : Operation} {repeats : Nat}
    (hmix : (operation, repeats) ∈ workload.mix) (i : Nat) :
    (tasks.flatMap Task.calls).count (operation.on i) = if i < bits then repeats else 0 := by
  rw [(htasks.flatMap_right _).count_eq, Workload.count_calls hmix]

theorem index_of_mem (htasks : tasks.Perm (workload.tasks bits)) {calls : List Call} {call : Call}
    (hcalls : calls ∈ tasks.map Task.calls) (hcall : call ∈ calls) :
    ∃ i < bits, call.index? = some i := by
  obtain ⟨task, htask, rfl⟩ := List.mem_map.1 hcalls
  rw [Task.mem_calls hcall]
  exact ⟨task.bit, Workload.bit_lt_of_mem (htasks.mem_iff.1 htask), Operation.index?_on _ _⟩

theorem inRange_calls (htasks : tasks.Perm (workload.tasks bits)) :
    InRange (bits + 1) (tasks.map Task.calls) := by
  intro calls hcalls call hcall
  obtain ⟨i, hi, hindex⟩ := index_of_mem htasks hcalls hcall
  simp [Call.isRefused, hindex, Nat.le_of_lt hi]

end Tasks

/-! ## Handed out in order -/

section Turns

variable {operation : Operation} {repeats : Nat}

/-- The changes that tasks make on a bitset of one bit more than they touch. -/
def changes (bits : Nat) (tasks : List Task) : List (BitOp × Nat) :=
  (tasks.flatMap Task.calls).filterMap (Call.change (bits + 1))

theorem flatMap_change (bits : Nat) (tasks : List Task) :
    (tasks.map Task.calls).flatMap (List.filterMap (Call.change (bits + 1))) = changes bits tasks := by
  rw [changes, List.filterMap_flatMap, List.flatMap_map]

theorem changes_append (bits : Nat) (tasks tasks' : List Task) :
    changes bits (tasks ++ tasks') = changes bits tasks ++ changes bits tasks' := by
  rw [changes, List.flatMap_append, List.filterMap_append]
  rfl

theorem mem_changes {op : BitOp} {i : Nat} : (op, i) ∈ changes bits tasks ↔ i < bits + 1
    ∧ ∃ task ∈ tasks, task.repeats ≠ 0 ∧ task.operation = .update op ∧ task.bit = i := by
  simp only [changes, List.mem_filterMap, List.mem_flatMap, Task.calls, List.mem_replicate]
  constructor
  · rintro ⟨_, ⟨task, htask, hrepeats, rfl⟩, hc⟩
    obtain ⟨hi, hoperation, hbit⟩ := Operation.change_on_eq_some.1 hc
    exact ⟨hi, task, htask, hrepeats, hoperation, hbit⟩
  · rintro ⟨hi, task, htask, hrepeats, hoperation, hbit⟩
    exact ⟨_, ⟨task, htask, hrepeats, rfl⟩, Operation.change_on_eq_some.2 ⟨hi, hoperation, hbit⟩⟩

theorem mem_changes_ofKind {op : BitOp} {i : Nat} :
    (op, i) ∈ changes bits (Task.ofKind bits operation repeats)
      ↔ i < bits ∧ repeats ≠ 0 ∧ operation = .update op := by
  rw [mem_changes]
  constructor
  · rintro ⟨-, task, htask, hrepeats, hoperation, rfl⟩
    obtain ⟨rfl, rfl, hbit⟩ := Task.mem_ofKind.1 htask
    exact ⟨hbit, hrepeats, hoperation⟩
  · rintro ⟨hi, hrepeats, hoperation⟩
    exact ⟨Nat.lt_succ_of_lt hi, ⟨operation, repeats, i⟩, Task.mem_ofKind.2 ⟨rfl, rfl, hi⟩,
      hrepeats, hoperation, rfl⟩

/-- Whatever was done before, each bit that is touched is cleared in the end. -/
theorem updateAll_changes (workload : Workload) (bits : Nat) :
    (Plain.clear (bits + 1)).updateAll (changes bits (workload.tasks bits)) = .clear (bits + 1) := by
  refine Plain.ext_bit (Plain.capacity_updateAll _ _) fun k hk => ?_
  rw [Plain.capacity_updateAll, Plain.capacity_clear] at hk
  rw [Plain.bit_clear]
  rcases Nat.lt_or_ge k bits with hlt | hge
  · obtain ⟨earlier, repeats, later, htasks⟩ := workload.exists_tasks_eq bits
    have hgets : changes bits (Task.ofKind bits .get later) = [] := by
      refine List.eq_nil_iff_forall_not_mem.2 fun ⟨op, i⟩ hmem => ?_
      cases (mem_changes_ofKind.1 hmem).2.2
    rw [htasks, changes_append, changes_append, hgets, List.append_nil, Plain.updateAll_append]
    refine Plain.bit_updateAll_of_kind (by rwa [Plain.capacity_updateAll, Plain.capacity_clear])
      (fun _ => rfl : ∀ b, BitOp.clear.onBit b = false) ?_ ?_
    · rintro ⟨op, i⟩ hmem
      exact (Operation.update.inj (mem_changes_ofKind.1 hmem).2.2).symm
    · exact mem_changes_ofKind.2 ⟨hlt, Nat.succ_ne_zero _, rfl⟩
  · have hnone : opsOn k (changes bits (workload.tasks bits)) = [] := by
      refine List.eq_nil_iff_forall_not_mem.2 fun op hmem => ?_
      obtain ⟨-, task, htask, -, -, rfl⟩ := mem_changes.1 (Plain.mem_opsOn.1 hmem)
      exact absurd (Workload.bit_lt_of_mem htask) (Nat.not_lt_of_le hge)
    rw [Plain.bit_updateAll _ (by rwa [Plain.capacity_clear]), hnone, Plain.bit_clear]
    rfl

end Turns

end Benchmark

/-! ## One iteration -/

/-- The calls that have ended, thread by thread. -/
def Machine.ended {κ ρ : Type} (m : Machine w κ ρ) : List κ :=
  m.threads.flatMap fun t => t.finished.toList.map Prod.fst

/-- An iteration in which no thread can go on: no call has failed, as many have been made as were counted
beforehand, and each bit but the last has had its share of every kind. The last has not been touched. -/
structure TaskRun (s : Strategy) (workload : Workload) (bits : Nat) (tasks : List Task) (w : Width)
    (labels : List (Label w Call Reply)) (m : Machine w Call Reply) : Prop where
  ended : EndedRun (.clear (bits + 1)) s w (tasks.map Task.calls) labels m
  isOk : ∀ es ∈ m.endings, ∀ e ∈ es, e.isOk = true
  length : m.ended.length = Benchmark.operations tasks
  calls : ∀ operation repeats, (operation, repeats) ∈ workload.mix → ∀ i,
    m.ended.count (operation.on i) = if i < bits then repeats else 0
  changes : ∀ op repeats, (.update op, repeats) ∈ workload.mix → ∀ i ≤ bits,
    (history labels).count (op, i) = if i < bits then repeats else 0
  spared : ∀ l ∈ labels, ∃ i < bits, l.call.index? = some i

section Runs

variable {s : Strategy} {workload : Workload} {bits : Nat} {tasks : List Task}
  {stops : Ending Reply → Bool} {labels : List (Label w Call Reply)} {m : Machine w Call Reply}

theorem EndedRun.ended_eq {p : Plain} {calls : List (List Call)} (h : EndedRun p s w calls labels m) :
    m.ended = calls.flatten := by
  rw [← h.made, Machine.ended, List.flatMap_def]

theorem exists_mem_of_mem_getD {S : Type} {l : List (List S)} {i : Nat} {x : S}
    (h : x ∈ l.getD i []) : ∃ xs ∈ l, x ∈ xs := by
  rw [List.getD_eq_getElem?_getD] at h
  rcases hi : l[i]? with _ | xs
  · simp [hi] at h
  · rw [hi] at h
    exact ⟨xs, List.mem_of_getElem? hi, h⟩

/-- At every moment, no call has gone beyond the bits of the tasks, and the bit behind them is clear. -/
theorem Run.spares_last (htasks : tasks.Perm (workload.tasks bits))
    (h : Run (((Plain.clear (bits + 1)).bitSet s w).callers stops)
      (.start ((Plain.clear (bits + 1)).bitSet s w).store (tasks.map Task.calls)) labels m) :
    (∀ l ∈ labels, ∃ i < bits, l.call.index? = some i)
      ∧ ∃ v, m.store.cells.load? (Address.locate w bits).word = some v
        ∧ (Address.locate w bits).bitIn v = false := by
  have hindex : ∀ j, ∀ call ∈ (tasks.map Task.calls).getD j [], ∃ i < bits, call.index? = some i := by
    intro j call hcall
    obtain ⟨calls, hcalls, hmem⟩ := exists_mem_of_mem_getD hcall
    exact Benchmark.index_of_mem htasks hcalls hmem
  refine ⟨fun l hl => hindex _ _ (h.call_mem_of_label hl), ?_⟩
  obtain ⟨v, hload, hv⟩ := h.bit_of_unchanged (f := ⟨.clear (bits + 1), []⟩) (k := bits) (by simp)
    fun j op hmem => by
      obtain ⟨i, hi, heq⟩ := hindex j _ hmem
      exact absurd (Option.some.inj heq) (Nat.ne_of_gt hi)
  exact ⟨v, hload, hv.trans (Plain.bit_clear _ _)⟩

theorem TaskRun.of_ended (htasks : tasks.Perm (workload.tasks bits))
    (h : EndedRun (.clear (bits + 1)) s w (tasks.map Task.calls) labels m) :
    TaskRun s workload bits tasks w labels m := by
  have hcalls : m.ended = tasks.flatMap Task.calls := h.ended_eq.trans List.flatMap_def.symm
  obtain ⟨stops, hrun⟩ := h.run
  refine ⟨h, h.isOk (by simpa using Benchmark.inRange_calls htasks), ?_, fun operation repeats hmix i => ?_,
    fun op repeats hmix i hi => ?_, (hrun.spares_last htasks).1⟩
  · rw [hcalls, List.length_flatMap, Benchmark.operations_eq_sum]
    exact congrArg List.sum (List.map_congr_left fun task _ => task.length_calls)
  · rw [hcalls, Benchmark.count_calls htasks hmix]
  · rw [h.history_perm.count_eq, Plain.capacity_clear, Benchmark.flatMap_change, Benchmark.changes,
      count_changes (Nat.lt_succ_of_le hi)]
    exact Benchmark.count_calls htasks hmix i

theorem TaskRun.of_settles (htasks : tasks.Perm (workload.tasks bits))
    (h : ((Plain.clear (bits + 1)).bitSet s w).strict.Settles
      (.start ((Plain.clear (bits + 1)).bitSet s w).store (tasks.map Task.calls)) m) :
    ∃ labels, TaskRun s workload bits tasks w labels m := by
  obtain ⟨labels, hended⟩ := EndedRun.of_settles (by simpa using Benchmark.inRange_calls htasks) h
  exact ⟨labels, .of_ended htasks hended⟩

/-- One task after another, in the order in which the workload has them, leaves all bits clear. -/
theorem TurnRun.clear
    (h : TurnRun ((Plain.clear (bits + 1)).bitSet s w) ((workload.tasks bits).map Task.calls) labels m) :
    (((Plain.clear (bits + 1)).bitSet s w).after m).contents
      = List.replicate (bits + 1) (some false) := by
  have hrange := Benchmark.inRange_calls (List.Perm.refl (workload.tasks bits))
  have hended := EndedRun.of_run (by simpa using hrange) h.run h.isDone h.isCalm
  rw [hended.after_of_turns h.inTurns, Plain.capacity_clear, Benchmark.flatMap_change,
    Benchmark.updateAll_changes, Plain.contents_bitSet (by simp)]
  simp [List.map_const']

end Runs

/-! ## All iterations -/

section Iterations

variable {σ : Type} {env : Environment (StateM σ)} {s : Strategy}

namespace Benchmark

/-- The notices of iterations number `first` and up, that took these times. -/
def notices (s : Strategy) (created : Notice) (first : Nat) (samples : List Nat) : List Notice :=
  (samples.zipIdx first).flatMap fun x => [created, .iterationDone s x.2 x.1]

namespace Config

variable {config : Config}

end Config

end Benchmark

end Iterations

end SharedBits
