import SharedBits.Proofs.Alone

/-!
# Steps of a lone caller

A caller makes calls, and series of updates that count as one step. Under a fuse `k` the computation
number `k` of a step panics. What the caller sees and what it leaves behind are what `Fragile` says of
plain bits and poisoned locks (`actAll_bitSet`). A sweep is a series of updates
(`performStep_eq_act`).
-/

namespace SharedBits

variable {w : Width}

/-- What a caller does in one step. -/
inductive Action where
  | call (call : Call)
  /-- Updates, up to the first that is refused. -/
  | series (updates : List (BitOp × Nat))

/-- The updates of a sweep, one by one. -/
def Step.action : Step → Action
  | .call c => .call c
  | .sweep op start stop stride =>
    .series ((List.range ((stop - start + stride - 1) / stride)).map fun j => (op, start + j * stride))

namespace Strategy

open Prog

/-- Makes updates in order, up to the first refusal. -/
def series (s : Strategy) (w : Width) (capacity : Nat) :
    List (BitOp × Nat) → Prog w (Except Error Unit)
  | [] => ret (.ok ())
  | (op, i) :: us => (s.update w capacity op i).bind fun
    | .error e => ret (.error e)
    | .ok () => s.series w capacity us

/-- The program of an action. -/
def actionCode (s : Strategy) (w : Width) (capacity : Nat) : Action → Prog w Reply
  | .call c => s.code w capacity c
  | .series us => (s.series w capacity us).bind fun r => ret (r.map fun _ => .done)

end Strategy

namespace BitSet

/-- Makes one step, which panics as the fuse says. -/
def act (b : BitSet w) (fuse : Option Nat) (action : Action) : Ending Reply × BitSet w :=
  b.run fuse (b.strategy.actionCode w b.capacity action)

/-- Makes steps in order, each under its own fuse. -/
def actAll (b : BitSet w) : List (Option Nat × Action) → List (Ending Reply) × BitSet w
  | [] => ([], b)
  | (fuse, action) :: turns =>
    let (ending, b) := b.act fuse action
    let (endings, b) := b.actAll turns
    (ending :: endings, b)

end BitSet

namespace Fragile

/-- Makes updates under one fuse, up to the first that is refused or panics. -/
def series (f : Fragile) (s : Strategy) (w : Width) (fuse : Option Nat) :
    List (BitOp × Nat) → Ending Reply × Fragile
  | [] => (.returned (.ok .done), f)
  | (op, i) :: us =>
    match f.update s w fuse op i with
    | (.returned (.ok _), fuse, f) => f.series s w fuse us
    | (stopped, _, f) => (stopped, f)

/-- Makes an action under a fuse. -/
def act (f : Fragile) (s : Strategy) (w : Width) (fuse : Option Nat) :
    Action → Ending Reply × Fragile
  | .call c => f.performStep s w fuse (.call c)
  | .series us => f.series s w fuse us

/-- Makes actions in order, each under its own fuse. -/
def actAll (f : Fragile) (s : Strategy) (w : Width) :
    List (Option Nat × Action) → List (Ending Reply) × Fragile
  | [] => ([], f)
  | (fuse, action) :: turns =>
    let (ending, f) := f.act s w fuse action
    let (endings, f) := f.actAll s w turns
    (ending :: endings, f)

/-- All bits clear and no lock poisoned. -/
def fresh (capacity : Nat) : Fragile := ⟨.clear capacity, []⟩

/-- The bitset of these bits and poisoned locks that nobody uses now. -/
def bitSet (f : Fragile) (s : Strategy) (w : Width) : BitSet w :=
  ⟨s, f.plain.capacity, f.store s w⟩

/-! ## The steps of the bitset -/

open Prog

variable {f : Fragile} {s : Strategy}

theorem plain_panic (f : Fragile) (s : Strategy) (word : Nat) (isAlone : Bool) :
    (f.panic s word isAlone).plain = f.plain := by
  unfold panic
  split
  · split <;> rfl
  · rfl

theorem capacity_get (f : Fragile) (s : Strategy) (w : Width) (fuse : Option Nat) (i : Nat) :
    (f.get s w fuse i).2.plain.capacity = f.plain.capacity := by
  unfold Fragile.get
  split_ifs
  · rfl
  · rfl
  · split
    · rw [plain_panic]
    · rfl

theorem capacity_update (f : Fragile) (s : Strategy) (w : Width) (fuse : Option Nat) (op : BitOp)
    (i : Nat) : (f.update s w fuse op i).2.2.plain.capacity = f.plain.capacity := by
  unfold Fragile.update
  split_ifs
  · rfl
  · rfl
  · split
    · rw [plain_panic]
    · exact f.plain.capacity_update op i

theorem capacity_count (f : Fragile) (s : Strategy) (w : Width) (fuse : Option Nat) :
    (f.count s w fuse).2.plain.capacity = f.plain.capacity := by
  unfold Fragile.count
  split
  · rfl
  · rfl
  · rw [plain_panic]

theorem capacity_series (s : Strategy) (w : Width) :
    ∀ (us : List (BitOp × Nat)) (f : Fragile) (fuse : Option Nat),
      (f.series s w fuse us).2.plain.capacity = f.plain.capacity
  | [], _, _ => rfl
  | (op, i) :: us, f, fuse => by
    have hc := capacity_update f s w fuse op i
    unfold series
    split
    · rename_i _ fuse' f' hu
      rw [capacity_series s w us f' fuse', ← hc, hu]
    · rename_i hu
      rw [← hc, hu]

theorem capacity_act (f : Fragile) (s : Strategy) (w : Width) (fuse : Option Nat) :
    ∀ action : Action, (f.act s w fuse action).2.plain.capacity = f.plain.capacity
  | .call (.get i) => capacity_get f s w fuse i
  | .call (.update op i) => capacity_update f s w fuse op i
  | .call .count => capacity_count f s w fuse
  | .series us => capacity_series s w us f fuse

theorem capacity_actAll (s : Strategy) (w : Width) :
    ∀ (turns : List (Option Nat × Action)) (f : Fragile),
      (f.actAll s w turns).2.plain.capacity = f.plain.capacity
  | [], _ => rfl
  | (fuse, action) :: turns, f => by
    rw [← capacity_act f s w fuse action]
    exact capacity_actAll s w turns _

theorem run_series (s : Strategy) (w : Width) :
    ∀ (us : List (BitOp × Nat)) (f : Fragile) (fuse : Option Nat), ∃ fuse',
      ((s.series w f.plain.capacity us).bind fun r => ret (r.map fun _ => Answer.done)).run
          (f.alone s w fuse)
        = ((f.series s w fuse us).1, (f.series s w fuse us).2.alone s w fuse')
  | [], f, fuse => ⟨fuse, rfl⟩
  | (op, i) :: us, f, fuse => by
    have hu := run_update f s w fuse op i
    have hc := capacity_update f s w fuse op i
    rcases hf : f.update s w fuse op i with ⟨ending, fuse', f'⟩
    rw [run_bind, hf] at hu
    rw [hf] at hc
    simp only [Strategy.series, bind_assoc, run_bind, series, hf]
    rcases hr : (s.update w f.plain.capacity op i).run (f.alone s w fuse) with ⟨_ | _ | _, st⟩ <;>
      rw [hr] at hu <;> simp only [run, Prod.mk.injEq] at hu
    · rename_i r
      obtain ⟨rfl, rfl⟩ := hu
      cases r with
      | error e => exact ⟨fuse', rfl⟩
      | ok _ =>
        obtain ⟨left, ih⟩ := run_series s w us f' fuse'
        rw [run_bind] at ih
        rw [← hc]
        exact ⟨left, ih⟩
    · obtain ⟨rfl, rfl⟩ := hu
      exact ⟨fuse', rfl⟩
    · obtain ⟨rfl, rfl⟩ := hu
      exact ⟨fuse', rfl⟩

theorem run_actionCode (hc : 0 < f.plain.capacity) (fuse : Option Nat) :
    ∀ action : Action, ∃ fuse',
      (s.actionCode w f.plain.capacity action).run (f.alone s w fuse)
        = ((f.act s w fuse action).1, (f.act s w fuse action).2.alone s w fuse')
  | .call (.get i) => run_get f s w fuse i
  | .call (.update op i) => ⟨_, run_update f s w fuse op i⟩
  | .call .count => run_count hc fuse
  | .series us => run_series s w us f fuse

/-- A step of the bitset is the step of the plain bits and poisoned locks. -/
theorem act_bitSet (hc : 0 < f.plain.capacity) (fuse : Option Nat) (action : Action) :
    (f.bitSet s w).act fuse action
      = ((f.act s w fuse action).1, (f.act s w fuse action).2.bitSet s w) := by
  obtain ⟨left, hrun⟩ := run_actionCode (s := s) (w := w) hc fuse action
  have ha : ({ store := f.store s w, fuse := fuse } : Alone w) = f.alone s w fuse := rfl
  simp only [BitSet.act, bitSet, BitSet.run, ha, hrun, capacity_act]
  rfl

theorem actAll_bitSet :
    ∀ (turns : List (Option Nat × Action)) {f : Fragile}, 0 < f.plain.capacity →
      (f.bitSet s w).actAll turns = ((f.actAll s w turns).1, (f.actAll s w turns).2.bitSet s w)
  | [], _, _ => rfl
  | (fuse, action) :: turns, f, hc => by
    have hc' : 0 < (f.act s w fuse action).2.plain.capacity := by rwa [capacity_act]
    simp only [BitSet.actAll, actAll, act_bitSet hc, actAll_bitSet turns hc']

/-- A new bitset has all bits clear and no lock poisoned. -/
theorem create_eq {n : Nat} (hn : 0 < n) (s : Strategy) (w : Width) :
    BitSet.create s w n = .ok ((fresh n).bitSet s w) := by
  have hlocks : Array.replicate (s.locksFor (wordsFor w n)) ({} : Lock)
      = (Array.range (s.locksFor (wordsFor w n))).map fun i =>
        { poisoned := ([] : List Nat).contains i } := by
    refine Array.ext (by simp) fun i _ _ => ?_
    simp
  simp only [BitSet.create, requireCapacity, if_neg (Nat.ne_of_gt hn), bitSet, store, fresh,
    Plain.packed_clear, Plain.capacity_clear, Store.fresh, hlocks]

/-! ## Sweeps -/

theorem sweep_eq_series (s : Strategy) (w : Width) (capacity : Nat) (op : BitOp) (stride : Nat) :
    ∀ n index : Nat, s.sweep w capacity op stride index n
      = s.series w capacity ((List.range n).map fun j => (op, index + j * stride))
  | 0, _ => rfl
  | n + 1, index => by
    have hj : ∀ j, index + stride + j * stride = index + (j + 1) * stride := fun j => by
      rw [Nat.succ_mul]
      omega
    have ih := sweep_eq_series s w capacity op stride n (index + stride)
    simp only [hj] at ih
    rw [List.range_succ_eq_map, List.map_cons, List.map_map, Strategy.sweep, Strategy.series,
      Nat.zero_mul, Nat.add_zero]
    refine congrArg (Prog.bind _) (funext fun r => ?_)
    cases r with
    | error e => rfl
    | ok _ => exact ih

theorem fragile_sweep_eq_series (s : Strategy) (w : Width) (op : BitOp) (stride : Nat) :
    ∀ (n index : Nat) (f : Fragile) (fuse : Option Nat), f.sweep s w fuse op stride index n
      = f.series s w fuse ((List.range n).map fun j => (op, index + j * stride))
  | 0, _, _, _ => rfl
  | n + 1, index, f, fuse => by
    have hj : ∀ j, index + stride + j * stride = index + (j + 1) * stride := fun j => by
      rw [Nat.succ_mul]
      omega
    rw [List.range_succ_eq_map, List.map_cons, List.map_map, Fragile.sweep, Fragile.series,
      Nat.zero_mul, Nat.add_zero]
    rcases f.update s w fuse op index with ⟨(_ | _) | _ | _, fuse', f'⟩
    · rfl
    · have ih := fragile_sweep_eq_series s w op stride n (index + stride) f' fuse'
      simp only [hj] at ih
      exact ih
    · rfl
    · rfl

/-- Every step is an action. -/
theorem performStep_eq_act (b : BitSet w) (fuse : Option Nat) (step : Step) :
    b.performStep fuse step = b.act fuse step.action := by
  cases step with
  | call c => rfl
  | sweep op start stop stride =>
    simp only [BitSet.performStep, BitSet.act, Step.action, Strategy.actionCode, Strategy.stepCode,
      sweep_eq_series]

theorem fragile_performStep_eq_act (f : Fragile) (s : Strategy) (w : Width) (fuse : Option Nat)
    (step : Step) : f.performStep s w fuse step = f.act s w fuse step.action := by
  cases step with
  | call c => rfl
  | sweep op start stop stride =>
    simp only [performStep, act, Step.action, fragile_sweep_eq_series]

end Fragile

end SharedBits
