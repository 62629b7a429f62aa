import Mathlib.Data.Finset.Lattice.Fold
import Mathlib.Order.Lattice.Nat
import SharedBits.Proofs.Paths

/-!
# What runs can cost

If every event has a price, and every call a grant that pays for its events whichever way it goes, then
a run costs no more than its calls were granted (`Affords.run`). A program is a tree of finite depth and
there are finitely many words, so the dearest of its ways has a cost (`Prog.most`). From it come two
bounds on runs of any strategy: the writes are no more than the changes that are asked for
(`Run.writes_le_changes`), and the steps, failed swaps apart, no more than the calls can take
(`Run.length_le`).
-/

namespace SharedBits

variable {w : Width} {α κ ρ : Type}

/-! ## Grants -/

/-- What is left to a thread: the grants of the calls it has not begun, and what its call has left. -/
def Thread.left (grant : κ → Nat) (left : Active w κ ρ → Nat) (t : Thread w κ ρ) : Nat :=
  (t.waiting.map grant).sum + (t.current.map left).getD 0

def Machine.left (grant : κ → Nat) (left : Active w κ ρ → Nat) (m : Machine w κ ρ) : Nat :=
  (m.threads.map (Thread.left grant left)).sum

/-- Calls with these grants, of which this is left on their way, can pay the price of each event. -/
structure Affords (sys : System w κ ρ) (price : Event w ρ → Nat) (grant : κ → Nat)
    (left : Active w κ ρ → Nat) : Prop where
  begins : ∀ call, price .began + left (sys.opening call) ≤ grant call
  passes : ∀ a a' e, a.Passes e a' → price e + left a' ≤ left a
  returns : ∀ a r, a.rest = .ret r → price (.returned r) ≤ left a
  panics : ∀ a, (∀ r, a.rest ≠ .ret r) → price .panicked ≤ left a

section Grants

variable {sys : System w κ ρ} {price : Event w ρ → Nat} {grant : κ → Nat}
  {left : Active w κ ρ → Nat} {m m₀ : Machine w κ ρ} {labels : List (Label w κ ρ)}

theorem Thread.left_finish (grant : κ → Nat) (left : Active w κ ρ → Nat) (t : Thread w κ ρ)
    (stops : Ending ρ → Bool) (call : κ) (ending : Ending ρ) :
    (t.finish stops call ending).left grant left ≤ (t.waiting.map grant).sum := by
  unfold Thread.finish Thread.left
  split <;> simp

theorem Affords.moves (h : Affords sys price grant left) {store store' : Store w} {mishap : Mishap}
    {t t' : Thread w κ ρ} {call : κ} {e : Event w ρ}
    (hm : t.Moves sys store mishap call e store' t') :
    price e + t'.left grant left ≤ t.left grant left := by
  cases hm with
  | @begins call waiting hc hw =>
    have := h.begins call
    simp only [Thread.left, hc, hw, List.map_cons, List.sum_cons, Option.map_some, Option.getD_some]
    omega
  | @passes a a' _ hc hp =>
    have := h.passes a a' e hp
    simp only [Thread.left, hc, Option.map_some, Option.getD_some]
    omega
  | @returns a r hc hr =>
    have := h.returns a r hr
    have := t.left_finish grant left sys.stops a.call (.returned r)
    simp only [Thread.left, hc, Option.map_some, Option.getD_some] at this ⊢
    omega
  | @panics a hc hd =>
    have := h.panics a hd.not_ret
    have := t.left_finish grant left sys.stops a.call .panicked
    simp only [Thread.left, hc, Option.map_some, Option.getD_some] at this ⊢
    omega

/-- A run costs no more than was granted. -/
theorem Affords.run (h : Affords sys price grant left) (hr : Run sys m₀ labels m) :
    (labels.map fun l => price l.event).sum + m.left grant left ≤ m₀.left grant left := by
  refine hr.of_moves (fun labels m =>
    (labels.map fun l => price l.event).sum + m.left grant left ≤ m₀.left grant left) ?_ ?_
  · simp
  · intro labels m mishap i t call e store t' _ ih ht hm
    have hpaid := h.moves hm
    have hset := sum_map_set (Thread.left grant left) t' ht
    simp only [Machine.left, List.map_append, List.sum_append, List.map_cons, List.map_nil,
      List.sum_cons, List.sum_nil] at ih ⊢
    omega

theorem Machine.left_start (grant : κ → Nat) (left : Active w κ ρ → Nat) (store : Store w)
    (calls : List (List κ)) :
    (Machine.start store calls).left grant left = (calls.flatten.map grant).sum := by
  unfold Machine.left Machine.start
  induction calls with
  | nil => rfl
  | cons thread calls ih =>
    simp only [List.map_cons, List.sum_cons, List.flatten_cons, List.map_append, List.sum_append, ih]
    rfl

end Grants

theorem sum_map_toNat {T : Type} (p : T → Bool) : ∀ l : List T,
    (l.map fun x => (p x).toNat).sum = l.countP p
  | [] => rfl
  | x :: l => by
    rw [List.map_cons, List.sum_cons, List.countP_cons, sum_map_toNat p l]
    cases p x <;> simp [Nat.add_comm]

/-! ## The dearest way of a program -/

/-- The greatest value over all words. -/
def Word.most (f : Word w → Nat) : Nat :=
  (Finset.range (2 ^ w.bits)).sup fun n => f (BitVec.ofNat w.bits n)

theorem Word.le_most (f : Word w → Nat) (v : Word w) : f v ≤ Word.most f := by
  have h := Finset.le_sup (f := fun n => f (BitVec.ofNat w.bits n)) (Finset.mem_range.2 v.isLt)
  unfold Word.most
  simpa using h

theorem Word.most_le {f : Word w → Nat} {n : Nat} (h : ∀ v, f v ≤ n) : Word.most f ≤ n :=
  Finset.sup_le fun _ _ => h _

/-- What the steps of a program cost together at most, if `price` is the price of its next one. -/
def Prog.most (price : Prog w α → Nat) : Prog w α → Nat
  | ret a => price (ret a)
  | read cell next => price (read cell next) + Word.most fun v => (next v).most price
  | write cell value next => price (write cell value next) + next.most price
  | modify cell transform next =>
    price (modify cell transform next) + Word.most fun v => (next v).most price
  | acquire guard next =>
    price (acquire guard next) + max ((next true).most price) ((next false).most price)
  | release guard next => price (release guard next) + next.most price
  | compute next => price (compute next) + next.most price

theorem Prog.price_le_most (price : Prog w α → Nat) (p : Prog w α) : price p ≤ p.most price := by
  cases p <;> simp [most]

/-- A step that is no attempt pays for itself. -/
theorem Active.Passes.most_le {a a' : Active w κ ρ} {e : Event w ρ} (h : a.Passes e a')
    (price : Prog w ρ → Nat) : e.isAttempt = true ∧ a'.rest = a.rest
      ∨ e.isAttempt = false ∧ price a.rest + a'.rest.most price ≤ a.rest.most price := by
  cases h with
  | @loaded cell next v hr =>
    have := Word.le_most (fun v => (next v).most price) v
    rw [hr]
    exact .inr ⟨rfl, Nat.add_le_add_left this _⟩
  | stored old hr =>
    rw [hr]
    exact .inr ⟨rfl, Nat.le_refl _⟩
  | observed v hr hs => exact .inl ⟨rfl, rfl⟩
  | @committed cell transform next v hr hs =>
    have := Word.le_most (fun v => (next v).most price) v
    rw [hr]
    exact .inr ⟨rfl, Nat.add_le_add_left this _⟩
  | missed actual hr hs => exact .inl ⟨rfl, rfl⟩
  | @acquired guard next poisoned hr =>
    rw [hr]
    refine .inr ⟨rfl, Nat.add_le_add_left ?_ _⟩
    cases poisoned with
    | true => exact Nat.le_max_left _ _
    | false => exact Nat.le_max_right _ _
  | released hr =>
    rw [hr]
    exact .inr ⟨rfl, Nat.le_refl _⟩
  | computed hr =>
    rw [hr]
    exact .inr ⟨rfl, Nat.le_refl _⟩

/-! ## Writes -/

/-- Whether a program writes next, as a number. -/
def Prog.writing : Prog w α → Nat
  | write _ _ _ => 1
  | modify _ _ _ => 1
  | _ => 0

theorem Prog.Makes.most_writing {p : Prog w α} : ∀ {change : Option (BitOp × Nat)}
    {known : Option (Nat × Word w)}, p.Makes change known → p.most writing ≤ change.toList.length := by
  induction p with
  | ret a => exact fun _ => Nat.zero_le _
  | read cell next ih =>
    intro change known h
    simp only [most, writing, Nat.zero_add]
    exact Word.most_le fun v => ih v (h v)
  | write cell value next ih =>
    rintro change known ⟨⟨op, i, v, rfl, -⟩, h⟩
    exact Nat.add_le_add_left (ih h) 1
  | modify cell transform next ih =>
    rintro change known ⟨⟨op, i, rfl, -⟩, h⟩
    exact Nat.add_le_add_left (Word.most_le fun v => ih v (h v)) 1
  | acquire guard next ih =>
    intro change known h
    simp only [most, writing, Nat.zero_add]
    exact Nat.max_le.2 ⟨ih true (h true), ih false (h false)⟩
  | release guard next ih =>
    intro change known h
    simp only [most, writing, Nat.zero_add]
    exact ih h
  | compute next ih =>
    intro change known h
    simp only [most, writing, Nat.zero_add]
    exact ih h

theorem Active.Passes.writing {a a' : Active w κ ρ} {e : Event w ρ} (h : a.Passes e a')
    (he : e.isWrite = true) : a.rest.writing = 1 := by
  cases h with
  | stored old hr => rw [hr, Prog.writing]
  | committed hr hs => rw [hr, Prog.writing]
  | _ => cases he

/-- The number of changes that calls ask for. -/
def changesAsked (capacity : Nat) (calls : List (List Call)) : Nat :=
  calls.flatten.countP fun call => (call.change capacity).isSome

section Callers

variable {b : BitSet w} {stops : Ending Reply → Bool} {calls : List (List Call)} {store : Store w}
  {labels : List (Label w Call Reply)} {m : Machine w Call Reply}

theorem BitSet.affords_writes (b : BitSet w) (stops : Ending Reply → Bool) :
    Affords (b.callers stops) (fun e => e.isWrite.toNat)
      (fun call => (call.change b.capacity).isSome.toNat) fun a => a.rest.most Prog.writing where
  begins call := by
    have h := (b.strategy.code_makes (w := w) b.capacity call).most_writing
    simp only [Event.isWrite, Bool.toNat_false, Nat.zero_add]
    refine h.trans ?_
    cases call.change b.capacity <;> simp
  passes a a' e hp := by
    rcases hp.most_le Prog.writing with ⟨hattempt, hrest⟩ | ⟨-, hle⟩
    · simp only [Event.isWrite_of_isAttempt hattempt, hrest, Bool.toNat_false, Nat.zero_add,
        Nat.le_refl]
    · cases hw : e.isWrite with
      | true =>
        rw [hp.writing hw] at hle
        exact hle
      | false => simpa using (Nat.le_add_left _ _).trans hle
  returns a r _ := Nat.zero_le _
  panics a _ := Nat.zero_le _

/-- No more is written than is asked for. -/
theorem Run.writes_le_changes (h : Run (b.callers stops) (.start store calls) labels m) :
    labels.countP (fun l => l.event.isWrite) ≤ changesAsked b.capacity calls := by
  have hcost := (b.affords_writes stops).run h
  rw [Machine.left_start, sum_map_toNat, sum_map_toNat] at hcost
  exact (Nat.le_add_right _ _).trans hcost

end Callers

/-! ## Steps -/

/-- Whether an event is a swap that failed. -/
def Event.isMiss : Event w ρ → Bool
  | missed _ _ _ => true
  | _ => false

/-- How many steps a program takes at its next node, failed swaps apart: an optimistic update reads, and
then swaps. -/
def Prog.stepping : Prog w α → Nat
  | modify _ _ _ => 2
  | _ => 1

/-- The number of steps that a call has left, failed swaps apart. -/
def Active.stepsLeft (a : Active w κ ρ) : Nat :=
  match a.rest, a.seen with
  | .modify _ _ _, some _ => a.rest.most Prog.stepping - 1
  | _, _ => a.rest.most Prog.stepping

section Steps

variable {sys : System w κ ρ} {a a' : Active w κ ρ} {e : Event w ρ}

theorem Prog.stepping_pos (p : Prog w α) : 0 < p.stepping := by
  cases p <;> simp [stepping]

theorem Active.stepsLeft_le (a : Active w κ ρ) : a.stepsLeft ≤ a.rest.most Prog.stepping := by
  unfold stepsLeft
  split <;> omega

theorem Active.stepsLeft_pos (a : Active w κ ρ) : 0 < a.stepsLeft := by
  have hpos := a.rest.stepping_pos
  have hle := a.rest.price_le_most Prog.stepping
  unfold stepsLeft
  split
  · rename_i hr _
    rw [hr] at hle ⊢
    simp only [Prog.stepping] at hle
    omega
  · omega

theorem Active.Passes.stepsLeft_lt (h : a.Passes e a') (he : e.isMiss = false) :
    a'.stepsLeft < a.stepsLeft := by
  have hle' := a'.stepsLeft_le
  rcases h.most_le Prog.stepping with ⟨hattempt, hrest⟩ | ⟨hnone, hle⟩
  · cases h with
    | observed v hr hs =>
      have hprice := a.rest.price_le_most Prog.stepping
      simp only [stepsLeft, hr, hs, Prog.stepping] at hprice ⊢
      omega
    | missed => cases he
    | _ => cases hattempt
  · cases h with
    | @committed cell transform next v hr hs =>
      simp only [hr, Prog.stepping] at hle
      simp only [stepsLeft, hr, hs] at hle' ⊢
      omega
    | observed => cases hnone
    | missed => cases hnone
    | _ =>
      have hpos := a.rest.stepping_pos
      rename_i hr
      simp only [stepsLeft, hr] at hle hpos hle' ⊢
      omega

theorem System.affords_steps (sys : System w κ ρ) :
    Affords sys (fun e => (!e.isMiss).toNat) (fun call => 1 + (sys.code call).most Prog.stepping)
      Active.stepsLeft where
  begins call := Nat.add_le_add_left (sys.opening call).stepsLeft_le 1
  passes a a' e hp := by
    cases he : e.isMiss with
    | true =>
      cases hp with
      | missed actual hr hs => simp [Active.stepsLeft, hr, hs]
      | _ => cases he
    | false =>
      have := hp.stepsLeft_lt he
      simp only [Bool.not_false, Bool.toNat_true]
      omega
  returns a r _ := a.stepsLeft_pos
  panics a _ := a.stepsLeft_pos

/-- The number of steps that calls can take, failed swaps apart. -/
def System.stepsFor (sys : System w κ ρ) (calls : List (List κ)) : Nat :=
  (calls.flatten.map fun call => 1 + (sys.code call).most Prog.stepping).sum

/-- A run is no longer than its calls can take, and its failed swaps. -/
theorem Run.length_le {store : Store w} {calls : List (List κ)} {labels : List (Label w κ ρ)}
    {m : Machine w κ ρ} (h : Run sys (.start store calls) labels m) :
    labels.length ≤ sys.stepsFor calls + labels.countP fun l => l.event.isMiss := by
  have hcost := sys.affords_steps.run h
  rw [Machine.left_start, sum_map_toNat (fun l : Label w κ ρ => !l.event.isMiss)] at hcost
  have hsplit := List.length_eq_countP_add_countP (fun l : Label w κ ρ => l.event.isMiss) (l := labels)
  simp only [Bool.not_eq_true, Bool.decide_eq_false] at hsplit
  unfold System.stepsFor
  omega

end Steps

end SharedBits
