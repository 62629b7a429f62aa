import SharedBits.Proofs.Actions

/-!
# One caller, no panics

A caller that asks a new bitset one thing after another gets the answers of a plain list of bits,
whatever the strategy and the width of the words, and so the same answers from all of them
(`answers_eq_plain`). What it leaves behind are the words of the list (`askAll_bitSet`).
-/

namespace SharedBits

variable {w : Width}

/-- What can be asked of a bitset. -/
inductive Request where
  | capacity
  | call (call : Call)
  deriving DecidableEq, Repr

/-- What is given back. -/
inductive Response where
  | capacity (bits : Nat)
  | ended (ending : Ending Reply)
  deriving DecidableEq, Repr

/-- Asks a bitset one thing. -/
def BitSet.ask (b : BitSet w) : Request → Response × BitSet w
  | .capacity => (.capacity b.capacity, b)
  | .call c =>
    let (ending, b) := b.perform c
    (.ended ending, b)

/-- Asks a bitset one thing after another. -/
def BitSet.askAll (b : BitSet w) : List Request → List Response × BitSet w
  | [] => ([], b)
  | request :: requests =>
    let (response, b) := b.ask request
    let (responses, b) := b.askAll requests
    (response :: responses, b)

/-- Asks a list of bits one thing. -/
def Plain.ask (p : Plain) : Request → Response × Plain
  | .capacity => (.capacity p.capacity, p)
  | .call c =>
    let (reply, p) := p.perform c
    (.ended (.returned reply), p)

/-- Asks a list of bits one thing after another. -/
def Plain.askAll (p : Plain) : List Request → List Response × Plain
  | [] => ([], p)
  | request :: requests =>
    let (response, p) := p.ask request
    let (responses, p) := p.askAll requests
    (response :: responses, p)

/-! ## Locks that are not poisoned -/

/-- The bitset of these bits that nobody uses now, with no lock poisoned. -/
def Plain.bitSet (p : Plain) (s : Strategy) (w : Width) : BitSet w := (Fragile.mk p []).bitSet s w

theorem Plain.capacity_perform (p : Plain) : ∀ c : Call, (p.perform c).2.capacity = p.capacity
  | .get i => by
    simp only [perform]
    split <;> rfl
  | .update op i => by
    simp only [perform]
    split
    · exact p.capacity_update op i
    · rfl
  | .count => rfl

namespace Fragile

theorem isPoisoned_nil (p : Plain) (s : Strategy) (word : Nat) :
    (Fragile.mk p []).isPoisoned s word = false := by
  unfold isPoisoned
  cases s.lockOfWord word <;> rfl

theorem stopsCount_nil (p : Plain) (s : Strategy) :
    ∀ ks : List Nat, (Fragile.mk p []).stopsCount s none ks = none
  | [] => rfl
  | k :: ks => by
    simp only [stopsCount, isPoisoned_nil, burn, stopsCount_nil p s ks]
    rfl

/-- With no lock poisoned and no fuse, the plain bits are all there is. -/
theorem performStep_nil (p : Plain) (s : Strategy) (w : Width) :
    ∀ c : Call, (Fragile.mk p []).performStep s w none (.call c)
      = (.returned (p.perform c).1, ⟨(p.perform c).2, []⟩)
  | .get i => by
    simp only [performStep, Fragile.get, isPoisoned_nil, burn]
    rw [if_neg Bool.false_ne_true]
    by_cases hi : i < p.capacity
    · rw [if_neg (Nat.not_le_of_lt hi)]
      simp only [Plain.perform, Plain.getElem?_bits hi]
    · have hn : p.bits[i]? = none := List.getElem?_eq_none (Nat.le_of_not_lt hi)
      rw [if_pos (Nat.le_of_not_lt hi)]
      simp only [Plain.perform, hn]
  | .update op i => by
    simp only [performStep, Fragile.update, isPoisoned_nil, burn]
    rw [if_neg Bool.false_ne_true]
    by_cases hi : i < p.capacity
    · rw [if_neg (Nat.not_le_of_lt hi), Plain.perform, if_pos hi]
    · rw [if_pos (Nat.le_of_not_lt hi), Plain.perform, if_neg hi]
  | .count => by
    simp only [performStep, Fragile.count, stopsCount_nil, Plain.perform]

end Fragile

/-! ## Answers -/

/-- A call of the bitset is a call of its bits. -/
theorem perform_bitSet {p : Plain} (hp : 0 < p.capacity) (s : Strategy) (w : Width) (c : Call) :
    (p.bitSet s w).perform c = (.returned (p.perform c).1, (p.perform c).2.bitSet s w) := by
  have hact := Fragile.act_bitSet (f := ⟨p, []⟩) (s := s) (w := w) hp none (.call c)
  rw [Fragile.act, Fragile.performStep_nil] at hact
  exact hact

theorem ask_bitSet {p : Plain} (hp : 0 < p.capacity) (s : Strategy) (w : Width) :
    ∀ request, (p.bitSet s w).ask request
        = ((p.ask request).1, (p.ask request).2.bitSet s w)
      ∧ (p.ask request).2.capacity = p.capacity
  | .capacity => ⟨rfl, rfl⟩
  | .call c => by
    refine ⟨?_, p.capacity_perform c⟩
    simp only [BitSet.ask, Plain.ask, perform_bitSet hp]

theorem askAll_bitSet (s : Strategy) (w : Width) :
    ∀ (requests : List Request) {p : Plain}, 0 < p.capacity → (p.bitSet s w).askAll requests
      = ((p.askAll requests).1, (p.askAll requests).2.bitSet s w)
  | [], _, _ => rfl
  | request :: requests, p, hp => by
    obtain ⟨hask, hcap⟩ := ask_bitSet hp s w request
    have ih := askAll_bitSet s w requests (p := (p.ask request).2) (by rwa [hcap])
    simp only [BitSet.askAll, Plain.askAll, hask, ih]

/-- A new bitset answers every series of requests as a list of clear bits does, and is left with the
words of that list: for each strategy in each width, and in the width that the strategy prefers. Any
two bitsets of one capacity thus answer alike. -/
theorem answers_eq_plain {capacity : Nat} (hc : 0 < capacity) (requests : List Request) :
    (∀ s w, ∃ b b', BitSet.create s w capacity = .ok b
        ∧ b.askAll requests = (((Plain.clear capacity).askAll requests).1, b')
        ∧ b'.store.cells = ((Plain.clear capacity).askAll requests).2.packed w)
      ∧ (∀ s : Strategy, ∃ b, s.bitSet capacity = .ok b
        ∧ (b.askAll requests).1 = ((Plain.clear capacity).askAll requests).1)
      ∧ ∀ s w s' w', ∃ b b', BitSet.create s w capacity = .ok b
        ∧ BitSet.create s' w' capacity = .ok b'
        ∧ (b.askAll requests).1 = (b'.askAll requests).1 := by
  have hp : 0 < (Plain.clear capacity).capacity := by rwa [Plain.capacity_clear]
  have hcreate := fun s w => Fragile.create_eq hc s w
  have hask := fun s w => askAll_bitSet s w requests hp
  refine ⟨fun s w => ⟨_, _, hcreate s w, hask s w, rfl⟩,
    fun s => ⟨_, hcreate s s.defaultWidth, congrArg Prod.fst (hask s s.defaultWidth)⟩,
    fun s w s' w' => ⟨_, _, hcreate s w, hcreate s' w', ?_⟩⟩
  exact (congrArg Prod.fst (hask s w)).trans (congrArg Prod.fst (hask s' w')).symm

/-- Ten bits in bytes: the last bit of the first word, the first of the second, an index that only padding
would hold, and one beyond all that a refusal names. -/
theorem answers_eq_plain_ten : 0 < 10 ∧ ∃ b, BitSet.create .stripedRwLock .w8 10 = .ok b
    ∧ (b.askAll [.call (.update .set 7), .call (.update .flip 8), .call (.update .set 10),
        .call (.get (2 ^ 64 - 1)), .call (.get 7), .call (.get 6), .call .count, .capacity]).1
      = [.ended (.returned (.ok .done)), .ended (.returned (.ok .done)),
        .ended (.returned (.error (.indexOutOfRange 10 10))),
        .ended (.returned (.error (.indexOutOfRange 9223372036854775807 10))),
        .ended (.returned (.ok (.bit true))), .ended (.returned (.ok (.bit false))),
        .ended (.returned (.ok (.count 2))), .capacity 10] := by
  obtain ⟨b, b', hb, hask, -⟩ := (answers_eq_plain (by decide : 0 < 10)
    [.call (.update .set 7), .call (.update .flip 8), .call (.update .set 10),
      .call (.get (2 ^ 64 - 1)), .call (.get 7), .call (.get 6), .call .count,
      .capacity]).1 .stripedRwLock .w8
  refine ⟨by decide, b, hb, ?_⟩
  rw [hask]
  show ((Plain.clear 10).askAll _).1 = _
  decide

end SharedBits
