import Mathlib.Logic.Function.Iterate
import SharedBits.Word

/-!
# Series of updates of one word

Updates with different masks do not commute, but what a series of them does to one bit is decided by the
last `set` or `clear` of the bit and the flips since (`getLsbD_applyAll_of_forced`). So a series does what
two masks do: the word keeps the bits of the first, and those of the second are flipped then
(`Masks.act_ofUpdates`). Two masks that act alike are the same, so they are a normal form of the series
(`Masks.act_injective`).
-/

namespace SharedBits

variable {w : Width}

/-- What becomes of the bits that a mask selects. -/
structure WordUpdate (w : Width) where
  op : BitOp
  mask : Word w
  deriving DecidableEq

namespace WordUpdate

def apply (u : WordUpdate w) (word : Word w) : Word w := u.op.apply word u.mask

/-- Whether bit `j` is in the mask. -/
def selects (u : WordUpdate w) (j : Nat) : Bool := u.mask.getLsbD j

/-- The word after a series of updates. -/
def applyAll (us : List (WordUpdate w)) (word : Word w) : Word w :=
  us.foldl (fun word u => u.apply word) word

/-- The last `set` or `clear` of bit `j` gives it this value, and `later` are the updates since. Where
there is none, the value is that of the word, and all updates are later. -/
inductive Forced (word : Word w) (j : Nat) : List (WordUpdate w) → Bool → List (WordUpdate w) → Prop
  | never {later : List (WordUpdate w)} (hflips : ∀ u ∈ later, u.selects j = true → u.op = .flip) :
    Forced word j later (word.getLsbD j) later
  | set {before later : List (WordUpdate w)} {u : WordUpdate w} (hu : u.selects j = true)
    (hop : u.op = .set) (hflips : ∀ u ∈ later, u.selects j = true → u.op = .flip) :
    Forced word j (before ++ u :: later) true later
  | clear {before later : List (WordUpdate w)} {u : WordUpdate w} (hu : u.selects j = true)
    (hop : u.op = .clear) (hflips : ∀ u ∈ later, u.selects j = true → u.op = .flip) :
    Forced word j (before ++ u :: later) false later

end WordUpdate

/-- The list holds two others, each in its own order. -/
inductive Merged {T : Type} : List T → List T → List T → Prop
  | nil : Merged [] [] []
  | left {x : T} {xs ys zs : List T} : Merged xs ys zs → Merged (x :: xs) ys (x :: zs)
  | right {y : T} {xs ys zs : List T} : Merged xs ys zs → Merged xs (y :: ys) (y :: zs)

/-- The bits that a word keeps, and the bits that are flipped then. -/
structure Masks (w : Width) where
  keep : Word w
  toggle : Word w
  deriving DecidableEq

namespace Masks

def act (m : Masks w) (word : Word w) : Word w := (word &&& m.keep) ^^^ m.toggle

/-- The masks that change nothing. -/
def neutral : Masks w := ⟨BitVec.allOnes w.bits, 0⟩

/-- First the one, then the other. -/
def followedBy (m m' : Masks w) : Masks w := ⟨m.keep &&& m'.keep, (m.toggle &&& m'.keep) ^^^ m'.toggle⟩

def ofUpdate (u : WordUpdate w) : Masks w :=
  match u.op with
  | .set => ⟨~~~u.mask, u.mask⟩
  | .clear => ⟨~~~u.mask, 0⟩
  | .flip => ⟨BitVec.allOnes w.bits, u.mask⟩

def ofUpdates : List (WordUpdate w) → Masks w
  | [] => neutral
  | u :: us => (ofUpdate u).followedBy (ofUpdates us)

end Masks

/-! ## One bit -/

namespace WordUpdate

variable {word : Word w} {us later : List (WordUpdate w)} {j : Nat} {b : Bool}

theorem getLsbD_apply (u : WordUpdate w) (word : Word w) (j : Nat) : (u.apply word).getLsbD j
    = if u.selects j = true then u.op.onBit (word.getLsbD j) else word.getLsbD j :=
  u.op.getLsbD_apply word u.mask j

theorem applyAll_append (us us' : List (WordUpdate w)) (word : Word w) :
    applyAll (us ++ us') word = applyAll us' (applyAll us word) :=
  List.foldl_append

/-- A bit is changed by the updates that select it, and by no others. -/
theorem getLsbD_applyAll (j : Nat) : ∀ (us : List (WordUpdate w)) (word : Word w),
    (applyAll us word).getLsbD j
      = (us.filter fun u => u.selects j).foldl (fun b u => u.op.onBit b) (word.getLsbD j)
  | [], _ => rfl
  | u :: us, word => by
    have ih := getLsbD_applyAll j us (u.apply word)
    rw [getLsbD_apply] at ih
    rw [applyAll, List.foldl_cons, ← applyAll, ih]
    cases hj : u.selects j <;> simp [hj]

theorem foldl_onBit_flips : ∀ {us : List (WordUpdate w)} {b : Bool}, (∀ u ∈ us, u.op = .flip) →
    us.foldl (fun b u => u.op.onBit b) b = not^[us.length] b
  | [], _, _ => rfl
  | u :: us, b, h => by
    obtain ⟨hu, hus⟩ := List.forall_mem_cons.1 h
    rw [List.foldl_cons, foldl_onBit_flips hus, hu, List.length_cons, Function.iterate_succ_apply]
    rfl

theorem getLsbD_applyAll_of_flips (h : ∀ u ∈ later, u.selects j = true → u.op = .flip)
    (word : Word w) : (applyAll later word).getLsbD j
      = not^[later.countP fun u => u.selects j] (word.getLsbD j) := by
  rw [getLsbD_applyAll, List.countP_eq_length_filter]
  exact foldl_onBit_flips fun u hu => h u (List.mem_filter.1 hu).1 (List.mem_filter.1 hu).2

theorem getLsbD_applyAll_of_last {u : WordUpdate w} (hu : u.selects j = true)
    (hflips : ∀ u ∈ later, u.selects j = true → u.op = .flip) (before : List (WordUpdate w))
    (word : Word w) : (applyAll (before ++ u :: later) word).getLsbD j
      = not^[later.countP fun u => u.selects j] (u.op.onBit ((applyAll before word).getLsbD j)) := by
  rw [applyAll_append, applyAll, List.foldl_cons, ← applyAll, getLsbD_applyAll_of_flips hflips,
    getLsbD_apply, if_pos hu]

/-- The bit has the value that was forced on it last, negated by each flip since. -/
theorem getLsbD_applyAll_of_forced (h : Forced word j us b later) :
    (applyAll us word).getLsbD j = not^[later.countP fun u => u.selects j] b := by
  cases h with
  | never hflips => exact getLsbD_applyAll_of_flips hflips word
  | set hu hop hflips =>
    rw [getLsbD_applyAll_of_last hu hflips, hop]
    rfl
  | clear hu hop hflips =>
    rw [getLsbD_applyAll_of_last hu hflips, hop]
    rfl

theorem exists_forced (word : Word w) (j : Nat) :
    ∀ us : List (WordUpdate w), ∃ b later, Forced word j us b later
  | [] => ⟨_, _, .never (by simp)⟩
  | u :: us => by
    obtain ⟨b, later, h⟩ := exists_forced word j us
    cases h with
    | set hlast hop hflips =>
      rw [← List.cons_append]
      exact ⟨_, _, .set hlast hop hflips⟩
    | clear hlast hop hflips =>
      rw [← List.cons_append]
      exact ⟨_, _, .clear hlast hop hflips⟩
    | never hflips =>
      -- Nothing forces the bit after `u`, so it is `u` that does or nothing.
      cases hu : u.selects j with
      | false => exact ⟨_, _, .never (List.forall_mem_cons.2 ⟨by simp [hu], hflips⟩)⟩
      | true =>
        rw [← List.nil_append (u :: us)]
        cases hop : u.op with
        | set => exact ⟨_, _, .set hu hop hflips⟩
        | clear => exact ⟨_, _, .clear hu hop hflips⟩
        | flip => exact ⟨_, _, .never (List.forall_mem_cons.2 ⟨fun _ => hop, hflips⟩)⟩

theorem getLsbD_applyAll_of_not_selects (h : ∀ u ∈ us, u.selects j = false) :
    (applyAll us word).getLsbD j = word.getLsbD j := by
  rw [getLsbD_applyAll_of_flips fun u hu hj => by simp [h u hu] at hj,
    List.countP_eq_zero.2 fun u hu => by simp [h u hu]]
  rfl

end WordUpdate

/-! ## Two series -/

theorem Merged.swap {T : Type} {xs ys zs : List T} (h : Merged xs ys zs) : Merged ys xs zs := by
  induction h with
  | nil => exact .nil
  | left _ ih => exact .right ih
  | right _ ih => exact .left ih

theorem Merged.filter_eq {T : Type} {p : T → Bool} {xs ys zs : List T} (h : Merged xs ys zs)
    (hys : ∀ y ∈ ys, p y = false) : zs.filter p = xs.filter p := by
  induction h with
  | nil => rfl
  | left _ ih => rw [List.filter_cons, List.filter_cons, ih hys]
  | right _ ih =>
    obtain ⟨hy, hys⟩ := List.forall_mem_cons.1 hys
    rw [List.filter_cons_of_neg (by simp [hy]), ih hys]

namespace WordUpdate

variable {us us' mixed mixed' : List (WordUpdate w)}

/-- Where no bit is in masks of both series, only one of them says what becomes of it. -/
theorem applyAll_eq_of_merged (hdisjoint : ∀ u ∈ us, ∀ u' ∈ us', u.mask &&& u'.mask = 0)
    (h : Merged us us' mixed) (h' : Merged us us' mixed') (word : Word w) :
    applyAll mixed word = applyAll mixed' word := by
  refine BitVec.eq_of_getLsbD_eq fun j _ => ?_
  rw [getLsbD_applyAll, getLsbD_applyAll]
  by_cases hleft : ∀ u ∈ us, u.selects j = false
  · rw [h.swap.filter_eq hleft, h'.swap.filter_eq hleft]
  · obtain ⟨u, hu, hselects⟩ : ∃ u ∈ us, u.selects j = true := by simpa using hleft
    have hright : ∀ u' ∈ us', u'.selects j = false := by
      intro u' hu'
      have hbit : (u.mask &&& u'.mask).getLsbD j = false := by
        rw [hdisjoint u hu u' hu']
        exact BitVec.getLsbD_zero
      rw [BitVec.getLsbD_and, ← selects, ← selects, hselects] at hbit
      exact hbit
    rw [h.filter_eq hright, h'.filter_eq hright]

end WordUpdate

/-! ## Two masks for a series -/

namespace Masks

variable {m m' : Masks w} {word : Word w}

theorem act_neutral (word : Word w) : neutral.act word = word := by
  simp [act, neutral]

theorem act_followedBy (m m' : Masks w) (word : Word w) :
    (m.followedBy m').act word = m'.act (m.act word) := by
  refine BitVec.eq_of_getLsbD_eq fun j _ => ?_
  simp only [act, followedBy, BitVec.getLsbD_xor, BitVec.getLsbD_and]
  cases word.getLsbD j <;> cases m.keep.getLsbD j <;> cases m'.keep.getLsbD j <;> simp

theorem act_ofUpdate (u : WordUpdate w) (word : Word w) : (ofUpdate u).act word = u.apply word := by
  obtain ⟨op, mask⟩ := u
  refine BitVec.eq_of_getLsbD_eq fun j hj => ?_
  rw [WordUpdate.apply, BitOp.getLsbD_apply]
  simp only [BitVec.getLsbD_eq_getElem hj]
  cases op <;> cases hmask : mask[j] <;> simp [act, ofUpdate, BitOp.onBit, hmask]

theorem act_ofUpdates : ∀ (us : List (WordUpdate w)) (word : Word w),
    (ofUpdates us).act word = WordUpdate.applyAll us word
  | [], word => act_neutral word
  | u :: us, word => by
    rw [ofUpdates, act_followedBy, act_ofUpdate, act_ofUpdates us]
    rfl

/-- The second mask is what becomes of zero, and the first is seen on the word of ones. -/
theorem act_injective : Function.Injective (act : Masks w → Word w → Word w) := by
  intro m m' h
  obtain ⟨keep, toggle⟩ := m
  obtain ⟨keep', toggle'⟩ := m'
  have htoggle : toggle = toggle' := by simpa [act] using congrFun h 0
  have hones := congrFun h (BitVec.allOnes w.bits)
  subst htoggle
  have hkeep : keep = keep' := by simpa [act] using hones
  rw [hkeep]

theorem ofUpdates_eq_iff {us us' : List (WordUpdate w)} : ofUpdates us = ofUpdates us'
    ↔ ∀ word, WordUpdate.applyAll us word = WordUpdate.applyAll us' word := by
  simp only [← act_ofUpdates]
  exact ⟨fun h _ => h ▸ rfl, fun h => act_injective (funext h)⟩

theorem ofUpdates_append (us us' : List (WordUpdate w)) :
    ofUpdates (us ++ us') = (ofUpdates us).followedBy (ofUpdates us') := by
  refine act_injective (funext fun word => ?_)
  rw [act_followedBy, act_ofUpdates, act_ofUpdates, act_ofUpdates, WordUpdate.applyAll_append]

end Masks

/-- A bit is what the last `set` or `clear` of it has made it, negated by each flip since. So a series of
updates does what its two masks do, and those of another series are the same only if it does the same. Bits
that no mask selects stay, and updates of other bits may come in between. -/
theorem updates_normalize (us : List (WordUpdate w)) :
    (∀ word j, ∃ b later, WordUpdate.Forced word j us b later)
    ∧ (∀ word j b later, WordUpdate.Forced word j us b later → (WordUpdate.applyAll us word).getLsbD j
      = not^[later.countP fun u => u.selects j] b)
    ∧ (∀ word, WordUpdate.applyAll us word
      = (word &&& (Masks.ofUpdates us).keep) ^^^ (Masks.ofUpdates us).toggle)
    ∧ (∀ us', Masks.ofUpdates (us ++ us') = (Masks.ofUpdates us).followedBy (Masks.ofUpdates us'))
    ∧ (∀ us', Masks.ofUpdates us = Masks.ofUpdates us'
      ↔ ∀ word, WordUpdate.applyAll us word = WordUpdate.applyAll us' word)
    ∧ (∀ word j, (∀ u ∈ us, u.mask.getLsbD j = false) →
      (WordUpdate.applyAll us word).getLsbD j = word.getLsbD j)
    ∧ ∀ us', (∀ u ∈ us, ∀ u' ∈ us', u.mask &&& u'.mask = 0) → ∀ mixed mixed', Merged us us' mixed →
      Merged us us' mixed' → ∀ word, WordUpdate.applyAll mixed word = WordUpdate.applyAll mixed' word :=
  ⟨fun word j => WordUpdate.exists_forced word j us,
    fun _ _ _ _ h => WordUpdate.getLsbD_applyAll_of_forced h,
    fun word => (Masks.act_ofUpdates us word).symm, Masks.ofUpdates_append us,
    fun _ => Masks.ofUpdates_eq_iff, fun _ _ h => WordUpdate.getLsbD_applyAll_of_not_selects h,
    fun _ hdisjoint _ _ h h' word => WordUpdate.applyAll_eq_of_merged hdisjoint h h' word⟩

/-- Two updates with masks that overlap, and one of another bit that comes between them or before. -/
theorem updates_normalize_overlapping : ∃ us us' mixed mixed' : List (WordUpdate .w8),
    us = [⟨.set, 0b1110⟩, ⟨.flip, 0b0110⟩] ∧ us' = [⟨.clear, 0b0001⟩]
    ∧ WordUpdate.Forced 0xA5 1 us true [⟨.flip, 0b0110⟩]
    ∧ (WordUpdate.applyAll us 0xA5).getLsbD 1 = not^[1] true
    ∧ WordUpdate.applyAll us 0xA5 = (0xA5 &&& 0b11110001) ^^^ 0b1000
    ∧ (∀ u ∈ us, u.mask.getLsbD 7 = false) ∧ (WordUpdate.applyAll us 0xA5).getLsbD 7 = true
    ∧ (∀ u ∈ us, ∀ u' ∈ us', u.mask &&& u'.mask = 0)
    ∧ mixed = [⟨.set, 0b1110⟩, ⟨.clear, 0b0001⟩, ⟨.flip, 0b0110⟩] ∧ Merged us us' mixed
    ∧ mixed' = [⟨.clear, 0b0001⟩, ⟨.set, 0b1110⟩, ⟨.flip, 0b0110⟩] ∧ Merged us us' mixed'
    ∧ WordUpdate.applyAll mixed 0xA5 = WordUpdate.applyAll mixed' 0xA5 := by
  obtain ⟨-, hbit, hmasks, -, -, hkeeps, hmerged⟩ :=
    updates_normalize (w := .w8) [⟨.set, 0b1110⟩, ⟨.flip, 0b0110⟩]
  have hforced : WordUpdate.Forced (w := .w8) 0xA5 1 ([] ++ [⟨.set, 0b1110⟩, ⟨.flip, 0b0110⟩]) true
      [⟨.flip, 0b0110⟩] := .set (by decide) rfl (by decide)
  exact ⟨_, _, _, _, rfl, rfl, hforced, hbit _ _ _ _ hforced, hmasks _, by decide,
    hkeeps _ _ (by decide), by decide, rfl, .left (.right (.left .nil)), rfl, .right (.left (.left .nil)),
    hmerged _ (by decide) _ _ (.left (.right (.left .nil))) (.right (.left (.left .nil))) _⟩

end SharedBits
