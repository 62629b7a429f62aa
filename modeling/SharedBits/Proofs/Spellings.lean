import Mathlib.Data.List.DropRight
import Mathlib.Data.List.Forall2
import SharedBits.Text.Blank

/-!
# Blanks and letters

What is left of a text when it is trimmed is the part between the blanks at its two ends, which neither
begins nor ends with a blank (`trim_eq_iff`). Two texts are the same in small letters if they differ at
most in the case of `A` to `Z` (`lower_eq_lower_iff`); no other letter has two cases here.
-/

namespace SharedBits.Text

variable {cs core : List Char}

/-- The part of a text between the blanks at its ends. -/
structure Stripped (cs core : List Char) : Prop where
  parts : ∃ before behind, cs = before ++ (core ++ behind) ∧ (∀ c ∈ before, isBlank c = true)
    ∧ ∀ c ∈ behind, isBlank c = true
  first : ∀ c ∈ core.head?, isBlank c = false
  last : ∀ c ∈ core.getLast?, isBlank c = false

/-- Two characters that differ at most in the case of a letter from `A` to `Z`. -/
def SameLetter (c d : Char) : Prop :=
  c = d ∨ (c.isUpper = true ∧ d.toNat = c.toNat + 32) ∨ (d.isUpper = true ∧ c.toNat = d.toNat + 32)

/-! ## Trimming -/

section Trim

variable {T : Type} {p : T → Bool}

theorem dropWhile_eq_iff {xs ys : List T} :
    xs.dropWhile p = ys ↔ (∃ before, xs = before ++ ys ∧ ∀ x ∈ before, p x = true)
      ∧ ∀ y ∈ ys.head?, p y = false := by
  constructor
  · rintro rfl
    refine ⟨⟨xs.takeWhile p, List.takeWhile_append_dropWhile.symm, fun x hx =>
      List.mem_takeWhile_imp hx⟩, fun y hy => ?_⟩
    have h := xs.head?_dropWhile_not p
    rwa [Option.mem_def.1 hy] at h
  · rintro ⟨⟨before, rfl, hbefore⟩, hhead⟩
    rw [List.dropWhile_append_of_pos hbefore]
    cases ys with
    | nil => rfl
    | cons y ys => exact List.dropWhile_cons_of_neg (by simp [hhead y rfl])

theorem rdropWhile_eq_iff {xs ys : List T} :
    xs.rdropWhile p = ys ↔ (∃ behind, xs = ys ++ behind ∧ ∀ x ∈ behind, p x = true)
      ∧ ∀ y ∈ ys.getLast?, p y = false := by
  rw [List.rdropWhile, List.reverse_eq_iff, dropWhile_eq_iff, List.head?_reverse]
  refine and_congr_left fun _ => ⟨?_, ?_⟩
  · rintro ⟨before, hxs, hbefore⟩
    refine ⟨before.reverse, ?_, by simpa using hbefore⟩
    simpa using congrArg List.reverse hxs
  · rintro ⟨behind, rfl, hbehind⟩
    exact ⟨behind.reverse, List.reverse_append, by simpa using hbehind⟩

theorem trim_eq_iff : trim cs = core ↔ Stripped cs core := by
  rw [trim, trimEnd, ← List.rdropWhile, rdropWhile_eq_iff]
  constructor
  · rintro ⟨⟨behind, hdrop, hbehind⟩, hlast⟩
    obtain ⟨⟨before, rfl, hbefore⟩, hhead⟩ := dropWhile_eq_iff.1 hdrop
    refine ⟨⟨before, behind, rfl, hbefore, hbehind⟩, fun c hc => hhead c ?_, hlast⟩
    simp [Option.mem_def.1 hc]
  · rintro ⟨⟨before, behind, rfl, hbefore, hbehind⟩, hfirst, hlast⟩
    refine ⟨?_, hlast⟩
    cases core with
    | nil =>
      -- Nothing but blanks: trimming at the left leaves nothing of those at the right either.
      refine ⟨[], ?_, by simp⟩
      rw [List.nil_append, List.append_nil, List.dropWhile_eq_nil_iff]
      simpa using fun c hc => hc.elim (hbefore c) (hbehind c)
    | cons c core =>
      exact ⟨behind, dropWhile_eq_iff.2 ⟨⟨before, rfl, hbefore⟩, fun d hd => hfirst d hd⟩, hbehind⟩

theorem stripped_trim (cs : List Char) : Stripped cs (trim cs) := trim_eq_iff.1 rfl

/-- A text without blanks is all that is left of it. -/
theorem stripped_of_forall (h : ∀ c ∈ cs, isBlank c = false) : Stripped cs cs :=
  ⟨⟨[], [], by simp, by simp, by simp⟩, fun c hc => h c (List.mem_of_mem_head? hc),
    fun c hc => h c (List.mem_of_getLast? hc)⟩

end Trim

/-! ## Letters -/

section Letters

variable {c d : Char}

theorem isUpper_iff : c.isUpper = true ↔ 65 ≤ c.toNat ∧ c.toNat ≤ 90 := by
  have hrange : c.isUpper = decide (c.val ≥ 'A'.val ∧ c.val ≤ 'Z'.val) := rfl
  simp [hrange, UInt32.le_iff_toNat_le, ← Char.toNat_val]

theorem toNat_toLower (c : Char) :
    c.toLower.toNat = if c.isUpper = true then c.toNat + 32 else c.toNat := by
  by_cases h : c.val ≥ 'A'.val ∧ c.val ≤ 'Z'.val
  · have hupper : c.isUpper = true := decide_eq_true h
    have hbounds := isUpper_iff.1 hupper
    have hlower : c.toLower.toNat = (c.val + 32).toNat := congrArg Char.toNat (dif_pos h)
    rw [hlower, if_pos hupper, UInt32.toNat_add]
    have : c.val.toNat = c.toNat := rfl
    have h32 : (32 : UInt32).toNat = 32 := rfl
    omega
  · have hupper : c.isUpper = false := decide_eq_false h
    have hlower : c.toLower = c := dif_neg h
    rw [hlower, hupper]
    rfl

theorem toLower_eq_toLower_iff : c.toLower = d.toLower ↔ SameLetter c d := by
  rw [← Char.toNat_inj, toNat_toLower, toNat_toLower, SameLetter, ← Char.toNat_inj]
  simp only [isUpper_iff]
  split <;> split <;> omega

theorem lower_eq_lower_iff : ∀ {cs ds : List Char},
    lower cs = lower ds ↔ List.Forall₂ SameLetter cs ds
  | [], [] => by simp [lower]
  | [], d :: ds => by simp [lower]
  | c :: cs, [] => by simp [lower]
  | c :: cs, d :: ds => by
    have ih : lower cs = lower ds ↔ List.Forall₂ SameLetter cs ds := lower_eq_lower_iff
    rw [List.forall₂_cons, ← ih, ← toLower_eq_toLower_iff]
    simp [lower]

end Letters

end SharedBits.Text
