import Mathlib.Data.List.InsertIdx
import SharedBits.Proofs.Spellings
import SharedBits.Strategy

/-!
# Names of strategies

A text chooses the strategy whose name it is, up to blanks around it and the case of `A` to `Z`. All names
are different in small letters, so a text chooses at most one strategy, and it does not matter in which
order they are tried (`find?_isNamed_eq_some_iff`). None is another one with a character too many, and none
holds a blank or a character beyond ASCII (`Strategy.not_isSpelled_of_misspelled`). A text that chooses no
strategy is refused as it was given (`strategy_reads`).
-/

namespace SharedBits

open Text

namespace Strategy

/-- The text is the name of the strategy up to the case of its letters. -/
def IsSpelled (s : Strategy) (core : List Char) : Prop :=
  List.Forall₂ SameLetter core s.name.toList

/-- The text is the name of the strategy up to blanks around it and the case of its letters. -/
def IsChosen (s : Strategy) (text : String) : Prop :=
  ∃ core, Stripped text.toList core ∧ s.IsSpelled core

/-- Ways in which a text without blanks at its ends is almost a name. -/
inductive Misspelled (core : List Char) : Prop
  | blankInside {c : Char} (hmem : c ∈ core) (hc : isBlank c = true)
  | notAscii {c : Char} (hmem : c ∈ core) (hc : 128 ≤ c.toNat)
  | characterMissing {s : Strategy} {k : Nat} (hk : k < s.name.toList.length)
    (hrest : List.Forall₂ SameLetter core (s.name.toList.eraseIdx k))
  | characterTooMany {s : Strategy} {k : Nat} (hk : k < core.length)
    (hrest : s.IsSpelled (core.eraseIdx k))

end Strategy

/-! ## Blanks and letters of a text -/

namespace Text

variable {cs : List Char}

theorem isBlank_toLower (c : Char) : isBlank c.toLower = isBlank c := by
  rw [Bool.eq_iff_iff]
  simp only [isBlank, blankRanges, List.any_cons, List.any_nil, toNat_toLower, isUpper_iff,
    Bool.or_eq_true, Bool.and_eq_true, decide_eq_true_eq, Bool.false_eq_true, or_false]
  split <;> omega

/-- Small letters are trimmed like all others. -/
theorem trim_lower (cs : List Char) : trim (lower cs) = lower (trim cs) := by
  have hblank : isBlank ∘ Char.toLower = isBlank := funext isBlank_toLower
  simp only [trim, trimEnd, lower, List.dropWhile_map, ← List.map_reverse, hblank]

theorem trim_append {before behind : List Char} (hbefore : ∀ c ∈ before, isBlank c = true)
    (hbehind : ∀ c ∈ behind, isBlank c = true) : trim (before ++ (cs ++ behind)) = trim cs := by
  obtain ⟨⟨first, last, hcs, hfirst, hlast⟩, hhead, htail⟩ := stripped_trim cs
  refine trim_eq_iff.2 ⟨⟨before ++ first, last ++ behind, ?_, ?_, ?_⟩, hhead, htail⟩
  · conv_lhs => rw [hcs]
    simp only [List.append_assoc]
  · exact List.forall_mem_append.2 ⟨hbefore, hfirst⟩
  · exact List.forall_mem_append.2 ⟨hlast, hbehind⟩

/-- A character that is no letter from `A` to `Z` is in a text in small letters if it is in the text. -/
theorem mem_lower {c : Char} (hmem : c ∈ cs) (hc : c.isUpper = false) : c ∈ lower cs := by
  have hlower : c.toLower = c := by
    rw [← Char.toNat_inj, toNat_toLower, hc]
    rfl
  exact List.mem_map.2 ⟨c, hmem, hlower⟩

theorem isUpper_of_isBlank {c : Char} (h : isBlank c = true) : c.isUpper = false := by
  rw [← Bool.not_eq_true, isUpper_iff]
  simp only [isBlank, blankRanges, List.any_cons, List.any_nil, Bool.or_eq_true, Bool.and_eq_true,
    decide_eq_true_eq, Bool.false_eq_true, or_false] at h
  omega

end Text

/-! ## Names -/

namespace Strategy

variable {s s' : Strategy} {core : List Char} {text text' : String}

theorem lower_name (s : Strategy) : lower s.name.toList = s.name.toList := by
  cases s <;> decide

theorem name_injective : Function.Injective name := by
  intro s s' h
  cases s <;> cases s' <;> first | rfl | exact absurd h (by decide)

theorem of_mem_name (s : Strategy) : ∀ c ∈ s.name.toList, isBlank c = false ∧ c.toNat < 128 := by
  have hall : s.name.toList.all (fun c => !isBlank c && decide (c.toNat < 128)) = true := by
    cases s <;> decide
  simpa using hall

/-- No name is that of another strategy with a character too many. -/
theorem eraseIdx_name_ne (s s' : Strategy) :
    ∀ k < s.name.toList.length, s.name.toList.eraseIdx k ≠ s'.name.toList := by
  cases s <;> cases s' <;> decide

theorem isSpelled_iff : s.IsSpelled core ↔ lower core = s.name.toList := by
  rw [IsSpelled, ← lower_eq_lower_iff, lower_name]

theorem isSpelled_name (s : Strategy) : s.IsSpelled s.name.toList := isSpelled_iff.2 s.lower_name

theorem IsSpelled.unique (h : s.IsSpelled core) (h' : s'.IsSpelled core) : s = s' :=
  name_injective (String.toList_inj.1 ((isSpelled_iff.1 h).symm.trans (isSpelled_iff.1 h')))

theorem not_isSpelled_of_misspelled (h : Misspelled core) (s : Strategy) : ¬ s.IsSpelled core := by
  intro hs
  rw [isSpelled_iff] at hs
  cases h with
  | @blankInside c hmem hc =>
    have hname := s.of_mem_name c (hs ▸ mem_lower hmem (isUpper_of_isBlank hc))
    simp [hname.1] at hc
  | @notAscii c hmem hc =>
    have hupper : c.isUpper = false := by
      rw [← Bool.not_eq_true, isUpper_iff]
      omega
    have hname := s.of_mem_name c (hs ▸ mem_lower hmem hupper)
    omega
  | @characterMissing s' k hk hrest =>
    rw [← lower_eq_lower_iff, hs, lower, ← List.eraseIdx_map, ← lower, lower_name] at hrest
    exact eraseIdx_name_ne s' s k hk hrest.symm
  | @characterTooMany s' k hk hrest =>
    rw [isSpelled_iff, lower, ← List.eraseIdx_map, ← lower, hs] at hrest
    have hlength : s.name.toList.length = core.length := by rw [← hs, lower, List.length_map]
    exact eraseIdx_name_ne s s' k (hlength ▸ hk) hrest

theorem isChosen_iff : s.IsChosen text ↔ s.IsSpelled (trim text.toList) :=
  ⟨fun ⟨_, hname, hs⟩ => trim_eq_iff.2 hname ▸ hs, fun h => ⟨_, stripped_trim _, h⟩⟩

theorem isNamed_iff : s.isNamed text = true ↔ s.IsChosen text := by
  rw [isChosen_iff, isSpelled_iff, isNamed, beq_iff_eq, lower_name, eq_comm]

theorem IsChosen.unique (h : s.IsChosen text) (h' : s'.IsChosen text) : s = s' :=
  (isChosen_iff.1 h).unique (isChosen_iff.1 h')

/-! ## The search -/

theorem isChosen_of_find? {order : List Strategy}
    (h : (order.find? fun s => s.isNamed text) = some s) : s.IsChosen text :=
  isNamed_iff.1 (by simpa using List.find?_some h)

/-- Whatever the order in which the strategies are tried, the one that is found is the one that is
chosen. -/
theorem find?_isNamed_eq_some_iff {order : List Strategy} (horder : ∀ s, s ∈ order) :
    (order.find? fun s => s.isNamed text) = some s ↔ s.IsChosen text := by
  refine ⟨isChosen_of_find?, fun h => ?_⟩
  rcases hfound : order.find? fun s => s.isNamed text with _ | s'
  · exact absurd (isNamed_iff.2 h) (List.find?_eq_none.1 hfound s (horder s))
  · rw [hfound, h.unique (isChosen_of_find? hfound)]

theorem toOption_parse (text : String) :
    (parse text).toOption = all.find? fun s => s.isNamed text := by
  unfold parse
  cases all.find? fun s => s.isNamed text <;> rfl

theorem parse_eq_ok_iff : parse text = .ok s ↔ s.IsChosen text := by
  rw [← find?_isNamed_eq_some_iff mem_all, ← toOption_parse]
  cases parse text <;> simp [Except.toOption]

/-- A text is refused as it was given. -/
theorem parse_eq_error_iff {e : Error} :
    parse text = .error e ↔ e = .unknownStrategy text ∧ ∀ s : Strategy, ¬ s.IsChosen text := by
  simp only [← parse_eq_ok_iff]
  unfold parse
  cases all.find? fun s => s.isNamed text <;> simp [eq_comm]

/-- Texts that are the same up to blanks around them and the case of their letters choose alike. -/
theorem parse_congr (h : lower (trim text.toList) = lower (trim text'.toList)) :
    parse text' = (parse text).mapError fun _ => .unknownStrategy text' := by
  simp only [parse, isNamed, h]
  cases all.find? fun s => lower s.name.toList == lower (trim text'.toList) <;> rfl

theorem parse_name (s : Strategy) : parse s.name = .ok s :=
  parse_eq_ok_iff.2 ⟨_, stripped_of_forall fun c hc => (s.of_mem_name c hc).1, s.isSpelled_name⟩

end Strategy

/-- A text is read as a strategy if and only if it chooses one, and it chooses no other, so the search may
try the strategies in any order. Every other text is refused with itself, a name with a small mistake among
them. Blanks around a text and the case of its letters make no difference, and the name of a strategy is
read as that strategy. -/
theorem strategy_reads (text : String) :
    ((∃ s, Strategy.parse text = .ok s) ↔ ∃! s : Strategy, s.IsChosen text)
    ∧ (∀ s, Strategy.parse text = .ok s ↔ s.IsChosen text)
    ∧ (∀ order : List Strategy, (∀ s, s ∈ order) →
      (order.find? fun s => s.isNamed text) = (Strategy.parse text).toOption)
    ∧ (∀ e, Strategy.parse text = .error e
      ↔ e = .unknownStrategy text ∧ ∀ s : Strategy, ¬ s.IsChosen text)
    ∧ (∀ core, Stripped text.toList core → Strategy.Misspelled core →
      Strategy.parse text = .error (.unknownStrategy text))
    ∧ (∀ before behind : String, (∀ c ∈ before.toList, isBlank c = true) →
      (∀ c ∈ behind.toList, isBlank c = true) → Strategy.parse (before ++ text ++ behind)
        = (Strategy.parse text).mapError fun _ => .unknownStrategy (before ++ text ++ behind))
    ∧ (∀ text' : String, List.Forall₂ SameLetter text.toList text'.toList → Strategy.parse text'
        = (Strategy.parse text).mapError fun _ => .unknownStrategy text')
    ∧ ∀ s : Strategy, Strategy.parse s.name = .ok s := by
  refine ⟨?_, fun s => Strategy.parse_eq_ok_iff, fun order horder => ?_,
    fun e => Strategy.parse_eq_error_iff, fun core hcore hmisspelled => ?_,
    fun before behind hbefore hbehind => Strategy.parse_congr ?_,
    fun text' hletters => Strategy.parse_congr ?_, Strategy.parse_name⟩
  · simp only [Strategy.parse_eq_ok_iff]
    exact ⟨fun ⟨s, hs⟩ => ⟨s, hs, fun _ hs' => hs'.unique hs⟩, fun ⟨s, hs, _⟩ => ⟨s, hs⟩⟩
  · rw [Strategy.toOption_parse]
    refine Option.ext fun s => ?_
    rw [Strategy.find?_isNamed_eq_some_iff horder, Strategy.find?_isNamed_eq_some_iff Strategy.mem_all]
  · refine Strategy.parse_eq_error_iff.2 ⟨rfl, fun s hs => ?_⟩
    rw [Strategy.isChosen_iff, trim_eq_iff.2 hcore] at hs
    exact Strategy.not_isSpelled_of_misspelled hmisspelled s hs
  · rw [String.toList_append, String.toList_append, List.append_assoc, trim_append hbefore hbehind]
  · rw [← trim_lower, ← trim_lower, lower_eq_lower_iff.2 hletters]

/-- A name with blanks of two kinds around it, and one in which the sign of the unit kelvin stands for a
letter. -/
theorem strategy_reads_kelvin :
    Strategy.parse "\u2003LOCK-free\u0085" = .ok .lockFree
    ∧ (Strategy.all.reverse.find? fun s => s.isNamed "LOCK-free") = some .lockFree
    ∧ Stripped " loc\u212A-free".toList "loc\u212A-free".toList
    ∧ Strategy.parse " loc\u212A-free" = .error (.unknownStrategy " loc\u212A-free") := by
  obtain ⟨-, -, horder, -, -, hblanks, -, -⟩ := strategy_reads "LOCK-free"
  obtain ⟨-, -, -, -, hmisspelled, -, -, -⟩ := strategy_reads " loc\u212A-free"
  obtain ⟨-, -, -, -, -, -, hletters, hname⟩ := strategy_reads "lock-free"
  have hparse : Strategy.parse "LOCK-free" = .ok .lockFree := by
    rw [hletters "LOCK-free" (lower_eq_lower_iff.1 (by decide)),
      show "lock-free" = Strategy.lockFree.name from rfl, hname]
    rfl
  have hcore : Stripped " loc\u212A-free".toList "loc\u212A-free".toList := trim_eq_iff.1 (by decide)
  refine ⟨?_, ?_, hcore, hmisspelled _ hcore (.notAscii (c := '\u212A') (by decide) (by decide))⟩
  · exact (hblanks "\u2003" "\u0085" (List.all_eq_true.1 (by decide)) (List.all_eq_true.1 (by decide))).trans
      (by rw [hparse]; rfl)
  · rw [horder Strategy.all.reverse fun s => by cases s <;> decide, hparse]
    rfl

end SharedBits
