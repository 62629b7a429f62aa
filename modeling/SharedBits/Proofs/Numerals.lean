import Mathlib.Algebra.Group.Int.Defs
import Mathlib.Algebra.Group.Nat.Defs
import SharedBits.Text.Numeral

/-!
# Reading numerals

What digits are read as is told by the text as a whole. They give their number if there is no other
character among them and the number is within the limit; else the reading fails at the first character
that is no digit or that takes the number beyond the limit, and which of the two comes first decides the
reason (`addDigits_eq_iff`). For signed integers the limit is that of the sign, and both together are
the range of 64 bits: `readSigned_eq_ok_iff` says what numerals are read, `readSigned_eq_error_iff` why
others are not.
-/

namespace SharedBits.Text

/-- Nothing but digits. -/
def AreDigits (cs : List Char) : Prop := ∀ c ∈ cs, c.isDigit = true

/-- What it gives to add the digits `cs` to `n`. -/
inductive Adds (limit : Nat) (excess : NumeralError) (n : Nat) (cs : List Char) :
    Except NumeralError Nat → Prop
  | number (hcs : AreDigits cs) (hle : Nat.ofDigitChars 10 cs n ≤ limit) :
    Adds limit excess n cs (.ok (Nat.ofDigitChars 10 cs n))
  /-- The number before `c` is within the limit, and `c` is no digit. -/
  | stray {before behind : List Char} {c : Char} (heq : cs = before ++ c :: behind)
    (hbefore : AreDigits before) (hle : Nat.ofDigitChars 10 before n ≤ limit)
    (hc : c.isDigit = false) : Adds limit excess n cs (.error .invalidDigit)
  /-- The number before the digit `c` is within the limit, that with `c` is not. -/
  | beyond {before behind : List Char} {c : Char} (heq : cs = before ++ c :: behind)
    (hdigits : AreDigits (before ++ [c])) (hle : Nat.ofDigitChars 10 before n ≤ limit)
    (hlt : limit < Nat.ofDigitChars 10 (before ++ [c]) n) : Adds limit excess n cs (.error excess)

/-- The integers of 64 bits. -/
def InInt64 (i : Int) : Prop := -2 ^ 63 ≤ i ∧ i < 2 ^ 63

/-- The number after a sign. -/
def withSign (sign : List Char) (n : Nat) : Int := if sign = ['-'] then -n else n

/-- The integer that digits write after a sign. -/
def signedValue (sign ds : List Char) : Int := withSign sign (Nat.ofDigitChars 10 ds 0)

/-- The text is a numeral of this integer: an optional sign, and one or more digits. -/
def Writes (cs : List Char) (i : Int) : Prop :=
  ∃ sign ds, cs = sign ++ ds ∧ (sign = [] ∨ sign = ['+'] ∨ sign = ['-']) ∧ ds ≠ [] ∧ AreDigits ds
    ∧ i = signedValue sign ds

/-- What comes after the sign of a text, if it has one. -/
structure Signed (cs sign rest : List Char) : Prop where
  eq : cs = sign ++ rest
  sign : sign = [] ∧ (∀ c ∈ rest.head?, c ≠ '+' ∧ c ≠ '-') ∨ sign = ['+'] ∨ sign = ['-']

/-- Why a text is no numeral of 64 bits: what its characters, from the left, meet first. -/
inductive Unreadable (cs : List Char) : NumeralError → Prop
  | empty (hcs : cs = []) : Unreadable cs .empty
  /-- There is a sign and nothing else. -/
  | bare {sign : List Char} (hcs : Signed cs sign []) (hne : cs ≠ []) : Unreadable cs .invalidDigit
  /-- The integer before `c` is in range, and `c` is no digit. -/
  | stray {sign before behind : List Char} {c : Char} (hcs : Signed cs sign (before ++ c :: behind))
    (hbefore : AreDigits before) (hin : InInt64 (signedValue sign before)) (hc : c.isDigit = false) :
    Unreadable cs .invalidDigit
  /-- The integer before the digit `c` is in range, that with `c` is above it. -/
  | tooLarge {sign before behind : List Char} {c : Char}
    (hcs : Signed cs sign (before ++ c :: behind)) (hdigits : AreDigits (before ++ [c]))
    (hin : InInt64 (signedValue sign before)) (hout : 2 ^ 63 ≤ signedValue sign (before ++ [c])) :
    Unreadable cs .tooLarge
  /-- The integer before the digit `c` is in range, that with `c` is below it. -/
  | tooSmall {sign before behind : List Char} {c : Char}
    (hcs : Signed cs sign (before ++ c :: behind)) (hdigits : AreDigits (before ++ [c]))
    (hin : InInt64 (signedValue sign before)) (hout : signedValue sign (before ++ [c]) < -2 ^ 63) :
    Unreadable cs .tooSmall

/-! ## Digits -/

section Digits

variable {limit n : Nat} {excess : NumeralError} {c : Char} {cs : List Char}

theorem digit?_of_isDigit (hc : c.isDigit = true) : digit? c = some (c.toNat - '0'.toNat) := if_pos hc

theorem digit?_of_not_isDigit (hc : c.isDigit = false) : digit? c = none :=
  if_neg (by simp [hc])

theorem areDigits_cons : AreDigits (c :: cs) ↔ c.isDigit = true ∧ AreDigits cs := List.forall_mem_cons

theorem le_ofDigitChars : ∀ (cs : List Char) (n : Nat), n ≤ Nat.ofDigitChars 10 cs n
  | [], n => Nat.le_refl n
  | c :: cs, n => by
    rw [Nat.ofDigitChars_cons]
    have := le_ofDigitChars cs (10 * n + (c.toNat - '0'.toNat))
    omega

/-- Digits within the limit are added up, and the reading goes on after them. -/
theorem addDigits_append (excess : NumeralError) :
    ∀ {before : List Char} {n : Nat} (rest : List Char), AreDigits before →
    Nat.ofDigitChars 10 before n ≤ limit →
    addDigits limit excess n (before ++ rest)
      = addDigits limit excess (Nat.ofDigitChars 10 before n) rest
  | [], _, _, _, _ => rfl
  | c :: before, n, rest, hbefore, hle => by
    obtain ⟨hc, hbefore⟩ := areDigits_cons.1 hbefore
    rw [Nat.ofDigitChars_cons] at hle ⊢
    have hwithin : n * 10 + (c.toNat - '0'.toNat) ≤ limit := by
      have := le_ofDigitChars before (10 * n + (c.toNat - '0'.toNat))
      omega
    rw [List.cons_append, addDigits, digit?_of_isDigit hc]
    simp only [if_pos hwithin]
    rw [Nat.mul_comm n 10, addDigits_append excess rest hbefore hle]

/-- A digit that is added up does not change what is read behind it. -/
theorem Adds.cons {r : Except NumeralError Nat} (hc : c.isDigit = true)
    (h : Adds limit excess (10 * n + (c.toNat - '0'.toNat)) cs r) :
    Adds limit excess n (c :: cs) r := by
  cases h with
  | number hcs hle =>
    rw [← Nat.ofDigitChars_cons] at hle ⊢
    exact .number (areDigits_cons.2 ⟨hc, hcs⟩) hle
  | @stray before behind d heq hbefore hle hd =>
    rw [← Nat.ofDigitChars_cons] at hle
    exact .stray (congrArg (c :: ·) heq) (areDigits_cons.2 ⟨hc, hbefore⟩) hle hd
  | @beyond before behind d heq hdigits hle hlt =>
    rw [← Nat.ofDigitChars_cons] at hle hlt
    exact .beyond (congrArg (c :: ·) heq) (areDigits_cons.2 ⟨hc, hdigits⟩) hle hlt

theorem adds_addDigits : ∀ {cs : List Char} {n : Nat}, n ≤ limit →
    Adds limit excess n cs (addDigits limit excess n cs)
  | [], _, hn => .number (fun _ h => absurd h List.not_mem_nil) hn
  | c :: cs, n, hn => by
    cases hc : c.isDigit with
    | false =>
      rw [addDigits, digit?_of_not_isDigit hc]
      exact .stray (List.nil_append _).symm (fun _ h => absurd h List.not_mem_nil) hn hc
    | true =>
      rw [addDigits, digit?_of_isDigit hc]
      have hcomm : n * 10 + (c.toNat - '0'.toNat) = 10 * n + (c.toNat - '0'.toNat) := by omega
      by_cases hle : n * 10 + (c.toNat - '0'.toNat) ≤ limit
      · simp only [if_pos hle]
        rw [hcomm] at hle ⊢
        exact (adds_addDigits hle).cons hc
      · simp only [if_neg hle]
        refine .beyond (List.nil_append _).symm (by simpa [AreDigits] using hc) hn ?_
        rw [List.nil_append, Nat.ofDigitChars_cons]
        show limit < 10 * n + (c.toNat - '0'.toNat)
        omega

theorem addDigits_eq_iff {r : Except NumeralError Nat} (hn : n ≤ limit) :
    addDigits limit excess n cs = r ↔ Adds limit excess n cs r := by
  constructor
  · rintro rfl
    exact adds_addDigits hn
  · intro h
    cases h with
    | number hcs hle =>
      have happend := addDigits_append excess [] hcs hle
      rwa [List.append_nil] at happend
    | @stray before behind c heq hbefore hle hc =>
      rw [heq, addDigits_append excess _ hbefore hle, addDigits, digit?_of_not_isDigit hc]
    | @beyond before behind c heq hdigits hle hlt =>
      obtain ⟨hbefore, hc⟩ := List.forall_mem_append.1 hdigits
      have hc : c.isDigit = true := hc c List.mem_cons_self
      rw [Nat.ofDigitChars_append, Nat.ofDigitChars_cons] at hlt
      have hgt : ¬ Nat.ofDigitChars 10 before n * 10 + (c.toNat - '0'.toNat) ≤ limit := by
        have hnil : ∀ k, Nat.ofDigitChars 10 [] k = k := fun _ => rfl
        rw [hnil] at hlt
        omega
      rw [heq, addDigits_append excess _ hbefore hle, addDigits, digit?_of_isDigit hc]
      exact if_neg hgt

end Digits

/-! ## Signs -/

section Signs

variable {cs sign rest : List Char} {n : Nat} {i : Int64} {e : NumeralError}

/-- The largest number that may follow a sign. -/
def limitAfter (sign : List Char) : Nat := if sign = ['-'] then 2 ^ 63 else 2 ^ 63 - 1

/-- The reason when the number after a sign is larger. -/
def excessAfter (sign : List Char) : NumeralError := if sign = ['-'] then .tooSmall else .tooLarge

theorem inInt64_withSign : InInt64 (withSign sign n) ↔ n ≤ limitAfter sign := by
  unfold InInt64 withSign limitAfter
  split <;> omega

/-- A number beyond its limit is an integer beyond one of the two ends. -/
theorem limitAfter_lt_iff : (limitAfter sign < n ∧ excessAfter sign = e)
    ↔ (e = .tooLarge ∧ 2 ^ 63 ≤ withSign sign n) ∨ (e = .tooSmall ∧ withSign sign n < -2 ^ 63) := by
  by_cases hsign : sign = ['-']
  · simp only [limitAfter, excessAfter, withSign, if_pos hsign]
    constructor
    · rintro ⟨hlt, rfl⟩
      exact .inr ⟨rfl, by omega⟩
    · rintro (⟨rfl, hle⟩ | ⟨rfl, hlt⟩)
      · omega
      · exact ⟨by omega, rfl⟩
  · simp only [limitAfter, excessAfter, withSign, if_neg hsign]
    constructor
    · rintro ⟨hlt, rfl⟩
      exact .inl ⟨rfl, by omega⟩
    · rintro (⟨rfl, hle⟩ | ⟨rfl, hlt⟩)
      · exact ⟨by omega, rfl⟩
      · omega

theorem toInt_ofInt (h : InInt64 (withSign sign n)) :
    (Int64.ofInt (withSign sign n)).toInt = withSign sign n :=
  Int64.toInt_ofInt_of_le h.1 h.2

theorem inInt64_toInt (i : Int64) : InInt64 i.toInt := ⟨i.le_toInt, i.toInt_lt⟩

theorem exists_signed (cs : List Char) : ∃ sign rest, Signed cs sign rest := by
  rcases cs with _ | ⟨c, rest⟩
  · exact ⟨[], [], rfl, .inl ⟨rfl, by simp⟩⟩
  · by_cases hplus : c = '+'
    · exact ⟨['+'], rest, by simp [hplus], .inr (.inl rfl)⟩
    · by_cases hminus : c = '-'
      · exact ⟨['-'], rest, by simp [hminus], .inr (.inr rfl)⟩
      · exact ⟨[], c :: rest, rfl, .inl ⟨rfl, by simp [hplus, hminus]⟩⟩

/-- A numeral begins with its sign. -/
theorem signed_of_areDigits (hsign : sign = [] ∨ sign = ['+'] ∨ sign = ['-']) (hrest : AreDigits rest) :
    Signed (sign ++ rest) sign rest := by
  refine ⟨rfl, hsign.imp_left fun hnone => ⟨hnone, fun c hc => ?_⟩⟩
  have hdigit := hrest c (List.mem_of_mem_head? hc)
  constructor
  · rintro rfl
    cases hdigit
  · rintro rfl
    cases hdigit

/-- A text has one sign, if any. -/
theorem Signed.unique {sign' rest' : List Char} (h : Signed cs sign rest)
    (h' : Signed cs sign' rest') : sign = sign' ∧ rest = rest' := by
  obtain ⟨heq, hsign⟩ := h
  obtain ⟨heq', hsign'⟩ := h'
  rw [heq] at heq'
  rcases hsign with ⟨rfl, hfirst⟩ | rfl | rfl <;> rcases hsign' with ⟨rfl, hfirst'⟩ | rfl | rfl <;>
    subst_vars <;> simp_all

theorem readSigned_of_signed (h : Signed cs sign rest) (hne : cs ≠ []) :
    readSigned cs = (readDigits (limitAfter sign) (excessAfter sign) rest).map fun n =>
      Int64.ofInt (withSign sign n) := by
  have hplus : ['+'] ≠ ['-'] := by decide
  have hnone : ([] : List Char) ≠ ['-'] := by decide
  obtain ⟨rfl, ⟨rfl, hhead⟩ | rfl | rfl⟩ := h
  · simp only [limitAfter, excessAfter, withSign, if_neg hnone, List.nil_append] at hne ⊢
    unfold readSigned
    split
    · exact absurd rfl hne
    · exact absurd rfl (hhead _ rfl).2
    · exact absurd rfl (hhead _ rfl).1
    · change _ = (readDigits (Nat.pow 2 63 - 1) .tooLarge rest).map _
      cases readDigits (Nat.pow 2 63 - 1) .tooLarge rest <;> rfl
  · simp only [limitAfter, excessAfter, withSign, if_neg hplus, List.singleton_append, readSigned]
    change _ = (readDigits (Nat.pow 2 63 - 1) .tooLarge rest).map _
    cases readDigits (Nat.pow 2 63 - 1) .tooLarge rest <;> rfl
  · simp only [limitAfter, excessAfter, withSign, if_true, List.singleton_append, readSigned]
    change _ = (readDigits (Nat.pow 2 63) .tooSmall rest).map _
    cases readDigits (Nat.pow 2 63) .tooSmall rest <;> rfl

/-- What a text that is not empty is read as: what its digits add up to, after its sign. -/
theorem readSigned_eq_iff {r : Except NumeralError Int64} (h : Signed cs sign rest) (hne : rest ≠ []) :
    readSigned cs = r ↔ ∃ r', Adds (limitAfter sign) (excessAfter sign) 0 rest r'
      ∧ r'.map (fun n => Int64.ofInt (withSign sign n)) = r := by
  have hcs : cs ≠ [] := by
    rw [h.eq]
    simp [hne]
  have hdigits : readDigits (limitAfter sign) (excessAfter sign) rest
      = addDigits (limitAfter sign) (excessAfter sign) 0 rest := if_neg (by simpa using hne)
  rw [readSigned_of_signed h hcs, hdigits]
  simp only [← addDigits_eq_iff (Nat.zero_le _), exists_eq_left']

theorem readSigned_eq_ok_iff : readSigned cs = .ok i ↔ Writes cs i.toInt := by
  constructor
  · intro h
    obtain ⟨sign, rest, hsigned⟩ := exists_signed cs
    have hcs : cs ≠ [] := by
      rintro rfl
      cases h
    have hne : rest ≠ [] := by
      rintro rfl
      rw [readSigned_of_signed hsigned hcs] at h
      cases h
    obtain ⟨r, hadds, hr⟩ := (readSigned_eq_iff hsigned hne).1 h
    cases hadds with
    | number hdigits hle =>
      obtain rfl := Except.ok.inj hr
      refine ⟨sign, rest, hsigned.eq, hsigned.sign.imp_left And.left, hne, hdigits, ?_⟩
      exact toInt_ofInt (inInt64_withSign.2 hle)
    | stray => cases hr
    | beyond => cases hr
  · rintro ⟨sign, ds, rfl, hsign, hne, hdigits, hi⟩
    have hin : InInt64 (signedValue sign ds) := hi ▸ inInt64_toInt i
    refine (readSigned_eq_iff (signed_of_areDigits hsign hdigits) hne).2
      ⟨_, .number hdigits (inInt64_withSign.1 hin), congrArg Except.ok ?_⟩
    rw [← Int64.toInt_inj, hi]
    exact toInt_ofInt hin

theorem readSigned_eq_error_iff : readSigned cs = .error e ↔ Unreadable cs e := by
  constructor
  · intro h
    rcases hcs : cs with _ | ⟨c, tail⟩
    · rw [hcs] at h
      cases h
      exact .empty rfl
    rw [← hcs]
    have hcs : cs ≠ [] := by simp [hcs]
    obtain ⟨sign, rest, hsigned⟩ := exists_signed cs
    rcases hrest : rest with _ | ⟨d, tail⟩
    · rw [hrest] at hsigned
      rw [readSigned_of_signed hsigned hcs] at h
      cases h
      exact .bare hsigned hcs
    obtain ⟨r, hadds, hr⟩ := (readSigned_eq_iff hsigned (by simp [hrest])).1 h
    cases hadds with
    | number => cases hr
    | stray heq hbefore hle hc =>
      cases hr
      exact .stray (heq ▸ hsigned) hbefore (inInt64_withSign.2 hle) hc
    | beyond heq hdigits hle hlt =>
      obtain hexcess := Except.error.inj hr
      rcases limitAfter_lt_iff.1 ⟨hlt, hexcess⟩ with ⟨rfl, hout⟩ | ⟨rfl, hout⟩
      · exact .tooLarge (heq ▸ hsigned) hdigits (inInt64_withSign.2 hle) hout
      · exact .tooSmall (heq ▸ hsigned) hdigits (inInt64_withSign.2 hle) hout
  · intro h
    cases h with
    | empty hcs =>
      rw [hcs]
      rfl
    | bare hsigned hne =>
      rw [readSigned_of_signed hsigned hne]
      rfl
    | stray hsigned hbefore hin hc =>
      exact (readSigned_eq_iff hsigned (by simp)).2
        ⟨_, .stray rfl hbefore (inInt64_withSign.1 hin) hc, rfl⟩
    | tooLarge hsigned hdigits hin hout =>
      obtain ⟨hlt, hexcess⟩ := limitAfter_lt_iff.2 (.inl ⟨rfl, hout⟩)
      exact (readSigned_eq_iff hsigned (by simp)).2 ⟨_, .beyond rfl hdigits
        (inInt64_withSign.1 hin) hlt, congrArg Except.error hexcess⟩
    | tooSmall hsigned hdigits hin hout =>
      obtain ⟨hlt, hexcess⟩ := limitAfter_lt_iff.2 (.inr ⟨rfl, hout⟩)
      exact (readSigned_eq_iff hsigned (by simp)).2 ⟨_, .beyond rfl hdigits
        (inInt64_withSign.1 hin) hlt, congrArg Except.error hexcess⟩

end Signs

end SharedBits.Text
