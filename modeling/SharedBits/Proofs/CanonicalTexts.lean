import SharedBits.Proofs.ProbeTexts

/-!
# Canonical texts of probes

Digits without a zero in front are the decimal digits of their number (`toDigits_ofDigitChars`), so an
integer has one numeral that spends no character (`IsTerse.eq_toString`). What is written for a probe is
the name of its operation in small letters, a colon and that numeral, and it is read as the probe for
which it was written (`parse_render`). So among all texts that are read as one probe there is one
canonical text, and it is this (`probe_canonical`).
-/

namespace SharedBits

namespace Text

/-- A numeral without a plus sign, without a zero in front of other digits, and without a sign at a
zero. -/
def IsTerse (cs : List Char) : Prop :=
  ∃ sign ds, cs = sign ++ ds ∧ (sign = [] ∨ sign = ['-'] ∧ ds ≠ ['0']) ∧ ds ≠ [] ∧ AreDigits ds
    ∧ (ds.head? = some '0' → ds = ['0'])

/-- The sign that is written before a number: none, or a minus if the number is not zero. -/
def IsSignOf (sign : List Char) (n : Nat) : Prop := sign = [] ∨ sign = ['-'] ∧ 0 < n

/-! ## Decimal digits -/

section Digits

variable {n : Nat} {c : Char} {ds : List Char}

theorem areDigits_toDigits (n : Nat) : AreDigits (Nat.toDigits 10 n) :=
  fun _ hc => Nat.isDigit_of_mem_toDigits (by decide) (by decide) hc

theorem exists_digit (hc : c.isDigit = true) :
    ∃ d < 10, d.digitChar = c ∧ c.toNat - '0'.toNat = d := by
  obtain ⟨hlow, hhigh⟩ := Char.isDigit_iff_toNat.1 hc
  have h0 : '0'.toNat = 48 := rfl
  have h9 : '9'.toNat = 57 := rfl
  have hlt : c.toNat - '0'.toNat < 10 := by omega
  refine ⟨_, hlt, Char.toNat_inj.1 ?_, rfl⟩
  rw [Nat.toNat_digitChar_of_lt_ten hlt]
  omega

theorem ofDigitChars_pos (hds : AreDigits ds) (hne : ds ≠ []) (hzero : ds.head? ≠ some '0') :
    0 < Nat.ofDigitChars 10 ds 0 := by
  obtain ⟨c, cs, rfl⟩ := List.exists_cons_of_ne_nil hne
  obtain ⟨d, hd, hchar, heq⟩ := exists_digit (areDigits_cons.1 hds).1
  have hpos : 0 < d := by
    refine Nat.pos_of_ne_zero fun h => hzero ?_
    rw [← hchar, h]
    rfl
  rw [Nat.ofDigitChars_cons, heq]
  exact Nat.lt_of_lt_of_le (by omega) (le_ofDigitChars cs _)

/-- Digits with no zero in front of others are the digits of their number. -/
theorem toDigits_ofDigitChars (hds : AreDigits ds) (hne : ds ≠ [])
    (hzero : ds.head? = some '0' → ds = ['0']) :
    Nat.toDigits 10 (Nat.ofDigitChars 10 ds 0) = ds := by
  -- From the last digit, as the digits of a number are written: those of its tenth, then one more.
  induction ds using List.reverseRecOn with
  | nil => exact absurd rfl hne
  | append_singleton before c ih =>
    obtain ⟨hbefore, hc⟩ := List.forall_mem_append.1 hds
    obtain ⟨d, hd, hchar, heq⟩ := exists_digit (hc c List.mem_cons_self)
    have hlast : Nat.ofDigitChars 10 (before ++ [c]) 0 = 10 * Nat.ofDigitChars 10 before 0 + d := by
      rw [Nat.ofDigitChars_append, Nat.ofDigitChars_cons, heq]
      rfl
    rcases List.eq_nil_or_concat before with rfl | ⟨_, _, hconcat⟩
    · rw [hlast, Nat.ofDigitChars_nil, Nat.mul_zero, Nat.zero_add, Nat.toDigits_of_lt_base hd, hchar]
      rfl
    · have hne : before ≠ [] := by simp [hconcat]
      have hhead : before.head? ≠ some '0' := by
        intro h
        have hall := hzero (by rw [List.head?_append_of_ne_nil _ hne, h])
        have hlength := congrArg List.length hall
        simp [hne] at hlength
      have hpos := ofDigitChars_pos hbefore hne hhead
      rw [hlast, ← Nat.toDigits_append_toDigits (by decide) hpos hd,
        ih hbefore hne fun h => absurd h hhead, Nat.toDigits_of_lt_base hd, hchar]

theorem eq_zero_of_head?_toDigits (h : (Nat.toDigits 10 n).head? = some '0') : n = 0 := by
  induction n using Nat.strong_induction_on with
  | _ n ih =>
    rw [Nat.toDigits_eq_if (by decide)] at h
    split at h
    · simpa using h
    · rw [List.head?_append_of_ne_nil _ Nat.toDigits_ne_nil] at h
      have := ih (n / 10) (by omega) h
      omega

end Digits

/-! ## Integers -/

section Integers

variable {n : Nat} {sign cs : List Char} {i : Int}

theorem exists_withSign (i : Int) : ∃ sign n, IsSignOf sign n ∧ i = withSign sign n := by
  rcases Int.lt_or_le i 0 with hneg | hpos
  · exact ⟨['-'], i.natAbs, .inr ⟨rfl, by omega⟩, by rw [withSign, if_pos rfl]; omega⟩
  · exact ⟨[], i.natAbs, .inl rfl, by rw [withSign, if_neg (by simp)]; omega⟩

theorem toList_toString_withSign (h : IsSignOf sign n) :
    (toString (withSign sign n)).toList = sign ++ Nat.toDigits 10 n := by
  rcases h with rfl | ⟨rfl, hn⟩
  · rw [withSign, if_neg (by simp), Int.toString_eq_repr]
    exact Nat.toList_repr
  · obtain ⟨k, rfl⟩ := Nat.exists_eq_succ_of_ne_zero (Nat.ne_of_gt hn)
    rw [withSign, if_pos rfl, Int.toString_eq_repr]
    show ("-" ++ (k + 1).repr).toList = _
    rw [String.toList_append, Nat.toList_repr]
    rfl

theorem writes_toString (i : Int) : Writes (toString i).toList i := by
  obtain ⟨sign, n, hsign, rfl⟩ := exists_withSign i
  refine ⟨sign, Nat.toDigits 10 n, toList_toString_withSign hsign, ?_, Nat.toDigits_ne_nil,
    areDigits_toDigits n, by rw [signedValue, Nat.ofDigitChars_ten_toDigits]⟩
  rcases hsign with rfl | ⟨rfl, -⟩
  · exact .inl rfl
  · exact .inr (.inr rfl)

theorem isTerse_toString (i : Int) : IsTerse (toString i).toList := by
  obtain ⟨sign, n, hsign, rfl⟩ := exists_withSign i
  refine ⟨sign, Nat.toDigits 10 n, toList_toString_withSign hsign, ?_, Nat.toDigits_ne_nil,
    areDigits_toDigits n, fun h => by rw [eq_zero_of_head?_toDigits h, Nat.toDigits_zero]⟩
  refine hsign.imp_right fun ⟨hminus, hn⟩ => ⟨hminus, fun h => ?_⟩
  have := eq_zero_of_head?_toDigits (n := n) (by rw [h]; rfl)
  omega

/-- An integer has one terse numeral. -/
theorem IsTerse.eq_toString (h : IsTerse cs) (hwrites : Writes cs i) : cs = (toString i).toList := by
  obtain ⟨sign, ds, heq, hsign, hne, hds, hzero⟩ := h
  obtain ⟨sign', ds', heq', hsign', -, hds', rfl⟩ := hwrites
  have hsigned : Signed cs sign ds := heq ▸ signed_of_areDigits (by tauto) hds
  obtain ⟨rfl, rfl⟩ := hsigned.unique (heq' ▸ signed_of_areDigits hsign' hds')
  have hsignOf : IsSignOf sign (Nat.ofDigitChars 10 ds 0) := hsign.imp_right fun ⟨hminus, hne'⟩ =>
    ⟨hminus, ofDigitChars_pos hds hne fun h => hne' (hzero h)⟩
  rw [heq, signedValue, toList_toString_withSign hsignOf, toDigits_ofDigitChars hds hne hzero]

theorem isBlank_of_isDigit {c : Char} (hc : c.isDigit = true) : isBlank c = false := by
  obtain ⟨hlow, hhigh⟩ := Char.isDigit_iff_toNat.1 hc
  have h0 : '0'.toNat = 48 := rfl
  have h9 : '9'.toNat = 57 := rfl
  simp [isBlank, blankRanges]
  omega

theorem IsTerse.stripped (h : IsTerse cs) : Stripped cs cs := by
  obtain ⟨sign, ds, rfl, hsign, -, hds, -⟩ := h
  refine stripped_of_forall (List.forall_mem_append.2 ⟨?_, fun c hc => isBlank_of_isDigit (hds c hc)⟩)
  rcases hsign with rfl | ⟨rfl, -⟩ <;> simp [isBlank, blankRanges]

end Integers

end Text

open Text

/-! ## Probes -/

theorem Operation.isNamed_name (operation : Operation) : operation.IsNamed operation.name.toList :=
  lower_eq_lower_iff.1 rfl

theorem Operation.plain_name (operation : Operation) :
    ∀ c ∈ operation.name.toList, c ≠ ':' ∧ isBlank c = false := by
  rcases operation with _ | _ | _ | _ <;> simp [name, BitOp.name, isBlank, blankRanges]

namespace Probe

/-- The text has small letters, no blanks and a terse numeral. -/
def IsCanonical (text : String) : Prop :=
  ∃ (operation : Operation) (numeral : List Char),
    text.toList = operation.name.toList ++ ':' :: numeral ∧ IsTerse numeral

variable {text : String}

theorem toList_render (p : Probe) :
    p.render.toList = p.operation.name.toList ++ ':' :: (toString p.index.toInt).toList := by
  simp [render]

theorem isCanonical_render (p : Probe) : IsCanonical p.render :=
  ⟨p.operation, _, p.toList_render, isTerse_toString _⟩

theorem parse_of_terse {operation : Operation} {numeral : List Char} (hterse : IsTerse numeral)
    (htext : text.toList = operation.name.toList ++ ':' :: numeral) :
    parse text = match readSigned numeral with
      | .error reason => .error (.badIndex (String.ofList numeral) reason)
      | .ok index => .ok ⟨operation, index⟩ :=
  parse_of_isNamed htext (fun hmem => (operation.plain_name _ hmem).1 rfl)
    (stripped_of_forall fun c hc => (operation.plain_name c hc).2) operation.isNamed_name
    hterse.stripped

theorem parse_render (p : Probe) : parse p.render = .ok p := by
  rw [parse_of_terse (isTerse_toString _) p.toList_render,
    readSigned_eq_ok_iff.2 (writes_toString p.index.toInt)]

theorem render_injective : Function.Injective render := fun p q h =>
  Except.ok.inj (by rw [← parse_render p, ← parse_render q, h])

/-- A canonical text that is read as a probe is the one that is written for it. -/
theorem IsCanonical.eq_render (h : IsCanonical text) {p : Probe} (hp : parse text = .ok p) :
    text = p.render := by
  obtain ⟨operation, numeral, htext, hterse⟩ := h
  rw [parse_of_terse hterse htext] at hp
  rcases hread : readSigned numeral with reason | index
  · rw [hread] at hp
    cases hp
  · rw [hread] at hp
    cases hp
    have hnumeral := hterse.eq_toString (readSigned_eq_ok_iff.1 hread)
    rw [← String.toList_inj, htext, toList_render, ← hnumeral]

end Probe

/-- What is written for a probe is read as that probe. Of the texts that are read as it, this is the one
that is canonical, and two texts are read as the same probe if and only if the same is written for
both. -/
theorem probe_canonical :
    (∀ p : Probe, Probe.parse p.render = .ok p)
    ∧ (∀ text p, Probe.parse text = .ok p →
      Probe.parse p.render = .ok p ∧ (Probe.IsCanonical text ↔ text = p.render))
    ∧ ∀ text text' p p', Probe.parse text = .ok p → Probe.parse text' = .ok p' →
      (p = p' ↔ p.render = p'.render) := by
  refine ⟨Probe.parse_render, fun text p hp => ⟨p.parse_render, fun h => h.eq_render hp, ?_⟩,
    fun _ _ _ _ _ _ => Probe.render_injective.eq_iff.symm⟩
  rintro rfl
  exact p.isCanonical_render

/-- The least index in a loose spelling, and two spellings of zero. -/
theorem probe_canonical_minus :
    Probe.parse "\u3000FLIP :-009223372036854775808\t" = .ok ⟨.update .flip, Int64.minValue⟩
      ∧ Probe.parse "flip:-9223372036854775808" = .ok ⟨.update .flip, Int64.minValue⟩
      ∧ ¬ Probe.IsCanonical "\u3000FLIP :-009223372036854775808\t"
      ∧ Probe.IsCanonical "flip:-9223372036854775808"
      ∧ ∃ p p', Probe.parse "get:-0" = .ok p ∧ Probe.parse "GET:+00" = .ok p'
        ∧ p.render = p'.render := by
  obtain ⟨hread, hcanonical, hsame⟩ := probe_canonical
  have hloose : Probe.parse "\u3000FLIP :-009223372036854775808\t"
      = .ok ⟨.update .flip, Int64.minValue⟩ := by decide
  have hrender : (Probe.mk (.update .flip) Int64.minValue).render = "flip:-9223372036854775808" := by
    decide
  have hterse := hread ⟨.update .flip, Int64.minValue⟩
  rw [hrender] at hterse
  have hminus : Probe.parse "get:-0" = .ok ⟨.get, 0⟩ := by decide
  have hplus : Probe.parse "GET:+00" = .ok ⟨.get, 0⟩ := by decide
  refine ⟨hloose, hterse, fun h => ?_, (hcanonical _ _ hterse).2.2 hrender.symm, _, _, hminus, hplus,
    (hsame _ _ _ _ hminus hplus).1 rfl⟩
  have heq := (hcanonical _ _ hloose).2.1 h
  rw [hrender] at heq
  cases String.toList_inj.2 heq

end SharedBits
