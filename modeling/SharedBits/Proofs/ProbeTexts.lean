import Mathlib.Data.List.TakeDrop
import SharedBits.Probe
import SharedBits.Proofs.Numerals
import SharedBits.Proofs.Spellings

/-!
# Texts of probes

The texts that are read as a probe are those of a grammar: the name of an operation, a colon and a
numeral of 64 bits, with blanks around both and letters of any case. It is the first colon that counts, so
a second one would have to be part of the numeral. Every other text is refused for the first thing that
is wrong with it, from the left, and the refusal quotes the part that is wrong (`probe_reads`).
-/

namespace SharedBits

open Text

/-- The text is the name of an operation up to the case of its letters. -/
def Operation.IsNamed (operation : Operation) (name : List Char) : Prop :=
  List.Forall₂ SameLetter name operation.name.toList

namespace Probe

/-- The text writes an operation and an integer of any size. -/
def Writes (text : String) (operation : Operation) (index : Int) : Prop :=
  ∃ before behind name numeral, text.toList = before ++ ':' :: behind ∧ ':' ∉ before
    ∧ Stripped before name ∧ operation.IsNamed name
    ∧ Stripped behind numeral ∧ Text.Writes numeral index

/-- The first thing that is wrong with a text. -/
inductive Fault (text : String) : ProbeError → Prop
  | noColon (htext : ':' ∉ text.toList) : Fault text (.noColon text)
  | unknownOperation {before behind name : List Char} (htext : text.toList = before ++ ':' :: behind)
    (hbefore : ':' ∉ before) (hname : Stripped before name)
    (hunknown : ∀ operation : Operation, ¬ operation.IsNamed name) :
    Fault text (.unknownOperation (String.ofList (lower name)))
  | badIndex {before behind name numeral : List Char} {operation : Operation}
    {reason : NumeralError} (htext : text.toList = before ++ ':' :: behind) (hbefore : ':' ∉ before)
    (hname : Stripped before name) (hnamed : operation.IsNamed name)
    (hnumeral : Stripped behind numeral) (hreason : Unreadable numeral reason) :
    Fault text (.badIndex (String.ofList behind) reason)

end Probe

/-- The text that a refusal quotes. -/
def ProbeError.quoted : ProbeError → String
  | noColon text => text
  | unknownOperation name => name
  | badIndex text _ => text

/-! ## Names -/

namespace Operation

variable {operation : Operation} {name : List Char}

theorem lower_name (operation : Operation) :
    lower operation.name.toList = operation.name.toList := by
  rcases operation with _ | _ | _ | _ <;> decide

theorem named?_eq_some_iff {text : String} : named? text = some operation ↔ operation.name = text := by
  constructor
  · intro h
    unfold named? at h
    split at h <;> cases h <;> rfl
  · rintro rfl
    rcases operation with _ | _ | _ | _ <;> rfl

theorem isNamed_iff : operation.IsNamed name ↔ named? (String.ofList (lower name)) = some operation := by
  rw [named?_eq_some_iff, IsNamed, ← lower_eq_lower_iff, lower_name, ← String.toList_inj,
    String.toList_ofList, eq_comm]

theorem named?_eq_none_iff :
    named? (String.ofList (lower name)) = none ↔ ∀ operation : Operation, ¬ operation.IsNamed name := by
  rw [Option.eq_none_iff_forall_ne_some]
  simp only [isNamed_iff, ne_eq]

end Operation

/-! ## Reading -/

namespace Probe

variable {text : String} {before behind name numeral : List Char} {operation : Operation}

theorem bne_colon_of_not_mem {cs : List Char} (h : ':' ∉ cs) : ∀ c ∈ cs, (c != ':') = true :=
  fun _ hc => bne_iff_ne.2 fun heq => h (heq ▸ hc)

theorem parse_of_not_mem (htext : ':' ∉ text.toList) : parse text = .error (.noColon text) := by
  rw [parse, List.span_eq_takeWhile_dropWhile,
    List.dropWhile_eq_nil_iff.2 (bne_colon_of_not_mem htext)]

/-- What is read of a text is decided by the parts at its first colon. -/
theorem parse_of_parts (htext : text.toList = before ++ ':' :: behind) (hbefore : ':' ∉ before)
    (hname : Stripped before name) (hnumeral : Stripped behind numeral) :
    parse text = match Operation.named? (String.ofList (lower name)) with
      | none => .error (.unknownOperation (String.ofList (lower name)))
      | some operation =>
        match readSigned numeral with
        | .error reason => .error (.badIndex (String.ofList behind) reason)
        | .ok index => .ok ⟨operation, index⟩ := by
  have hall := bne_colon_of_not_mem hbefore
  have hspan : text.toList.span (· != ':') = (before, ':' :: behind) := by
    rw [htext, List.span_eq_takeWhile_dropWhile, List.takeWhile_append_of_pos hall,
      List.dropWhile_append_of_pos hall]
    simp
  obtain rfl := trim_eq_iff.2 hname
  obtain rfl := trim_eq_iff.2 hnumeral
  rcases hnamed : Operation.named? (String.ofList (lower (trim before))) with _ | operation
  · simp only [parse, hspan, hnamed]
  · rcases hread : readSigned (trim behind) with reason | index
    · simp only [parse, hspan, hnamed, hread]
    · simp only [parse, hspan, hnamed, hread]

theorem parse_of_isNamed (htext : text.toList = before ++ ':' :: behind) (hbefore : ':' ∉ before)
    (hname : Stripped before name) (hnamed : operation.IsNamed name)
    (hnumeral : Stripped behind numeral) :
    parse text = match readSigned numeral with
      | .error reason => .error (.badIndex (String.ofList behind) reason)
      | .ok index => .ok ⟨operation, index⟩ := by
  rw [parse_of_parts htext hbefore hname hnumeral, Operation.isNamed_iff.1 hnamed]

/-- A text is either one of the grammar, with an integer of 64 bits, or has a fault. -/
theorem parse_cases (text : String) :
    (∃ p : Probe, parse text = .ok p ∧ Writes text p.operation p.index.toInt)
      ∨ ∃ e, parse text = .error e ∧ Fault text e := by
  by_cases hcolon : ':' ∈ text.toList
  · obtain ⟨before, behind, htext, hbefore⟩ := List.eq_append_cons_of_mem hcolon
    have hname := stripped_trim before
    have hnumeral := stripped_trim behind
    rcases hnamed : Operation.named? (String.ofList (lower (trim before))) with _ | operation
    · refine .inr ⟨_, ?_, .unknownOperation htext hbefore hname
        (Operation.named?_eq_none_iff.1 hnamed)⟩
      rw [parse_of_parts htext hbefore hname hnumeral, hnamed]
    · have hnamed := Operation.isNamed_iff.2 hnamed
      have hparse := parse_of_isNamed htext hbefore hname hnamed hnumeral
      rcases hread : readSigned (trim behind) with reason | index
      · rw [hread] at hparse
        exact .inr ⟨_, hparse, .badIndex htext hbefore hname hnamed hnumeral
          (readSigned_eq_error_iff.1 hread)⟩
      · rw [hread] at hparse
        exact .inl ⟨_, hparse, before, behind, _, _, htext, hbefore, hname, hnamed, hnumeral,
          readSigned_eq_ok_iff.1 hread⟩
  · exact .inr ⟨_, parse_of_not_mem hcolon, .noColon hcolon⟩

theorem parse_of_writes {p : Probe} (h : Writes text p.operation p.index.toInt) :
    parse text = .ok p := by
  obtain ⟨before, behind, name, numeral, htext, hbefore, hname, hnamed, hnumeral, hwrites⟩ := h
  rw [parse_of_isNamed htext hbefore hname hnamed hnumeral, readSigned_eq_ok_iff.2 hwrites]

theorem parse_of_fault {e : ProbeError} (h : Fault text e) : parse text = .error e := by
  cases h with
  | noColon htext => exact parse_of_not_mem htext
  | @unknownOperation before behind name htext hbefore hname hunknown =>
    rw [parse_of_parts htext hbefore hname (stripped_trim behind),
      Operation.named?_eq_none_iff.2 hunknown]
  | badIndex htext hbefore hname hnamed hnumeral hreason =>
    rw [parse_of_isNamed htext hbefore hname hnamed hnumeral, readSigned_eq_error_iff.2 hreason]

theorem writes_of_parse {p : Probe} (h : parse text = .ok p) :
    Writes text p.operation p.index.toInt := by
  rcases parse_cases text with ⟨q, hq, hwrites⟩ | ⟨e, he, -⟩
  · cases h.symm.trans hq
    exact hwrites
  · cases h.symm.trans he

theorem fault_of_parse {e : ProbeError} (h : parse text = .error e) : Fault text e := by
  rcases parse_cases text with ⟨q, hq, -⟩ | ⟨e', he, hfault⟩
  · cases h.symm.trans hq
  · cases h.symm.trans he
    exact hfault

end Probe

/-- The message of a refusal ends with what it quotes. -/
theorem ProbeError.head?_chain : ∀ e : ProbeError,
    ∃ opening, e.chain.head? = some (opening ++ "`" ++ e.quoted ++ "`")
  | noColon _ => ⟨"expected `op:index`, got ", rfl⟩
  | unknownOperation _ => ⟨"unknown operation ", rfl⟩
  | badIndex _ _ => ⟨"invalid bit index ", rfl⟩

/-- A text is read as a probe if and only if it is one of the grammar and its integer has 64 bits; else
it is refused for its first fault. -/
theorem probe_reads (text : String) :
    (∀ p, Probe.parse text = .ok p ↔ Probe.Writes text p.operation p.index.toInt)
    ∧ ((∃ p, Probe.parse text = .ok p) ↔ ∃ operation i, Probe.Writes text operation i ∧ InInt64 i)
    ∧ (∀ e, Probe.parse text = .error e ↔ Probe.Fault text e)
    ∧ ∀ e : ProbeError, ∃ opening, e.chain.head? = some (opening ++ "`" ++ e.quoted ++ "`") := by
  refine ⟨fun p => ⟨Probe.writes_of_parse, Probe.parse_of_writes⟩, ⟨?_, ?_⟩,
    fun e => ⟨Probe.fault_of_parse, Probe.parse_of_fault⟩, ProbeError.head?_chain⟩
  · rintro ⟨p, hp⟩
    exact ⟨p.operation, p.index.toInt, Probe.writes_of_parse hp, inInt64_toInt p.index⟩
  · rintro ⟨operation, i, hwrites, hin⟩
    refine ⟨⟨operation, Int64.ofInt i⟩, Probe.parse_of_writes ?_⟩
    rwa [Int64.toInt_ofInt_of_le hin.1 hin.2]

/-- What comes first decides the reason: the second numeral is out of range before its last character. -/
example :
    Probe.parse "Get: 9223372036854775807x"
        = .error (.badIndex " 9223372036854775807x" .invalidDigit)
      ∧ Probe.parse "get:-9223372036854775809x"
        = .error (.badIndex "-9223372036854775809x" .tooSmall) := by
  decide

end SharedBits
