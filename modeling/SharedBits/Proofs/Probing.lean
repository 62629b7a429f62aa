import SharedBits.Probe.Command
import SharedBits.Proofs.Columns
import SharedBits.Proofs.Sessions

/-!
# Probes of a new bitset

A probe is refused for one of two reasons, a negative index or one that is too large, and both are found
by different checks; to a caller they are one: the index, as an integer, addresses no bit
(`Probe.apply_bitSet`). So a series of probes prints a line for each probe before the first that is
refused, with the bits as those probes have left them, and then stops with a failure that names the
refused one. What it prints does not depend on the strategy (`probes_print`).
-/

namespace SharedBits

open Session

variable {w : Width}

namespace Probe

/-- Whether the index of a probe is that of a bit. -/
def addresses (capacity : Nat) (p : Probe) : Bool :=
  decide (0 ≤ p.index.toInt ∧ p.index.toInt < capacity)

/-- The change that a probe asks for. -/
def change (p : Probe) : Option (BitOp × Nat) :=
  match p.operation with
  | .get => none
  | .update op => some (op, p.index.toInt.toNat)

/-- The canonical text of a probe. -/
def text (p : Probe) : String :=
  match p.operation with
  | .get => "get:" ++ toString p.index.toInt
  | .update .set => "set:" ++ toString p.index.toInt
  | .update .clear => "clear:" ++ toString p.index.toInt
  | .update .flip => "flip:" ++ toString p.index.toInt

/-- What a probe shows of these bits. -/
def shown (bits : Plain) (p : Probe) : String :=
  match p.operation with
  | .get => if bits.bit p.index.toInt.toNat then "1" else "0"
  | .update _ => "ok"

/-- The refusal of a probe that addresses no bit. -/
def refusal (capacity : Nat) (p : Probe) : Error := .indexOutOfRange p.index.toInt capacity

end Probe

/-- Probes of these bits print these lines and end so. -/
structure ProbeRun (bits : Plain) (probes : List Probe) (lines : List String)
    (verdict : Except Failure Unit) : Prop where
  /-- There is a line for each probe before the first that addresses no bit. -/
  length : lines.length = (probes.takeWhile (Probe.addresses bits.capacity)).length
  /-- Each line has the text of its probe and, in the next column, what that shows after the changes of
  those before. -/
  line : ∀ n line, lines[n]? = some line → ∃ p : Probe, probes[n]? = some p
    ∧ line = Text.left 12 p.text ++ " "
      ++ p.shown (bits.updateAll ((probes.take n).filterMap Probe.change))
  passed : (∀ p ∈ probes, p.addresses bits.capacity = true) → verdict = .ok ()
  failed : ∀ p, probes[lines.length]? = some p →
    verdict = .error (.probeFailed p (p.refusal bits.capacity))

/-! ## One probe -/

namespace Probe

variable {p : Probe} {bits : Plain}

theorem render_eq_text (p : Probe) : p.render = p.text := by
  obtain ⟨operation, index⟩ := p
  rcases operation with _ | _ | _ | _ <;> rfl

theorem line_eq (p : Probe) (outcome : String) :
    p.line outcome = Text.left 12 p.text ++ " " ++ outcome := by
  rw [line, Text.padEnd_eq, render_eq_text]

theorem addresses_iff {capacity : Nat} : p.addresses capacity = true
    ↔ 0 ≤ p.index.toInt ∧ p.index.toInt.toNat < capacity := by
  simp only [addresses, decide_eq_true_eq]
  omega

/-- A signed index never reaches the largest that a refusal can name. -/
theorem min_maxIndex (hp : 0 ≤ p.index.toInt) :
    min (p.index.toInt.toNat : Int) maxIndex = p.index.toInt := by
  have hlt := p.index.toInt_lt
  have hmax : maxIndex = 2 ^ 63 - 1 := rfl
  omega

theorem apply_of_addresses (hbits : 0 < bits.capacity) (s : Strategy) (w : Width)
    (hp : p.addresses bits.capacity = true) :
    p.apply (bits.bitSet s w)
      = (.returned (.ok (p.shown bits)), (bits.updateAll p.change.toList).bitSet s w) := by
  obtain ⟨hnonneg, hlt⟩ := addresses_iff.1 hp
  have hperform := perform_bitSet hbits s w (p.operation.on p.index.toInt.toNat)
  simp only [apply, signedIndex, if_neg (Int.not_lt.2 hnonneg), hperform]
  rcases hop : p.operation with _ | op
  · simp only [Operation.on, Plain.perform, Plain.getElem?_bits hlt, shown, change, hop]
    rfl
  · simp only [Operation.on, Plain.perform, if_pos hlt, shown, change, hop]
    rfl

/-- A negative index is refused by one check and one that is too large by another, with the same
words. -/
theorem apply_of_not_addresses (hbits : 0 < bits.capacity) (s : Strategy) (w : Width)
    (hp : p.addresses bits.capacity = false) :
    p.apply (bits.bitSet s w)
      = (.returned (.error (p.refusal bits.capacity)), bits.bitSet s w) := by
  by_cases hneg : p.index.toInt < 0
  · simp only [apply, signedIndex, if_pos hneg]
    rfl
  · have hnonneg : 0 ≤ p.index.toInt := Int.not_lt.1 hneg
    have hge : ¬ p.index.toInt.toNat < bits.capacity := fun hlt => by
      simp [addresses_iff.2 ⟨hnonneg, hlt⟩] at hp
    have hrefusal : bits.refusal p.index.toInt.toNat = p.refusal bits.capacity := by
      rw [Plain.refusal, min_maxIndex hnonneg]
      rfl
    have hperform := perform_bitSet hbits s w (p.operation.on p.index.toInt.toNat)
    simp only [apply, signedIndex, if_neg hneg, hperform]
    rcases p.operation with _ | op
    · have hnone : bits.bits[p.index.toInt.toNat]? = none :=
        List.getElem?_eq_none (Nat.le_of_not_lt hge)
      simp only [Operation.on, Plain.perform, hnone, hrefusal]
      rfl
    · simp only [Operation.on, Plain.perform, if_neg hge, hrefusal]
      rfl

end Probe

/-! ## Series of probes -/

namespace ProbeRun

variable {bits : Plain} {p : Probe} {probes : List Probe} {lines : List String}
  {verdict : Except Failure Unit}

theorem nil (bits : Plain) : ProbeRun bits [] [] (.ok ()) where
  length := rfl
  line _ _ h := by simp at h
  passed _ := rfl
  failed _ h := by simp at h

theorem cons (hp : p.addresses bits.capacity = true)
    (h : ProbeRun (bits.updateAll p.change.toList) probes lines verdict) :
    ProbeRun bits (p :: probes) (p.line (p.shown bits) :: lines) verdict := by
  obtain ⟨hlength, hline, hpassed, hfailed⟩ := h
  rw [Plain.capacity_updateAll] at hlength hpassed hfailed
  refine ⟨?_, fun n line hn => ?_, fun hall => ?_, fun q hq => ?_⟩
  · rw [List.takeWhile_cons_of_pos hp, List.length_cons, List.length_cons, hlength]
  · rcases n with _ | n
    · exact ⟨p, rfl, (Option.some.inj hn).symm.trans (p.line_eq _)⟩
    · obtain ⟨q, hq, rfl⟩ := hline n line hn
      refine ⟨q, hq, ?_⟩
      rw [← Plain.updateAll_append, List.take_succ_cons]
      cases hc : p.change <;> simp [hc]
  · exact hpassed fun q hq => hall q (List.mem_cons_of_mem p hq)
  · exact hfailed q (by simpa using hq)

theorem refused (hp : p.addresses bits.capacity = false) (probes : List Probe) :
    ProbeRun bits (p :: probes) [] (.error (.probeFailed p (p.refusal bits.capacity))) where
  length := by
    rw [List.takeWhile_cons_of_neg (by simp [hp])]
    rfl
  line _ _ h := by simp at h
  passed hall := by simp [hall p List.mem_cons_self] at hp
  failed q hq := by
    obtain rfl : p = q := by simpa using hq
    rfl

end ProbeRun

/-- Whatever the strategy, the width and the surroundings, the probes print these lines. -/
def Probe.Print (bits : Plain) (probes : List Probe) (lines : List String)
    (verdict : Except Failure Unit) : Prop :=
  ∀ (m : Type → Type) [Monad m] [LawfulMonad m] (s : Strategy) (w : Width) (t : Transcript),
    (Probe.applyAll (bits.bitSet s w) probes : Session m Unit).run.run t
      = pure (verdict, t.append lines [])

namespace Probe.Print

variable {bits : Plain} {p : Probe} {probes : List Probe} {lines : List String}
  {verdict : Except Failure Unit}

theorem nil (bits : Plain) : Print bits [] [] (.ok ()) := by
  intro m _ _ s w t
  rw [t.append_nil]
  rfl

theorem cons (hbits : 0 < bits.capacity) (hp : p.addresses bits.capacity = true)
    (h : Print (bits.updateAll p.change.toList) probes lines verdict) :
    Print bits (p :: probes) (p.line (p.shown bits) :: lines) verdict := by
  intro m _ _ s w t
  simp only [applyAll, apply_of_addresses hbits s w hp]
  rw [run_say_bind, h, t.append_append]
  rfl

/-- After a refusal nothing is done. -/
theorem refused (hbits : 0 < bits.capacity) (hp : p.addresses bits.capacity = false)
    (probes : List Probe) :
    Print bits (p :: probes) [] (.error (.probeFailed p (p.refusal bits.capacity))) := by
  intro m _ _ s w t
  simp only [applyAll, apply_of_not_addresses hbits s w hp]
  rw [t.append_nil]
  rfl

end Probe.Print

theorem exists_probeRun : ∀ (probes : List Probe) (bits : Plain), 0 < bits.capacity →
    ∃ lines verdict, ProbeRun bits probes lines verdict ∧ Probe.Print bits probes lines verdict
      ∧ (lines.length < probes.length → ∀ others,
        Probe.Print bits (probes.take (lines.length + 1) ++ others) lines verdict)
  | [], bits, _ => ⟨[], .ok (), .nil bits, .nil bits, fun h => absurd h (Nat.not_lt_zero _)⟩
  | p :: probes, bits, hbits => by
    cases hp : p.addresses bits.capacity with
    | true =>
      obtain ⟨lines, verdict, hrun, hprint, hothers⟩ := exists_probeRun probes
        (bits.updateAll p.change.toList) (by rwa [Plain.capacity_updateAll])
      exact ⟨_, verdict, hrun.cons hp, hprint.cons hbits hp, fun hlt others =>
        (hothers (Nat.lt_of_succ_lt_succ hlt) others).cons hbits hp⟩
    | false =>
      exact ⟨[], _, .refused hp probes, .refused hbits hp probes, fun _ others =>
        .refused hbits hp others⟩

/-! ## The command -/

theorem Failure.message_of_chain {f : Failure} {context cause : String}
    (h : f.chain = [context, cause]) : f.message = context ++ ": " ++ cause := by
  rw [message, h]
  rfl

theorem Failure.message_of_zero_capacity (s : Strategy) :
    (cannotBuild s .invalidCapacity).message
      = "cannot build " ++ s.name ++ " bitset: bitset capacity must be positive" := by
  have hwords : " bitset: bitset capacity must be positive"
      = " bitset" ++ (": " ++ "bitset capacity must be positive") := by
    simp only [String.reduceAppend]
  rw [hwords, ← String.append_assoc, ← String.append_assoc]
  exact message_of_chain rfl

theorem Probe.message_of_refused (p : Probe) (capacity : Nat) :
    (Failure.probeFailed p (p.refusal capacity)).message
      = p.text ++ " failed: bit index " ++ toString p.index.toInt ++ " out of range for capacity "
        ++ toString capacity := by
  have hwords : " failed: bit index " = " failed" ++ (": " ++ "bit index ") := by
    simp only [String.reduceAppend]
  calc (Failure.probeFailed p (p.refusal capacity)).message
    _ = p.render ++ " failed" ++ ": " ++ ("bit index " ++ toString p.index.toInt
        ++ " out of range for capacity " ++ toString capacity) := Failure.message_of_chain rfl
    _ = _ := by
      rw [hwords, p.render_eq_text]
      simp only [String.append_assoc]

/-- A new bitset is made and reported, then its probes print their lines. -/
theorem Probe.Print.command {capacity : Nat} {probes : List Probe} {lines : List String}
    {verdict : Except Failure Unit}
    (h : Probe.Print (.clear capacity) probes lines verdict) {m : Type → Type} [Monad m]
    [LawfulMonad m] {s : Strategy} {b : BitSet s.defaultWidth} (hb : s.bitSet capacity = .ok b)
    (t : Transcript) : (Probe.command s capacity probes : Session m Unit).run.run t
      = pure (verdict, t.append lines [b.notice]) := by
  obtain rfl := (BitSet.eq_clear_of_create hb).2
  simp only [Probe.command, build, hb]
  rw [bind_assoc, run_report_bind, pure_bind, h, t.append_append]
  rfl

/-- Without a bit nothing is printed; with some, the probes before the first that addresses none print
their lines, the same for every strategy, and that one ends the command. -/
theorem probes_print (capacity : Nat) (probes : List Probe) :
    (capacity = 0 → ∀ (m : Type → Type) [Monad m] [LawfulMonad m] (s : Strategy) (t : Transcript),
      ∃ failure, (Probe.command s capacity probes : Session m Unit).run.run t
          = pure (.error failure, t)
        ∧ failure.message = "cannot build " ++ s.name ++ " bitset: bitset capacity must be positive")
    ∧ (0 < capacity → ∃ lines verdict, ProbeRun (.clear capacity) probes lines verdict
      ∧ ∀ s : Strategy, ∃ b, s.bitSet capacity = .ok b
        ∧ ∀ (m : Type → Type) [Monad m] [LawfulMonad m] (t : Transcript),
          (Probe.command s capacity probes : Session m Unit).run.run t
              = pure (verdict, t.append lines [b.notice])
            ∧ (lines.length < probes.length → ∀ others,
              (Probe.command s capacity (probes.take (lines.length + 1) ++ others)
                  : Session m Unit).run.run t = pure (verdict, t.append lines [b.notice])))
    ∧ ∀ p : Probe, (Failure.probeFailed p (p.refusal capacity)).message
      = p.text ++ " failed: bit index " ++ toString p.index.toInt ++ " out of range for capacity "
        ++ toString capacity := by
  refine ⟨?_, fun hc => ?_, fun p => ?_⟩
  · rintro rfl m _ _ s t
    exact ⟨.cannotBuild s .invalidCapacity, run_fail_bind _ _ t, Failure.message_of_zero_capacity s⟩
  · obtain ⟨lines, verdict, hrun, hprint, hothers⟩ :=
      exists_probeRun probes (.clear capacity) (by rwa [Plain.capacity_clear])
    refine ⟨lines, verdict, hrun, fun s => ⟨_, Fragile.create_eq hc s s.defaultWidth, fun m _ _ t =>
      ⟨hprint.command (Fragile.create_eq hc s s.defaultWidth) t, fun hlt others => ?_⟩⟩⟩
    exact (hothers hlt others).command (Fragile.create_eq hc s s.defaultWidth) t
  · exact p.message_of_refused capacity

/-- The last bit is set and read, then a negative index ends the command before its last probe. -/
theorem probes_print_negative :
    (0 < 10 ∧ ∃ lines verdict, ProbeRun (.clear 10)
        [⟨.update .set, 9⟩, ⟨.get, 9⟩, ⟨.get, -1⟩, ⟨.update .set, 0⟩] lines verdict
      ∧ lines = ["set:9        ok", "get:9        1"]
      ∧ verdict = .error (.probeFailed ⟨.get, -1⟩ (.indexOutOfRange (-1) 10))
      ∧ ∃ b, Strategy.lockFree.bitSet 10 = .ok b
        ∧ (Probe.command .lockFree 10 [⟨.update .set, 9⟩, ⟨.get, 9⟩, ⟨.get, -1⟩, ⟨.update .set, 0⟩]
          : Session Id Unit).run.run {} = (verdict, Transcript.append {} lines [b.notice]))
    ∧ (∃ failure, (Probe.command .lockFree 0 [⟨.get, 0⟩] : Session Id Unit).run.run {}
        = (.error failure, {})
      ∧ failure.message = "cannot build lock-free bitset: bitset capacity must be positive")
    ∧ Failure.message (.probeFailed ⟨.get, -1⟩ (.indexOutOfRange (-1) 10))
      = "get:-1 failed: bit index -1 out of range for capacity 10" := by
  refine ⟨⟨by decide, ?_⟩, (probes_print 0 [⟨.get, 0⟩]).1 rfl Id .lockFree {}, ?_⟩
  · obtain ⟨lines, verdict, hrun, hall⟩ := (probes_print 10
      [⟨.update .set, 9⟩, ⟨.get, 9⟩, ⟨.get, -1⟩, ⟨.update .set, 0⟩]).2.1 (by decide)
    obtain ⟨b, hb, hcommand⟩ := hall .lockFree
    have hlength : lines.length = 2 := hrun.length
    obtain ⟨first, second, rfl⟩ := List.length_eq_two.1 hlength
    obtain ⟨p, hp, rfl⟩ := hrun.line 0 _ rfl
    obtain ⟨q, hq, rfl⟩ := hrun.line 1 _ rfl
    obtain rfl : ⟨.update .set, 9⟩ = p := Option.some.inj hp
    obtain rfl : ⟨.get, 9⟩ = q := Option.some.inj hq
    refine ⟨_, verdict, hrun, by decide, hrun.failed ⟨.get, -1⟩ rfl, b, hb, (hcommand Id {}).1⟩
  · exact ((probes_print 10 []).2.2 ⟨.get, -1⟩).trans (by decide)

end SharedBits
