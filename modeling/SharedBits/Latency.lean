import SharedBits.Text.Places

/-!
# Latencies

Samples of elapsed time in nanoseconds, kept as their extremes, their sum and a histogram of equal
buckets. The last bucket is open above: it also holds all samples beyond it.
-/

namespace SharedBits

/-- The text of a time in nanoseconds, in the unit that keeps the number readable. -/
def nanosText (nanos : Float) : String :=
  if nanos < 1000 then Text.fixedPlaces 2 nanos ++ " ns"
  else if nanos < 1000000 then Text.fixedPlaces 2 (nanos / 1000) ++ " us"
  else Text.fixedPlaces 2 (nanos / 1000000) ++ " ms"

/-- The text of a whole number of nanoseconds. -/
def wholeNanosText (nanos : Nat) : String := nanosText nanos.toUInt64.toFloat

/-- The largest time that can be recorded. -/
def maxNanos : Nat := Nat.pow 2 64 - 1

def bucketCount : Nat := 20

/-- A summary of samples. -/
structure Latency where
  /-- The least sample, or the largest time when there is none. -/
  min : Nat := maxNanos
  max : Nat := 0
  /-- The sum, up to the largest time. -/
  sum : Nat := 0
  count : Nat := 0
  width : Nat
  buckets : Vector Nat bucketCount := Vector.replicate bucketCount 0
  deriving DecidableEq, Repr

/-- One line of the histogram: the samples from `lower` on, and below `upper` unless it is open. -/
structure Latency.Row where
  lower : Nat
  upper : Nat
  isOpen : Bool
  count : Nat
  deriving DecidableEq, Repr

namespace Latency

/-- A summary of no samples. A bucket is at least one nanosecond wide. -/
def new (width : Nat) : Latency := { width := Max.max width 1 }

/-- The bucket of a sample. -/
def bucketOf (width nanos : Nat) : Fin bucketCount :=
  ⟨Min.min (nanos / width) (bucketCount - 1), by unfold bucketCount; omega⟩

/-- The summary with one more sample. -/
def record (l : Latency) (nanos : Nat) : Latency :=
  let i := bucketOf l.width nanos
  { l with
    min := Min.min l.min nanos
    max := Max.max l.max nanos
    sum := Min.min (l.sum + nanos) maxNanos
    count := l.count + 1
    buckets := l.buckets.set i (l.buckets[i] + 1) }

/-- The mean of the samples, zero when there is none. -/
def average (l : Latency) : Float :=
  if l.count = 0 then 0 else l.sum.toUInt64.toFloat / l.count.toUInt64.toFloat

/-! ## The report -/

/-- The line of bucket `i`, unless one of its edges is beyond the largest time. -/
def row? (l : Latency) (i : Fin bucketCount) : Option Row :=
  if (i + 1) * l.width ≤ maxNanos then
    some ⟨i * l.width, (i + 1) * l.width, i + 1 = bucketCount, l.buckets[i]⟩
  else none

/-- The lines of these buckets up to the first that has none, and whether that is all of them. -/
def rows (l : Latency) : List (Fin bucketCount) → List Row × Bool
  | [] => ([], true)
  | i :: is =>
    match l.row? i with
    | none => ([], false)
    | some row =>
      let (rows, isWhole) := l.rows is
      (row :: rows, isWhole)

/-- The text of a line of the histogram. -/
def Row.render (r : Row) : String :=
  "[" ++ wholeNanosText r.lower ++ " - " ++ wholeNanosText r.upper
    ++ (if r.isOpen then "+" else "") ++ "]: " ++ toString r.count

/-- The lines of the report, and whether it is whole. It ends before the first line of its histogram with
an edge that is beyond the largest time. -/
def report (l : Latency) : List String × Bool :=
  let count := "Count: " ++ toString l.count
  if l.count = 0 then ([count], true)
  else
    let (rows, isWhole) := l.rows ((List.finRange bucketCount).filter fun i => 0 < l.buckets[i])
    ([count,
      "Min:   " ++ wholeNanosText l.min,
      "Avg:   " ++ nanosText l.average,
      "Max:   " ++ wholeNanosText l.max,
      "Distribution (" ++ wholeNanosText l.width ++ " buckets):"] ++ rows.map Row.render, isWhole)

/-- The report, if it is whole. -/
def report? (l : Latency) : Option (List String) :=
  let (lines, isWhole) := l.report
  if isWhole then some lines else none

end Latency

end SharedBits
