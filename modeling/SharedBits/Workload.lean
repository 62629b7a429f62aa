import SharedBits.Call

/-!
# Workloads

A workload sets, flips, clears and reads every bit, each so many times. A task is the work of one
kind on one bit; the tasks of a workload come kind by kind unless they are shuffled.
-/

namespace SharedBits

inductive Workload where
  | updateAndGetOnce
  | readMany
  | updateMany
  deriving DecidableEq, Repr

/-- Work of one kind on one bit. -/
structure Task where
  operation : Operation
  repeats : Nat
  bit : Nat
  deriving DecidableEq, Hashable, Repr

def Task.calls (t : Task) : List Call := List.replicate t.repeats (t.operation.on t.bit)

namespace Workload

def all : List Workload := [updateAndGetOnce, readMany, updateMany]

/-- The name under which a workload is chosen. -/
def name : Workload → String
  | updateAndGetOnce => "update-and-get-once"
  | readMany => "read-many"
  | updateMany => "update-many"

/-- The identifier of a workload in structured output. -/
def label : Workload → String
  | updateAndGetOnce => "UpdateAndGetOnce"
  | readMany => "ReadMany"
  | updateMany => "UpdateMany"

def named? (text : String) : Option Workload := all.find? fun workload => workload.name == text

/-- How often each bit is set, flipped, cleared and read, in this order. -/
def mix : Workload → List (Operation × Nat)
  | updateAndGetOnce => [(.update .set, 1), (.update .flip, 1), (.update .clear, 1), (.get, 1)]
  | readMany => [(.update .set, 1), (.update .flip, 1), (.update .clear, 1), (.get, 6)]
  | updateMany => [(.update .set, 5), (.update .flip, 6), (.update .clear, 6), (.get, 1)]

/-- The tasks on `bits` bits, kind by kind. -/
def tasks (workload : Workload) (bits : Nat) : List Task :=
  workload.mix.flatMap fun (operation, repeats) =>
    (List.range bits).map fun bit => ⟨operation, repeats, bit⟩

end Workload

end SharedBits
