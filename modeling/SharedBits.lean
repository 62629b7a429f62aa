import SharedBits.Word
import SharedBits.Error
import SharedBits.Address
import SharedBits.Text.Blank
import SharedBits.Text.Numeral
import SharedBits.Text.Places
import SharedBits.Text.Column
import SharedBits.Strategy
import SharedBits.Cell
import SharedBits.Lock
import SharedBits.Store
import SharedBits.Prog
import SharedBits.Call
import SharedBits.BitSet
import SharedBits.Machine
import SharedBits.Machine.InTurn
import SharedBits.BitSet.Threads
import SharedBits.Probe
import SharedBits.Failure
import SharedBits.Latency
import SharedBits.Workload
import SharedBits.Notice
import SharedBits.Session
import SharedBits.Probe.Command
import SharedBits.Stress
import SharedBits.Race
import SharedBits.Benchmark
import SharedBits.CommandLine.Options
import SharedBits.CommandLine.Command
import SharedBits.Main
import SharedBits.Plain
import SharedBits.Fragile
import SharedBits.Proofs.Packing
import SharedBits.Proofs.Spellings
import SharedBits.Proofs.Numerals
import SharedBits.Proofs.StrategyNames
import SharedBits.Proofs.ProbeTexts
import SharedBits.Proofs.CanonicalTexts
import SharedBits.Proofs.Summaries
import SharedBits.Proofs.Alone
import SharedBits.Proofs.Actions
import SharedBits.Proofs.Panics
import SharedBits.Proofs.Sequential
import SharedBits.Proofs.Steps
import SharedBits.Proofs.Traces
import SharedBits.Proofs.Serving
import SharedBits.Proofs.Holding
import SharedBits.Proofs.History
import SharedBits.Proofs.Paths
import SharedBits.Proofs.Budget
import SharedBits.Proofs.LockFree
import SharedBits.Proofs.Contention
import SharedBits.Proofs.Locked
import SharedBits.Proofs.Rest
import SharedBits.Proofs.Deadlock
import SharedBits.Proofs.Counting
import SharedBits.Proofs.Chains
import SharedBits.Proofs.Rivals
import SharedBits.Proofs.Ways
import SharedBits.Proofs.Snapshots
import SharedBits.Proofs.Complete
import SharedBits.Proofs.Settling
import SharedBits.Proofs.InTurn
import SharedBits.Proofs.Schedules
import SharedBits.Proofs.Solo
import SharedBits.Proofs.Turns
import SharedBits.Proofs.Bystanders
import SharedBits.Proofs.Readers
import SharedBits.Proofs.Columns
import SharedBits.Proofs.Sessions
import SharedBits.Proofs.Histograms
import SharedBits.Proofs.Probing
import SharedBits.Proofs.WordUpdates
import SharedBits.Proofs.Partition
import SharedBits.Proofs.StressRuns
import SharedBits.Proofs.Races
import SharedBits.Proofs.Benchmarks
import SharedBits.Proofs.Verdicts
