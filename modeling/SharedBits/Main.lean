import SharedBits.CommandLine.Command

/-!
# The program

Runs the command that its arguments ask for. Its environment picks at random which thread steps
next, so two runs differ as runs of real threads do; the order of tasks depends on the seed alone.
-/

namespace SharedBits

/-- Lets threads take steps, a random one each time, until all are done. -/
partial def interleave {w : Width} (sys : System w Call Reply) (machine : Machine w Call Reply) :
    IO (Machine w Call Reply) := do
  if machine.isDone then return machine
  let thread ← IO.rand 0 (machine.threads.length - 1)
  match sys.step machine { thread := thread } with
  | none => interleave sys machine
  | some (_, machine) => interleave sys machine

/-- Threads run interleaved as long as there are few of them, else one after another. -/
def Environment.live : Environment IO where
  finish sys store calls :=
    if calls.length ≤ 16 then interleave sys (Machine.start store calls)
    else return sys.inTurn store calls
  now := IO.monoNanosNow
  cores := return 1
  shuffle seed tasks := tasks.mergeSort fun task other => hash (seed, task) ≤ hash (seed, other)

end SharedBits

def main (args : List String) : IO UInt32 := do
  let exit ← SharedBits.CommandLine.execute SharedBits.Environment.live args
  for line in exit.lines do
    IO.println line
  for notice in exit.notices do
    if notice.level != .debug then IO.eprintln notice.render
  for line in exit.complaint do
    IO.eprintln line
  return exit.code.toUInt32
