import Mathlib.Data.Finset.Insert
import HangAnalyzer.Recorder.Format

/-!
# `HangAnalyzer.Watchdog.Loop`: the loop of the watchdog

The model of the loop in `main` of `flightrecorder/watchdog.py`. Every call of
`alive` has a number, and a `World` says what each call answers: a process may die
between any two calls, and a dead process stays dead. What an iteration reads from
the directory and the clock is given in an `Iteration`.

A snapshot that is taken is kept in `State.snapshots`. Copying the files is left
out, and so is what is printed.
-/

set_option autoImplicit false

namespace HangAnalyzer.Watchdog

open HangAnalyzer.Recorder

/-- The answer of `alive(pid)` when it is call number `n`. -/
structure World where
  alive : Int → Nat → Bool
  stays_dead : ∀ pid n, alive pid n = false → alive pid (n + 1) = false

/-- The arguments of `main` that the loop uses: the monitored processes, and the
comparison of an idle time in nanoseconds with `--timeout`. -/
structure Args where
  pids : List Int
  timedOut : Int → Bool

/-- Why a snapshot is taken. -/
inductive Reason where
  | stalled (pid writeSeq : Nat)
  | exit (pid : Nat)
  deriving Repr, DecidableEq

/-- The reason in the name of a snapshot. -/
def Reason.text : Reason → String
  | stalled pid _ => "stalled-pid" ++ toString pid
  | exit pid      => "exit-pid" ++ toString pid

/-- The variables of the loop, the number of calls of `alive` made, and the snapshots
taken. -/
structure State where
  checks : Nat
  seenStalls : Finset (Nat × Nat)
  seenExit : Finset Nat
  snapshots : List Reason

/-- The state before the loop. -/
def State.init : State := ⟨0, ∅, ∅, []⟩

/-- What one iteration reads: the files of the directory in the order of their names,
each with its content if it can be read, and the clock. -/
structure Iteration where
  files : List (String × Option (List UInt8))
  now : Nat

/-- The headers that an iteration reads. -/
def Iteration.headers (it : Iteration) : List FlightHeader :=
  it.files.filterMap fun file => file.2.bind fun raw => (readHeader file.1 raw).toOption

variable (world : World) (args : Args)

/-- The body of the loop over the headers. A header of a live process that has timed
out needs one call of `alive`, any other header needs two. -/
def look (now : Nat) (s : State) (h : FlightHeader) : State :=
  -- `elif not alive(pid)` asks a second time, unless the first test succeeded.
  if world.alive h.pid s.checks && args.timedOut (now - h.lastNs) then
    let s := { s with checks := s.checks + 1 }
    if (h.pid, h.writeSeq) ∈ s.seenStalls then s
    else
      { s with
        seenStalls := insert (h.pid, h.writeSeq) s.seenStalls
        snapshots := s.snapshots ++ [.stalled h.pid h.writeSeq] }
  else
    let again := world.alive h.pid (s.checks + 1)
    let s := { s with checks := s.checks + 2 }
    if !again && h.pid ∉ s.seenExit then
      { s with
        seenExit := insert h.pid s.seenExit
        snapshots := s.snapshots ++ [.exit h.pid] }
    else s

/-- `all(not alive(pid) for pid in pids)`, and the number of calls of `alive` after
it. -/
def allDead : List Int → Nat → Bool × Nat
  | [], n          => (true, n)
  | pid :: pids, n => if world.alive pid n then (false, n + 1) else allDead pids (n + 1)

/-- One iteration, and whether it leaves the loop. -/
def iterate (s : State) (it : Iteration) : State × Bool :=
  let s := it.headers.foldl (look world args it.now) s
  -- `if pids and all(...)`
  if args.pids.isEmpty then (s, false)
  else
    let (dead, checks) := allDead world args.pids s.checks
    ({ s with checks }, dead)

/-- The iterations of the loop, and whether it was left. -/
def run (s : State) : List Iteration → State × Bool
  | []        => (s, false)
  | it :: its =>
      let (s, left) := iterate world args s it
      if left then (s, true) else run s its

end HangAnalyzer.Watchdog
