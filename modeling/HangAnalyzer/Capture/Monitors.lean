import HangAnalyzer.Lib.TextFile

/-!
# `HangAnalyzer.Capture.Monitors`: the monitors of `MsptiCapture`

The model of `_enabled_by_file`, `_set_monitor_active` and `_flush_loop` in
`python/mspti_activity_capture.py`. One thread switches the kernel monitor and
the communication monitor on and off. `Loop` holds its variables and what the
monitors do, and `setMonitorActive`, `tick` and `finalStop` say which calls it makes, for
the given answers of the monitors. A call that does not succeed leaves its
monitor as it was.

The calls are kept in `Loop.calls`, which no step reads. In between come the
items that the loop puts into the queue.
-/

set_option autoImplicit false

namespace HangAnalyzer.Capture

open HangAnalyzer.Lib

inductive Monitor where
  | kernel
  | communication
  deriving Repr, DecidableEq

/-- How a call of a monitor ends: with the result zero, with another result, or
with an exception, each as it prints. -/
inductive Answer where
  | success
  | failure (result : String)
  | raised (error : String)
  deriving Repr, DecidableEq

/-- A control item, without its time. -/
inductive Control where
  | captureState (enabled : Bool)
  | flushTick (enabled : Bool) (flushOk : Option Bool)
  deriving Repr, DecidableEq

/-- What the loop does: it calls a monitor, which runs or does not run at that
moment, it flushes, or it puts a control item into the queue. -/
inductive LoopCall where
  | start (m : Monitor) (running : Bool) (answer : Answer)
  | stop (m : Monitor) (answer : Answer)
  | flushAll (answer : Answer)
  | put (item : Control)
  deriving Repr, DecidableEq

/-- The variables of the loop, the monitors, and the calls made. -/
structure Loop where
  kernelRunning : Bool
  communicationRunning : Bool
  monitorActive : Bool
  transitions : Nat
  flushErrors : Nat
  lastError : Option String
  calls : List LoopCall

/-- The answers to the calls that one round of the loop may make. -/
structure Answers where
  kernelStart : Answer
  communicationStart : Answer
  kernelStop : Answer
  communicationStop : Answer
  flushAll : Answer

namespace Loop

/-- The loop before its first round. -/
def init : Loop := ⟨false, false, false, 0, 0, none, []⟩

/-- A monitor runs. -/
def running (s : Loop) : Monitor → Bool
  | .kernel        => s.kernelRunning
  | .communication => s.communicationRunning

/-- Let a monitor run, or not. -/
def setRunning (s : Loop) (m : Monitor) (b : Bool) : Loop :=
  match m with
  | .kernel        => { s with kernelRunning := b }
  | .communication => { s with communicationRunning := b }

/-- `monitor.start(..)`. -/
def start (s : Loop) (m : Monitor) (answer : Answer) : Loop :=
  let s' := { s with calls := s.calls ++ [.start m (s.running m) answer] }
  if answer = .success then s'.setRunning m true else s'

/-- `monitor.stop()`. -/
def stop (s : Loop) (m : Monitor) (answer : Answer) : Loop :=
  let s' := { s with calls := s.calls ++ [.stop m answer] }
  if answer = .success then s'.setRunning m false else s'

/-- `_put_control`. -/
def put (s : Loop) (item : Control) : Loop := { s with calls := s.calls ++ [.put item] }

/-- `self.last_error = error`. -/
def setError (s : Loop) (error : String) : Loop := { s with lastError := some error }

end Loop

/-- `_enabled_by_file`: the loop after it, and the value or the exception it ends
with. Without an enable file the monitors are always on. -/
def enabledByFile (codec : Codec) (path : String) (s : Loop) :
    Option FileState → Loop × Except String Bool
  | none => (s, .ok true)
  | some file =>
      match (readText codec file).map strip with
      -- A missing file means off, without a complaint.
      | .error .notFound       => (s, .ok false)
      | .error (.os error)     => (s.setError ("enable file " ++ error), .ok false)
      -- A `UnicodeDecodeError` is no `OSError`.
      | .error (.decode error) => (s, .error error)
      | .ok value =>
          if value ≠ ['0'] ∧ value ≠ ['1'] then
            (s.setError ("enable file must contain 0 or 1: " ++ path), .ok false)
          else (s, .ok (value = ['1']))

/-- The result of a `stop()` in the loop over both monitors. -/
def stopResult (s : Loop) (label : String) : Answer → Loop
  | .failure result => s.setError (label ++ " stop returned " ++ result)
  | _               => s

/-- The end of `_set_monitor_active` after the monitors were switched. -/
def switched (s : Loop) (enabled : Bool) : Loop :=
  { s with monitorActive := enabled, transitions := s.transitions + 1 }.put (.captureState enabled)

/-- `_set_monitor_active`: the loop after it, and the exception it ends with. -/
def setMonitorActive (answers : Answers) (s : Loop) (enabled : Bool) : Loop × Option String :=
  if enabled = s.monitorActive then (s, none)
  else if enabled then
    let s := s.start .kernel answers.kernelStart
    match answers.kernelStart with
    | .raised error   => (s, some error)
    | .failure result => (s, some ("RuntimeError: KernelMonitor.start failed: " ++ result))
    | .success =>
        let s := s.start .communication answers.communicationStart
        match answers.communicationStart with
        | .raised error => (s, some error)
        -- The one error path that stops the monitor it has started.
        | .failure result =>
            let s := s.stop .kernel answers.kernelStop
            match answers.kernelStop with
            | .raised error => (s, some error)
            | _ => (s, some ("RuntimeError: CommunicationMonitor.start failed: " ++ result))
        | .success => (switched s true, none)
  else
    let s := s.stop .kernel answers.kernelStop
    match answers.kernelStop with
    | .raised error => (s, some error)
    | _ =>
        -- An error code is noted, and the loop goes on with the other monitor.
        let s := stopResult s "kernel" answers.kernelStop
        let s := s.stop .communication answers.communicationStop
        match answers.communicationStop with
        | .raised error => (s, some error)
        | _ => (switched (stopResult s "communication" answers.communicationStop) false, none)

/-- An exception in a round of `_flush_loop`. -/
def loopError (s : Loop) (error : String) : Loop :=
  { s with flushErrors := s.flushErrors + 1 }.setError ("monitor loop " ++ error)

/-- The part of a round after `_set_monitor_active`. -/
def flush (answers : Answers) (s : Loop) : Loop :=
  if s.monitorActive then
    let s := { s with calls := s.calls ++ [.flushAll answers.flushAll] }
    match answers.flushAll with
    | .raised error => loopError s error
    | .success => s.put (.flushTick true (some true))
    | .failure result =>
        ({ s with flushErrors := s.flushErrors + 1 }.setError
          ("flush_all returned " ++ result)).put (.flushTick true (some false))
  else s.put (.flushTick false none)

/-- What one round of the loop finds: the enable file, if there is one, and the
answers to its calls. -/
structure Round where
  file : Option FileState
  answers : Answers

/-- One round of `_flush_loop`. -/
def tick (codec : Codec) (path : String) (s : Loop) (round : Round) : Loop :=
  match enabledByFile codec path s round.file with
  | (s, .error error) => loopError s error
  | (s, .ok enabled) =>
      match setMonitorActive round.answers s enabled with
      | (s, some error) => loopError s error
      | (s, none)       => flush round.answers s

/-- The end of `_flush_loop`, after `stop_requested`. -/
def finalStop (s : Loop) (answers : Answers) : Loop :=
  if s.monitorActive then
    match setMonitorActive answers s false with
    | (s, some error) => s.setError ("final stop " ++ error)
    | (s, none)       => s
  else s

end HangAnalyzer.Capture
