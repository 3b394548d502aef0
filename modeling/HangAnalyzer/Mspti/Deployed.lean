import HangAnalyzer.Mspti.Switch
import HangAnalyzer.Mspti.Worker

/-!
# `HangAnalyzer.Mspti.Deployed`: the worker and its library in one process

`HangAnalyzer.Mspti.Worker` takes the results of the library calls as given.
`HangAnalyzer.Mspti.Switch` says what the calls do, and what they return. `Performed` puts
the two together: the calls that a worker has made take the library from one state to
another, and every result that the worker saw is the one that the library returned.

The model of `hang_mspti_flush` is here, too.
-/

set_option autoImplicit false

namespace HangAnalyzer.Mspti

open HangAnalyzer.Lib

/-- `hang_mspti_flush`. `result` is the answer of `msptiActivityFlushAll`. -/
def Switch.State.hangMsptiFlush (s : Switch.State) (pid : UInt32) (result : Int) :
    Switch.State × Int :=
  if s.header.isNone ∨ pid ≠ s.owner then (s, Switch.EINVAL)
  else s.check pid result "flush"

/-- What the system and msPTI answer during a call. -/
structure Answers where
  start : Switch.StartAnswers
  enable : Switch.Source → Int
  unsubscribe : Int
  flush : Int

namespace LibraryCall

/-- What the worker has seen. `hang_mspti_stop` returns nothing. -/
def result : LibraryCall → Option Int
  | start _ _ result    => some result
  | setEnabled _ result => some result
  | flush result        => some result
  | stop                => none

/-- The call in the process `pid`. The arguments are converted as `argtypes` says. -/
def perform (pid : UInt32) (s : Switch.State) (answers : Answers) :
    LibraryCall → Switch.State × Option Int
  | start path capacity _ =>
      let (s, rc) := s.hangMsptiStart pid (some path) (UInt64.ofNat capacity) answers.start
      (s, some rc)
  | setEnabled enabled _ =>
      let (s, rc) := s.hangMsptiSetEnabled pid enabled answers.enable
      (s, some rc)
  | flush _ =>
      let (s, rc) := s.hangMsptiFlush pid answers.flush
      (s, some rc)
  | stop => (s.hangMsptiStop pid answers.enable answers.unsubscribe, none)

end LibraryCall

/-- The calls take the library from `s` to the last state, and return what the worker has
seen. -/
inductive Performed (pid : UInt32) (s : Switch.State) : List LibraryCall → Switch.State → Prop
  | nil : Performed pid s [] s
  | concat {calls : List LibraryCall} {t : Switch.State} {c : LibraryCall} (answers : Answers)
      (hbefore : Performed pid s calls t) (hresult : (c.perform pid t answers).2 = c.result) :
      Performed pid s (calls ++ [c]) (c.perform pid t answers).1

/-- The library of a process that has not called it, with all sources off. -/
def freshLibrary (files : List String) : Switch.State := .start files fun _ => false

end HangAnalyzer.Mspti
