import HangAnalyzer.Lib.TextFile

/-!
# `HangAnalyzer.Mspti.Worker`: the worker thread of `hang_mspti.start`

The model of `start`, its `worker` and `_enabled` in `python/hang_mspti.py`. The
worker reads the control file once in every tick and calls the library. What a tick
finds in the file and the results of its calls are given in a `Tick`. The process
has not called `start` before.

The calls are kept in `Worker.calls`, which no step reads. `collects` is what they
do in the library: a call that does not return zero changes nothing.
-/

set_option autoImplicit false

namespace HangAnalyzer.Mspti

open HangAnalyzer.Lib

/-- A call of the library, with its result. -/
inductive LibraryCall where
  | start (path : String) (capacity : Nat) (result : Int)
  | setEnabled (enabled : Bool) (result : Int)
  | flush (result : Int)
  | stop
  deriving Repr, DecidableEq

/-- Whether the library collects after a call. -/
def LibraryCall.effect (collecting : Bool) : LibraryCall → Bool
  | start _ _ result          => if result = 0 then true else collecting
  | setEnabled enabled result => if result = 0 then enabled else collecting
  | flush _                   => collecting
  | stop                      => false

/-- Whether the library collects after the calls. -/
def collects (calls : List LibraryCall) : Bool := calls.foldl LibraryCall.effect false

/-- The thread runs, has returned after an error of the library, was ended by an
exception, or has seen `_stop`. -/
inductive Status where
  | running
  | returned
  | raised (error : String)
  | ended
  deriving Repr, DecidableEq

/-- The arguments of `start`, and the id of the process. -/
structure Settings where
  directory : String
  pid : Nat
  capacity : Nat

/-- `directory_path / f"mspti-{os.getpid()}.msflight"`. -/
def Settings.path (settings : Settings) : String :=
  settings.directory ++ "/mspti-" ++ toString settings.pid ++ ".msflight"

/-- `directory_path / f"mspti-{os.getpid()}.error"`. -/
def Settings.errorPath (settings : Settings) : String :=
  settings.directory ++ "/mspti-" ++ toString settings.pid ++ ".error"

/-- The variables of the thread, the file it leaves behind, and the calls made. -/
structure Worker where
  active : Bool
  collecting : Bool
  status : Status
  errorFile : Option (String × String)
  calls : List LibraryCall
  deriving Repr, DecidableEq

/-- What one tick finds: the control file, if there is one, and the results of the
calls that it may make. -/
structure Tick where
  file : Option FileState
  startResult : Int
  setEnabledResult : Int
  flushResult : Int

/-- `_enabled`: only a missing file is caught. -/
def enabled (codec : Codec) (file : FileState) : Except String Bool :=
  match readText codec file with
  | .ok text               => .ok (strip text = ['1'])
  | .error .notFound       => .ok false
  | .error (.os error)     => .error error
  | .error (.decode error) => .error error

/-- `not control_file or _enabled(control_file)`. -/
def wanted (codec : Codec) : Option FileState → Except String Bool
  | none      => .ok true
  | some file => enabled codec file

namespace Worker

/-- The library is called. -/
def call (w : Worker) (c : LibraryCall) : Worker := { w with calls := w.calls ++ [c] }

/-- The thread leaves an error file and returns. -/
def fail (settings : Settings) (w : Worker) (name : String) (result : Int) : Worker :=
  { w with
    status := .returned
    errorFile := some (settings.errorPath, name ++ " failed: " ++ toString result ++ "\n") }

/-- The end of a tick. -/
def flush (w : Worker) (result : Int) : Worker :=
  if w.collecting then w.call (.flush result) else w

/-- One tick of the loop in `worker`. -/
def tick (codec : Codec) (settings : Settings) (w : Worker) (t : Tick) : Worker :=
  match wanted codec t.file with
  | .error error => { w with status := .raised error }
  | .ok enabled =>
      -- The first tick that is enabled starts the library.
      if enabled && !w.active then
        let w := w.call (.start settings.path settings.capacity t.startResult)
        if t.startResult ≠ 0 then w.fail settings "hang_mspti_start" t.startResult
        else { w with active := true, collecting := true }.flush t.flushResult
      -- Later ones switch it, when the file has changed.
      else if w.active && enabled != w.collecting then
        let w := w.call (.setEnabled enabled t.setEnabledResult)
        if t.setEnabledResult ≠ 0 then
          w.fail settings "hang_mspti_set_enabled" t.setEnabledResult
        else { w with collecting := enabled }.flush t.flushResult
      else w.flush t.flushResult

/-- The ticks of the loop, as long as the thread runs. -/
def run (codec : Codec) (settings : Settings) (w : Worker) (ticks : List Tick) : Worker :=
  ticks.foldl (fun w t => if w.status = .running then w.tick codec settings t else w) w

/-- The thread finds `_stop` set. -/
def finish (w : Worker) : Worker :=
  if w.status = .running then
    { if w.active then w.call .stop else w with status := .ended }
  else w

end Worker

/-- `start`: the worker it starts, or an exception. -/
def start (codec : Codec) (settings : Settings) (file : Option FileState) (result : Int) :
    Except String Worker :=
  match wanted codec file with
  | .error error => .error error
  | .ok false    => .ok ⟨false, false, .running, none, []⟩
  | .ok true     =>
      if result ≠ 0 then
        .error ("RuntimeError: hang_mspti_start failed: " ++ toString result ++
          "; check LD_PRELOAD=libmspti.so")
      else .ok ⟨true, true, .running, none, [.start settings.path settings.capacity result]⟩

end HangAnalyzer.Mspti
