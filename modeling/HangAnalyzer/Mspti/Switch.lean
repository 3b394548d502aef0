import Mathlib.Data.UInt
import Mathlib.Logic.Function.Basic
import HangAnalyzer.Lib.Runs

/-!
# `HangAnalyzer.Mspti.Switch`: starting, switching and stopping the msPTI recorder

The model of `hang_mspti_start`, `hang_mspti_set_enabled` and `hang_mspti_stop` in
`src/hang_mspti.cpp`, with `set_enabled_locked`, `check` and `cleanup_map`. The mutex
`g_lifecycle` makes each of them one step.

`State` has the globals of the file, and what they manage: the files, descriptors and
buffers of the process, and the subscribers and sources of msPTI. What the system and
msPTI answer in a call is an argument of the call. `close`, `munmap`, `unlink` and `free` of
what the process has do not fail.
-/

set_option autoImplicit false

namespace HangAnalyzer.Mspti.Switch

open HangAnalyzer.Lib

def ENOMEM : Int := 12
def EEXIST : Int := 17
def EINVAL : Int := 22
def EOVERFLOW : Int := 75

/-- `errno` after a call that failed. -/
structure Errno where
  code : Int
  pos : 0 < code

/-- The result of an msPTI call that failed. -/
structure MsptiError where
  result : Int
  ne : result ≠ 0

/-! ### What is switched -/

/-- The sources, in the order in which `set_enabled_locked` switches them. -/
inductive Source where
  | runtimeDomain
  | hcclDomain
  | kernelActivity
  | hcclActivity
  | runtimeApiActivity
  deriving Repr, DecidableEq

namespace Source

def all : List Source :=
  [runtimeDomain, hcclDomain, kernelActivity, hcclActivity, runtimeApiActivity]

/-- The `operation` of `check` when the source is switched on. -/
def label : Source → String
  | runtimeDomain      => "runtime_domain"
  | hcclDomain         => "hccl_domain"
  | kernelActivity     => "kernel_activity"
  | hcclActivity       => "hccl_activity"
  | runtimeApiActivity => "runtime_api_activity"

/-- The `operation` of `check` when the source is switched on or off. -/
def operation (src : Source) (enabled : Bool) : String :=
  if enabled then src.label else src.label ++ "_off"

/-- A callback domain belongs to the subscriber. -/
def isDomain : Source → Bool
  | runtimeDomain | hcclDomain => true
  | _ => false

end Source

/-! ### The state -/

/-- A `HANG_STATUS` record. -/
structure Status where
  code : UInt32
  name : String
  deriving Repr, DecidableEq

/-- The globals of the file, and what they manage. -/
structure State where
  /-- `g_header`, with the capacity it points to -/
  header : Option UInt64
  /-- `g_size` -/
  size : Nat
  /-- `g_fd` -/
  fd : Option Nat
  /-- `g_owner` -/
  owner : UInt32
  /-- `g_subscriber` -/
  subscriber : Option Nat
  /-- `g_enabled` -/
  enabled : Bool
  /-- `g_pool` -/
  pool : List (Option Nat)
  /-- the paths of the files -/
  files : List String
  /-- the open descriptors -/
  fds : List Nat
  /-- the mapped rings, by their sizes -/
  maps : List Nat
  /-- the allocated buffers -/
  heap : List Nat
  /-- the subscribers of msPTI -/
  subscribers : List Nat
  /-- the callback domains of the current subscriber and the activities -/
  on : Source → Bool
  /-- the status records, the last one at the end -/
  log : List Status

/-- `BUFFER_COUNT`. -/
def BUFFER_COUNT : Nat := 8

/-- A process that has not called `hang_mspti_start`. -/
def State.start (files : List String) (on : Source → Bool) : State where
  header := none
  size := 0
  fd := none
  owner := 0
  subscriber := none
  enabled := false
  pool := List.replicate BUFFER_COUNT none
  files := files
  fds := []
  maps := []
  heap := []
  subscribers := []
  on := on
  log := []

namespace State

/-- `record` of a status. `pid` is the answer of `getpid`. -/
def record (s : State) (pid : UInt32) (code : Int) (name : String) : State :=
  if s.header.isSome ∧ pid = s.owner then
    { s with log := s.log ++ [⟨UInt32.ofInt code, name⟩] }
  else s

/-- `check`. -/
def check (s : State) (pid : UInt32) (result : Int) (operation : String) : State × Int :=
  if result = 0 then (s, 0) else (s.record pid result operation, result)

/-! ### `set_enabled_locked` -/

/-- One call of `msptiEnableDomain`, `msptiActivityEnable` or `msptiActivityDisable`. -/
def switch (s : State) (src : Source) (enabled : Bool) (result : Int) : State :=
  if result = 0 then { s with on := Function.update s.on src enabled } else s

/-- The chain of the calls, up to the first one that fails. -/
def switchAll (pid : UInt32) (enabled : Bool) (answers : Source → Int) :
    List Source → State → State × Int
  | [], s => (s, 0)
  | src :: rest, s =>
      let result := answers src
      let (s, error) :=
        (s.switch src enabled result).check pid result (src.operation enabled)
      if error = 0 then switchAll pid enabled answers rest s else (s, error)

/-- `set_enabled_locked`. The result of `msptiActivityFlushAll` is not looked at. -/
def setEnabledLocked (s : State) (pid : UInt32) (enabled : Bool) (answers : Source → Int) :
    State × Int :=
  if enabled = s.enabled then (s, 0)
  else
    let (s, error) := switchAll pid enabled answers Source.all s
    if error = 0 then
      (({ s with enabled := enabled } : State).record pid 0
        (if enabled then "enabled" else "disabled"), 0)
    else (s, error)

/-! ### The mapping, the buffers and the subscriber -/

/-- `cleanup_map`. -/
def cleanupMap (s : State) : State :=
  { s with
    maps := if s.header.isSome then s.maps.erase s.size else s.maps
    fds := match s.fd with
      | some fd => s.fds.erase fd
      | none    => s.fds
    header := none
    fd := none
    size := 0
    owner := 0 }

/-- `unlink`. -/
def unlink (s : State) (path : String) : State := { s with files := s.files.erase path }

/-- The loop that fills the pool from entry `i` on. `memalign i` is the answer of
`posix_memalign` for the entry. Returns whether all entries are there. -/
def fillPool (s : State) (pid : UInt32) (memalign : Nat → Option Nat) (i : Nat) :
    (left : Nat) → State × Bool
  | 0 => (s, true)
  | left + 1 =>
      -- `g_pool[i]` is kept from an earlier start.
      if (s.pool.getD i none).isSome then s.fillPool pid memalign (i + 1) left
      else
        match memalign i with
        | some buffer =>
            ({ s with
                pool := s.pool.set i (some buffer)
                heap := s.heap ++ [buffer] } : State).fillPool pid memalign (i + 1) left
        | none =>
            -- The entries before this one are freed and set to null.
            let s := s.record pid ENOMEM "buffer_pool"
            ({ s with
              heap := s.heap.filter fun buffer => some buffer ∉ s.pool.take i
              pool := List.replicate i none ++ s.pool.drop i }, false)

/-- `msptiSubscribe`. A new subscriber has its callback domains off. -/
def subscribe (s : State) : Except MsptiError Nat → State
  | .ok subscriber =>
      { s with
        subscriber := some subscriber
        subscribers := s.subscribers ++ [subscriber]
        on := fun src => if src.isDomain then false else s.on src }
  | .error _ => s

/-- `msptiUnsubscribe`, if there is a subscriber. Its result is not looked at. -/
def unsubscribe (s : State) (result : Int) : State :=
  match s.subscriber with
  | some subscriber =>
      { s with
        subscriber := none
        subscribers := if result = 0 then s.subscribers.erase subscriber else s.subscribers }
  | none => s

end State

/-! ### The calls -/

/-- What the system and msPTI answer in a `hang_mspti_start` call. -/
structure StartAnswers where
  open_ : Except Errno Nat
  ftruncate : Except Errno Unit
  mmap : Except Errno Unit
  memalign : Nat → Option Nat
  subscribe : Except MsptiError Nat
  register : Int
  enable : Source → Int
  unsubscribe : Int

/-- The result of `msptiSubscribe`. -/
def StartAnswers.subscribed (answers : StartAnswers) : Int :=
  match answers.subscribe with
  | .ok _    => 0
  | .error e => e.result

/-- `SIZE_MAX`, `sizeof(Header)` and `sizeof(hang_event)`. -/
def SIZE_MAX : Nat := 2 ^ 64 - 1
def sizeofHeader : Nat := 128
def sizeofEvent : Nat := 192

namespace State

/-- `open` with `O_CREAT | O_EXCL`. -/
def openExcl (s : State) (path : String) (answer : Except Errno Nat) : State × Except Int Unit :=
  if path ∈ s.files then ({ s with fd := none }, .error EEXIST)
  else
    match answer with
    | .ok fd =>
        ({ s with fd := some fd, fds := s.fds ++ [fd], files := s.files ++ [path] }, .ok ())
    | .error e => ({ s with fd := none }, .error e.code)

/-- `mmap`, and the header of the ring. -/
def mapRing (s : State) (pid : UInt32) (capacity : UInt64) : State :=
  { s with header := some capacity, owner := pid, maps := s.maps ++ [s.size] }

/-- `hang_mspti_start` from `msptiSubscribe` on. -/
def subscribeAndEnable (s : State) (pid : UInt32) (answers : StartAnswers) : State × Int :=
  let (s, error) := (s.subscribe answers.subscribe).check pid answers.subscribed "subscribe"
  let (s, error) := if error = 0 then s.check pid answers.register "buffers" else (s, error)
  let (s, error) :=
    if error = 0 then s.setEnabledLocked pid true answers.enable else (s, error)
  -- This way out unmaps the ring. It does not unlink the file.
  if error ≠ 0 then ((s.unsubscribe answers.unsubscribe).cleanupMap, error) else (s, error)

/-- `hang_mspti_start` from the loop over the buffers on. -/
def fillAndSubscribe (s : State) (pid : UInt32) (answers : StartAnswers) : State × Int :=
  match s.fillPool pid answers.memalign 0 BUFFER_COUNT with
  -- Neither does this one.
  | (s, false) => (s.cleanupMap, ENOMEM)
  | (s, true)  => s.subscribeAndEnable pid answers

/-- `hang_mspti_start`. `pid` is the answer of `getpid`. -/
def hangMsptiStart (s : State) (pid : UInt32) (path : Option String) (capacity : UInt64)
    (answers : StartAnswers) : State × Int :=
  match path with
  | none => (s, EINVAL)
  | some path =>
      if capacity < 64 ∨ 2 ^ 24 < capacity ∨ s.header.isSome then (s, EINVAL)
      else if (SIZE_MAX - sizeofHeader) / sizeofEvent < capacity.toNat then (s, EOVERFLOW)
      else
        let s := { s with size := sizeofHeader + capacity.toNat * sizeofEvent }
        match s.openExcl path answers.open_ with
        | (s, .error e) => (s, e)
        | (s, .ok ()) =>
            match answers.ftruncate with
            -- `cleanup_map(); unlink(path);`
            | .error e => (s.cleanupMap.unlink path, e.code)
            | .ok () =>
                match answers.mmap with
                | .error e => (s.cleanupMap.unlink path, e.code)
                | .ok ()   => (s.mapRing pid capacity).fillAndSubscribe pid answers

/-- `hang_mspti_set_enabled`. -/
def hangMsptiSetEnabled (s : State) (pid : UInt32) (enabled : Bool) (answers : Source → Int) :
    State × Int :=
  if s.header.isNone ∨ pid ≠ s.owner then (s, EINVAL)
  else s.setEnabledLocked pid enabled answers

/-- `hang_mspti_stop`. -/
def hangMsptiStop (s : State) (pid : UInt32) (answers : Source → Int) (unsubscribe : Int) :
    State :=
  if s.header.isNone ∨ pid ≠ s.owner then s
  else ((s.setEnabledLocked pid false answers).1.unsubscribe unsubscribe).cleanupMap

end State

/-- A call, with what `getpid`, the system and msPTI answer in it. -/
inductive Action where
  | start (pid : UInt32) (path : Option String) (capacity : UInt64) (answers : StartAnswers)
  | setEnabled (pid : UInt32) (enabled : Bool) (answers : Source → Int)
  | stop (pid : UInt32) (answers : Source → Int) (unsubscribe : Int)

namespace State

/-- The state after a call, and what the call returns. -/
def call (s : State) : Action → State × Option Int
  | .start pid path capacity answers =>
      let (s, rc) := s.hangMsptiStart pid path capacity answers
      (s, some rc)
  | .setEnabled pid enabled answers =>
      let (s, rc) := s.hangMsptiSetEnabled pid enabled answers
      (s, some rc)
  | .stop pid answers unsubscribe => (s.hangMsptiStop pid answers unsubscribe, none)

def step (s : State) (a : Action) : Option State := some (s.call a).1

end State

end HangAnalyzer.Mspti.Switch
