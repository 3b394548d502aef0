import HangAnalyzer.Lib.Runs
import HangAnalyzer.Mspti.Ring
import HangAnalyzer.Mspti.Switch

/-!
# `HangAnalyzer.Mspti.Buffers`: the buffers of activity records

The model of `buffer_request`, `buffer_complete` and `callback` in `src/hang_mspti.cpp`.
msPTI asks for a buffer, fills it with activity records and gives it back, on any of its
threads. `g_pool_busy` says which of the eight buffers are out. A `hang_mspti_start` after a
`hang_mspti_stop` keeps the buffers and clears the flags.

`State.step` executes one atomic step of one call: one compare-exchange or store of a flag,
one addition to a counter, or the reading of one activity up to the claim of its `record`
call. The stores that follow a claim are in `HangAnalyzer.Mspti.Recording`. What msPTI does
with the buffers it has is its own affair: it writes into them and gives them back when it
wants.
-/

set_option autoImplicit false

namespace HangAnalyzer.Mspti.Buffers

open HangAnalyzer.Lib
open HangAnalyzer.Mspti.Switch (BUFFER_COUNT)

/-! ### What is recorded -/

/-- `UINT32_MAX`, for a record that has no device and no stream. -/
def UINT32_MAX : UInt32 := 0xFFFFFFFF

/-- An activity record, with the fields that `buffer_complete` reads. -/
inductive Activity where
  | kernel (deviceId streamId : UInt32) (correlationId start stop : UInt64)
      (name type : Option CString)
  | hccl (deviceId streamId : UInt32) (start stop : UInt64) (name commName : Option CString)
  | runtimeApi (threadId : UInt32) (correlationId start stop : UInt64) (name : Option CString)
  | other

/-- The `record` call for an activity, if there is one. -/
def Activity.call (observedNs : UInt64) (tid : UInt32) : Activity → Option Call
  | kernel deviceId streamId correlationId start stop name type =>
      some ⟨5, deviceId, streamId, correlationId, start, stop, 0, name, type, observedNs, tid⟩
  | hccl deviceId streamId start stop name commName =>
      some ⟨6, deviceId, streamId, 0, start, stop, 0, name, commName, observedNs, tid⟩
  | runtimeApi threadId correlationId start stop name =>
      some ⟨8, UINT32_MAX, UINT32_MAX, correlationId, start, stop, threadId, name, none,
        observedNs, tid⟩
  | other => none

/-- The domain of a callback. -/
inductive CallbackDomain where
  | runtime
  | hccl
  | other

/-- `msptiCallbackData`, as far as `callback` reads it. -/
structure CallbackData where
  /-- `callbackSite == MSPTI_API_ENTER` -/
  enter : Bool
  correlationId : UInt64
  functionName : Option CString

/-- `callback`: its `record` call, if there is one. -/
def callback (domain : CallbackDomain) (cbid : UInt32) (data : Option CallbackData)
    (observedNs : UInt64) (tid : UInt32) : Option Call :=
  data.bind fun data =>
    let call (kind : UInt16) : Call :=
      ⟨kind, UINT32_MAX, UINT32_MAX, data.correlationId, 0, 0, cbid, data.functionName, none,
        observedNs, tid⟩
    match domain with
    | .runtime => some (call (if data.enter then 1 else 2))
    | .hccl    => some (call (if data.enter then 3 else 4))
    | .other   => none

/-- The `record` call of `check`, and of `set_enabled_locked` at its end. -/
def statusCall (code : UInt32) (name : CString) (observedNs : UInt64) (tid : UInt32) : Call :=
  ⟨7, UINT32_MAX, UINT32_MAX, 0, 0, 0, code, some name, none, observedNs, tid⟩

/-! ### The state -/

/-- `g_pool` after a start that returned zero: eight buffers from `posix_memalign`. -/
structure Pool where
  entries : List Nat
  length_eq : entries.length = BUFFER_COUNT
  nodup : entries.Nodup

/-- Where a `buffer_request` call is. -/
inductive RequestPc where
  /-- the compare-exchange of entry `i` is next -/
  | attempt (i : Nat)
  /-- the flag of entry `i` is set, and the call returns its buffer -/
  | claimed (i : Nat)
  /-- no entry was free -/
  | refused
  | done (buffer : Option Nat)
  deriving Repr, DecidableEq

/-- Where a `buffer_complete` call is. -/
inductive CompletionPc where
  /-- the record at a position is next -/
  | reading (pos : Nat)
  /-- the comparison with entry `i` is next -/
  | release (i : Nat)
  | done
  deriving Repr, DecidableEq

/-- A `buffer_complete` call. `records` is what the buffer held when msPTI gave it back.
No step reads it. -/
structure Completion where
  buffer : Option Nat
  valid : Nat
  pc : CompletionPc
  records : List Activity

/-- The globals, the calls, and what msPTI has. -/
structure State where
  /-- `g_header` is set -/
  mapped : Bool
  /-- the entry whose flag a running `hang_mspti_start` clears next -/
  reset : Nat
  /-- `g_pool_busy` -/
  busy : List Bool
  /-- `g_header->dropped` -/
  dropped : UInt64
  requests : List RequestPc
  completions : List Completion
  /-- the buffers that msPTI has -/
  given : List Nat
  contents : Nat → List Activity
  /-- the `record` calls on the mapped file in the order of their claims, each with the
  `buffer_complete` call it is from -/
  recorded : List (Option Nat × Call)

/-- A process whose first `hang_mspti_start` has filled the pool. -/
def State.start (contents : Nat → List Activity) : State where
  mapped := true
  reset := BUFFER_COUNT
  busy := List.replicate BUFFER_COUNT false
  dropped := 0
  requests := []
  completions := []
  given := []
  contents := contents
  recorded := []

inductive Action where
  /-- msPTI calls `buffer_request` -/
  | request
  /-- one step of a `buffer_request` call -/
  | advanceRequest (k : Nat)
  /-- msPTI writes into a buffer that it has -/
  | write (buffer : Nat) (records : List Activity)
  /-- msPTI calls `buffer_complete`, with the number of its valid records -/
  | complete (buffer : Option Nat) (valid : Nat)
  /-- one step of a `buffer_complete` call -/
  | advanceCompletion (k : Nat) (observedNs : UInt64) (tid : UInt32)
  /-- msPTI calls `callback` -/
  | callback (domain : CallbackDomain) (cbid : UInt32) (data : Option CallbackData)
      (observedNs : UInt64) (tid : UInt32)
  /-- a status is recorded -/
  | status (code : UInt32) (name : CString) (observedNs : UInt64) (tid : UInt32)
  /-- `hang_mspti_stop` unmaps the file -/
  | stop
  /-- `hang_mspti_start` maps a new file -/
  | restart
  /-- `hang_mspti_start` clears the next flag -/
  | clear

namespace State

/-- `record` up to its claim: without a header it returns at once. -/
def record (s : State) (source : Option Nat) (call : Option Call) : State :=
  { s with
    recorded := if s.mapped then s.recorded ++ call.toList.map (source, ·) else s.recorded }

/-- One step of `buffer_request`. -/
def requestStep (pool : Pool) (s : State) : RequestPc → Option (State × RequestPc)
  | .attempt i =>
      match s.busy[i]? with
      | some false => some ({ s with busy := s.busy.set i true }, .claimed i)
      | some true  => some (s, .attempt (i + 1))
      | none       => some (s, .refused)
  | .claimed i =>
      pool.entries[i]?.map fun buffer =>
        ({ s with given := s.given ++ [buffer] }, .done (some buffer))
  | .refused =>
      some ({ s with dropped := if s.mapped then s.dropped + 1 else s.dropped }, .done none)
  | .done _ => none

/-- The records that `msptiActivityGetNextRecord` walks over. -/
def validRecords (s : State) (buffer : Option Nat) (valid : Nat) : List Activity :=
  match buffer with
  | some buffer => (s.contents buffer).take valid
  | none        => []

/-- One step of `buffer_complete`. -/
def completionStep (pool : Pool) (s : State) (k : Nat) (c : Completion) (observedNs : UInt64)
    (tid : UInt32) : Option (State × CompletionPc) :=
  match c.pc with
  | .reading pos =>
      match (s.validRecords c.buffer c.valid)[pos]? with
      | some a => some (s.record (some k) (a.call observedNs tid), .reading (pos + 1))
      | none   => some (s, .release 0)
  | .release i =>
      match pool.entries[i]? with
      | some entry =>
          if c.buffer = some entry then some ({ s with busy := s.busy.set i false }, .done)
          else some (s, .release (i + 1))
      | none => some (s, .done)
  | .done => none

/-- One step of the process or of msPTI. -/
def step (pool : Pool) (s : State) : Action → Option State
  | .request => some { s with requests := s.requests ++ [.attempt 0] }
  | .advanceRequest k =>
      s.requests[k]?.bind fun pc =>
        (s.requestStep pool pc).map fun (t, pc) => { t with requests := s.requests.set k pc }
  | .write buffer records =>
      if buffer ∈ s.given then
        some { s with contents := Function.update s.contents buffer records }
      else none
  | .complete buffer valid =>
      if ∀ b ∈ buffer, b ∈ s.given then
        let records := s.validRecords buffer valid
        -- `valid && buffer`
        let pc := if valid ≠ 0 ∧ buffer.isSome then .reading 0 else .release 0
        some { s with
          given := buffer.elim s.given s.given.erase
          completions := s.completions ++ [⟨buffer, valid, pc, records⟩] }
      else none
  | .advanceCompletion k observedNs tid =>
      s.completions[k]?.bind fun c =>
        (s.completionStep pool k c observedNs tid).map fun (t, pc) =>
          { t with completions := s.completions.set k { c with pc } }
  | .callback domain cbid data observedNs tid =>
      some (s.record none (Buffers.callback domain cbid data observedNs tid))
  | .status code name observedNs tid =>
      some (s.record none (some (statusCall code name observedNs tid)))
  | .stop => if s.mapped ∧ s.reset = BUFFER_COUNT then some { s with mapped := false } else none
  | .restart =>
      if s.mapped then none
      else some { s with mapped := true, reset := 0, dropped := 0, recorded := [] }
  | .clear =>
      if s.reset < BUFFER_COUNT then
        some { s with busy := s.busy.set s.reset false, reset := s.reset + 1 }
      else none

end State

end HangAnalyzer.Mspti.Buffers
