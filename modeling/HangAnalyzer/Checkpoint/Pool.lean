import HangAnalyzer.Lib.Runs
import HangAnalyzer.Recorder.Ring

/-!
# `HangAnalyzer.Checkpoint.Pool`: the device checkpoint pool

The model of `src/flight_checkpoint.cpp`. A manager owns a fixed number of slots
for each registered stream, and each slot owns one device event. Any number of
`flight_checkpoint_submit` calls run at once. Of the `flight_checkpoint_poll`
calls one runs at a time, the one that holds the `polling` flag.

`State.step` executes one atomic step of one call: one access to the cursors, to
the shared words of a slot, to the backend or to the recorder. `SubmitCall.hold`
and `PollCall.hold` are the steps a call takes while a slot is its own. What a
call did is kept in `State.trace`, which no step reads.
-/

set_option autoImplicit false

namespace HangAnalyzer.Checkpoint

open HangAnalyzer.Lib
open HangAnalyzer.Recorder (Call)

/-! ### The manager -/

def ENOENT : Int := 2
def EIO : Int := 5
def EAGAIN : Int := 11
def EEXIST : Int := 17
def EINVAL : Int := 22

inductive SlotState where
  | free
  | reserved
  | pending
  | querying
  deriving Repr, DecidableEq

/-- What a poll observes of a checkpoint that is not complete. -/
inductive Mark where
  | notReady
  | queryError
  deriving Repr, DecidableEq

/-- `struct Slot`. -/
structure Slot where
  event : Nat
  state : SlotState
  generation : UInt64
  submittedSeq : UInt64
  checkpointId : UInt64
  queryErrorReportedGeneration : UInt64
  notReadyReportedGeneration : UInt64
  deriving Repr, DecidableEq

namespace Slot

/-- A new slot around an event. -/
def new (event : Nat) : Slot := ⟨event, .free, 0, 0, 0, 0, 0⟩

/-- The generation a mark was last reported for. -/
def reported (slot : Slot) : Mark → UInt64
  | .notReady   => slot.notReadyReportedGeneration
  | .queryError => slot.queryErrorReportedGeneration

/-- Remember that a mark was reported for a generation. -/
def setReported (slot : Slot) (mark : Mark) (gen : UInt64) : Slot :=
  match mark with
  | .notReady   => { slot with notReadyReportedGeneration := gen }
  | .queryError => { slot with queryErrorReportedGeneration := gen }

end Slot

/-- `struct Stream`. -/
structure Stream where
  id : UInt32
  handle : Nat
  slots : List Slot
  cursor : UInt32

/-- `struct flight_checkpoint_manager`, without the poller thread. -/
structure Manager where
  slotsPerStream : UInt32
  streams : List Stream
  polling : Bool
  pollCursor : UInt64

/-- A slot of the manager, by the positions of its stream and of the slot. -/
structure Place where
  stream : Nat
  slot : Nat
  deriving Repr, DecidableEq

namespace Manager

/-- The slot at a place. -/
def slot? (m : Manager) (p : Place) : Option Slot :=
  m.streams[p.stream]?.bind fun stream => stream.slots[p.slot]?

/-- Change the slot at a place. -/
def modifySlot (m : Manager) (p : Place) (f : Slot → Slot) : Manager :=
  { m with streams := m.streams.modify p.stream fun stream =>
      { stream with slots := stream.slots.modify p.slot f } }

/-- `find_stream`, as a position. -/
def findStream (m : Manager) (id : UInt32) : Option Nat :=
  m.streams.findIdx? fun stream => stream.id = id

/-- The id of the stream at a position. -/
def streamId? (m : Manager) (i : Nat) : Option UInt32 := m.streams[i]?.map Stream.id

/-- `cursor.fetch_add(1)`. -/
def bumpCursor (m : Manager) (i : Nat) : Manager :=
  { m with streams := m.streams.modify i fun stream =>
      { stream with cursor := stream.cursor + 1 } }

/-- The number of slots of all streams. -/
def total (m : Manager) : Nat := m.streams.length * m.slotsPerStream.toNat

/-- The place of a position in the poll order. -/
def placeOf (m : Manager) (flat : Nat) : Place :=
  ⟨flat / m.slotsPerStream.toNat, flat % m.slotsPerStream.toNat⟩

end Manager

/-- `flight_checkpoint_create` with a complete backend. -/
def flightCheckpointCreate (slotsPerStream : UInt32) : Option Manager :=
  if slotsPerStream = 0 ∨ 1024 < slotsPerStream then none
  else some { slotsPerStream, streams := [], polling := false, pollCursor := 0 }

/-- The loop of `backend.create` calls: the events, or the error with the events
made before it. -/
def createEvents (create : Nat → Except Int Nat) :
    (count : Nat) → (events : List Nat) → Except (Int × List Nat) (List Nat)
  | 0, events => .ok events
  | count + 1, events =>
      match create events.length with
      | .ok event => createEvents create count (events ++ [event])
      | .error rc => .error (rc, events)

/-- A positive error code of the backend, or `EIO`. -/
def errorCode (rc : Int) : Int := if 0 < rc then rc else EIO

/-- `flight_checkpoint_register_stream`: the manager, the returned code and the
events given to `backend.destroy`. `create i` is the answer to the `i`-th
`backend.create`. -/
def flightCheckpointRegisterStream (m : Manager) (streamId : UInt32) (handle : Nat)
    (create : Nat → Except Int Nat) : Manager × Int × List Nat :=
  if (m.findStream streamId).isSome then (m, EEXIST, [])
  else
    match createEvents create m.slotsPerStream.toNat [] with
    | .ok events =>
        ({ m with streams := m.streams ++ [⟨streamId, handle, events.map Slot.new, 0⟩] }, 0, [])
    | .error (rc, events) => (m, errorCode rc, events)

/-! ### What the calls do -/

/-- What a checkpoint record says: the stream, the ids of the caller and the
generation of the slot. -/
structure Stamp where
  stream : UInt32
  checkpointId : UInt64
  submittedSeq : UInt64
  generation : UInt64
  deriving Repr, DecidableEq

/-- One step of a call at a slot that it holds. `call` is the number of a submit
call. -/
inductive Access where
  | reserve (call : Nat)
  | number (call : Nat)
  | fill (call : Nat) (submittedSeq checkpointId : UInt64)
  | enqueue (call : Nat) (rc : Int)
  | submitted (call : Nat) (stamp : Stamp)
  | publish (call : Nat)
  | acquire
  | load
  | query (rc : Int)
  | observed (mark : Mark) (stamp : Stamp)
  | withdraw
  | confirmed (stamp : Stamp)
  | release
  deriving Repr, DecidableEq

/-- An entry of the trace: a step at a slot, the report that a stream's pool is
full, a record of somebody else, or a poll that returned. -/
inductive Entry where
  | access (p : Place) (a : Access)
  | poolFull (stamp : Stamp)
  | host (c : Call)
  | polled (completed : Nat)
  deriving Repr, DecidableEq

/-- The next step of a `flight_checkpoint_submit` call. From `number` on, the call
holds the slot with the given position. -/
inductive SubmitPc where
  | scan (start : UInt32) (n : Nat)
  | number (slot : Nat)
  | fill (slot : Nat) (gen : UInt64)
  | enqueue (slot : Nat) (gen : UInt64)
  | release (slot : Nat) (rc : Int)
  | report (slot : Nat) (gen : UInt64)
  | publish (slot : Nat) (gen : UInt64)
  | done (rc : Int) (gen : Option UInt64)
  deriving Repr, DecidableEq

/-- A `flight_checkpoint_submit` call: its arguments, the position of its stream
and its next step. -/
structure SubmitCall where
  streamId : UInt32
  submittedSeq : UInt64
  checkpointId : UInt64
  stream : Nat
  pc : SubmitPc
  deriving Repr, DecidableEq

/-- The next step of the `flight_checkpoint_poll` call that holds the flag. -/
inductive PollPc where
  | scan
  | load (p : Place)
  | query (p : Place) (gen : UInt64)
  | confirm (p : Place) (gen : UInt64)
  | release (p : Place)
  | observe (p : Place) (mark : Mark) (gen : UInt64)
  | withdraw (p : Place)
  deriving Repr, DecidableEq

/-- The `flight_checkpoint_poll` call that holds the flag, with its variables. -/
structure PollCall where
  budget : UInt32
  start : UInt64
  offset : Nat
  checked : Nat
  completed : Nat
  pc : PollPc
  deriving Repr, DecidableEq

/-- The manager, the submit calls in the order of their start, the poll call, and
the trace. -/
structure State where
  manager : Manager
  submits : List SubmitCall
  poll : Option PollCall
  trace : List Entry

/-! ### `flight_checkpoint_submit` -/

namespace SubmitCall

/-- The place a call holds. -/
def place (call : SubmitCall) : Option Place :=
  match call.pc with
  | .scan .. | .done .. => none
  | .number i | .fill i _ | .enqueue i _ | .release i _ | .report i _ | .publish i _ =>
      some ⟨call.stream, i⟩

/-- The stamp of the call's records. -/
def stamp (call : SubmitCall) (gen : UInt64) : Stamp :=
  ⟨call.streamId, call.checkpointId, call.submittedSeq, gen⟩

/-- The step of call `k` at the slot it holds: the slot after it, what it does,
and the next step. `rc` is the answer of `backend.record`. -/
def hold (k : Nat) (call : SubmitCall) (slot : Slot) (rc : Int) :
    Option (Slot × Access × SubmitPc) :=
  match call.pc with
  | .scan .. | .done .. => none
  -- `gen = chosen->generation.fetch_add(1) + 1`
  | .number i =>
      some ({ slot with generation := slot.generation + 1 }, .number k,
        .fill i (slot.generation + 1))
  -- The two plain stores, which the poll call reads later.
  | .fill i gen =>
      some ({ slot with submittedSeq := call.submittedSeq, checkpointId := call.checkpointId },
        .fill k call.submittedSeq call.checkpointId, .enqueue i gen)
  -- `backend.record`
  | .enqueue i gen =>
      some (slot, .enqueue k rc, if rc = 0 then .report i gen else .release i rc)
  -- The event was not enqueued: the slot goes back, with no record.
  | .release _ rc => some ({ slot with state := .free }, .release, .done (errorCode rc) none)
  -- `flight_record` comes before the store of `PENDING`.
  | .report i gen => some (slot, .submitted k (call.stamp gen), .publish i gen)
  | .publish _ gen => some ({ slot with state := .pending }, .publish k, .done 0 (some gen))

end SubmitCall

namespace State

/-- One step at a slot: the slot changes and the trace gets an entry. -/
def access (s : State) (p : Place) (slot : Slot) (a : Access) : State :=
  { s with
    manager := s.manager.modifySlot p fun _ => slot
    trace := s.trace ++ [.access p a] }

/-- Replace a submit call. -/
def setSubmit (s : State) (k : Nat) (call : SubmitCall) : State :=
  { s with submits := s.submits.set k call }

/-- `flight_checkpoint_submit` up to `cursor.fetch_add`. The checks before it
return `EINVAL` or `ENOENT` and change nothing. -/
def submit (s : State) (streamId : UInt32) (submittedSeq checkpointId : UInt64) :
    Except Int State :=
  if submittedSeq = 0 then .error EINVAL
  else
    match s.manager.findStream streamId with
    | none => .error ENOENT
    | some i =>
        -- `cursor.fetch_add(1)` returns the cursor before the addition.
        let start := ((s.manager.streams[i]?.map Stream.cursor).getD 0)
        .ok { s with
          manager := s.manager.bumpCursor i
          submits := s.submits ++ [⟨streamId, submittedSeq, checkpointId, i, .scan start 0⟩] }

/-- The slot the scan of a submit call tries after `n` others. -/
def candidate (s : State) (call : SubmitCall) (start : UInt32) (n : Nat) : Place :=
  ⟨call.stream, ((start + UInt32.ofNat n) % s.manager.slotsPerStream).toNat⟩

/-- The next step of submit call `k`. -/
def advance (s : State) (k : Nat) (rc : Int) : Option State :=
  s.submits[k]?.bind fun call =>
    match call.pc with
    | .scan start n =>
        if n < s.manager.slotsPerStream.toNat then
          let p := s.candidate call start n
          (s.manager.slot? p).map fun slot =>
            -- `compare_exchange_strong(FREE, RESERVED)`
            if slot.state = .free then
              (s.access p { slot with state := .reserved } (.reserve k)).setSubmit k
                { call with pc := .number p.slot }
            else s.setSubmit k { call with pc := .scan start (n + 1) }
        else
          -- `!chosen`: the loop has tried every slot of the stream.
          some { s with
            submits := s.submits.set k { call with pc := .done EAGAIN none }
            trace := s.trace ++ [.poolFull (call.stamp 0)] }
    -- The call holds its slot until it returns.
    | _ =>
        call.place.bind fun p => (s.manager.slot? p).bind fun slot =>
          (call.hold k slot rc).map fun (slot', a, pc) =>
            (s.access p slot' a).setSubmit k { call with pc }

end State

/-! ### `flight_checkpoint_poll` -/

namespace PollCall

/-- The place the call holds. -/
def place (call : PollCall) : Option Place :=
  match call.pc with
  | .scan => none
  | .load p | .query p _ | .confirm p _ | .release p | .observe p _ _ | .withdraw p => some p

/-- The next step after `backend.query`. -/
def answer (p : Place) (gen : UInt64) (rc : Int) : PollPc :=
  if rc = 1 then .confirm p gen
  else if rc = 0 then .observe p .notReady gen
  else .observe p .queryError gen

/-- The stamp of a record about a slot of the stream `id`. -/
def stamp (id : UInt32) (slot : Slot) (gen : UInt64) : Stamp :=
  ⟨id, slot.checkpointId, slot.submittedSeq, gen⟩

/-- Go on with the next slot. -/
def next (call : PollCall) : PollCall := { call with offset := call.offset + 1, pc := .scan }

/-- The step of the poll call at the slot it holds, in the stream `id`: the slot
after it, what it does, and the call after it. `rc` is the answer of
`backend.query`. -/
def hold (id : UInt32) (call : PollCall) (slot : Slot) (rc : Int) :
    Option (Slot × Option Access × PollCall) :=
  match call.pc with
  | .scan => none
  -- `generation.load`, which the records and the guards of this visit use.
  | .load p => some (slot, some .load, { call with pc := .query p slot.generation })
  | .query p gen => some (slot, some (.query rc), { call with pc := answer p gen rc })
  -- The exact generation is recorded before the slot can be reused.
  | .confirm p gen =>
      some (slot, some (.confirmed (stamp id slot gen)), { call with pc := .release p })
  | .release _ =>
      some ({ slot with state := .free }, some .release,
        { call.next with completed := call.completed + 1 })
  | .observe p mark gen =>
      -- One record of a mark for each generation.
      if slot.reported mark ≠ gen then
        some (slot.setReported mark gen, some (.observed mark (stamp id slot gen)),
          { call with pc := .withdraw p })
      else some (slot, none, { call with pc := .withdraw p })
  | .withdraw _ => some ({ slot with state := .pending }, some .withdraw, call.next)

end PollCall

namespace State

/-- Replace the poll call. -/
def setPoll (s : State) (call : Option PollCall) : State := { s with poll := call }

/-- `flight_checkpoint_poll` up to `poll_cursor.fetch_add`. A call without budget,
one that finds the flag set, and one without slots return zero. -/
def startPoll (s : State) (budget : UInt32) : State :=
  -- The flag is tested after the budget and before the slots are counted.
  if budget = 0 ∨ s.manager.polling ∨ s.manager.total = 0 then
    { s with trace := s.trace ++ [.polled 0] }
  else
    { s with
      manager := { s.manager with
        polling := true
        pollCursor := s.manager.pollCursor + budget.toUInt64 }
      poll := some ⟨budget, s.manager.pollCursor, 0, 0, 0, .scan⟩ }

/-- The slot the poll call tries next. -/
def target (s : State) (call : PollCall) : Place :=
  s.manager.placeOf ((call.start + UInt64.ofNat call.offset).toNat % s.manager.total)

/-- The next step of the poll call. -/
def advancePoll (s : State) (rc : Int) : Option State :=
  s.poll.bind fun call =>
    match call.pc with
    | .scan =>
        if call.offset < s.manager.total ∧ call.checked < call.budget.toNat then
          let p := s.target call
          (s.manager.slot? p).map fun slot =>
            -- `compare_exchange_strong(PENDING, QUERYING)`
            if slot.state = .pending then
              (s.access p { slot with state := .querying } .acquire).setPoll
                (some { call with checked := call.checked + 1, pc := .load p })
            else s.setPoll (some call.next)
        else
          -- `polling.clear`, and the call returns `completed`.
          some { s with
            manager := { s.manager with polling := false }
            poll := none
            trace := s.trace ++ [.polled call.completed] }
    | _ =>
        call.place.bind fun p => (s.manager.slot? p).bind fun slot =>
          (s.manager.streamId? p.stream).bind fun id =>
            (call.hold id slot rc).map fun (slot', a, call') =>
              match a with
              | some a => (s.access p slot' a).setPoll (some call')
              | none   => s.setPoll (some call')

end State

/-! ### The machine -/

/-- One atomic action: a submit or poll call starts, submit call `k` or the poll
call makes its next step, or somebody else records. `rc` is what the backend
answers, if the step asks it. -/
inductive Action where
  | submit (streamId : UInt32) (submittedSeq checkpointId : UInt64)
  | advance (k : Nat) (rc : Int)
  | poll (budget : UInt32)
  | advancePoll (rc : Int)
  | host (c : Call)
  deriving Repr, DecidableEq

namespace State

/-- The state after an action. -/
def step (s : State) : Action → Option State
  | .submit id seq checkpoint =>
      match s.submit id seq checkpoint with
      | .ok s'   => some s'
      | .error _ => some s
  | .advance k rc   => s.advance k rc
  | .poll budget    => some (s.startPoll budget)
  | .advancePoll rc => s.advancePoll rc
  | .host c         => some { s with trace := s.trace ++ [.host c] }

/-- The state before any call. -/
def start (m : Manager) : State := ⟨m, [], none, []⟩

end State

/-! ### A call on its own -/

/-- The positions that a scan of `slotsPerStream` slots tries, in order. -/
def scanOrder (slotsPerStream start : UInt32) : List Nat :=
  (List.range slotsPerStream.toNat).map fun n =>
    ((start + UInt32.ofNat n) % slotsPerStream).toNat

namespace State

/-- Submit call `k` makes its steps, and nobody else does, until it returns. -/
def finish (k : Nat) (rc : Int) : (fuel : Nat) → State → Option State
  | 0, _ => none
  | fuel + 1, s =>
      match s.submits[k]?.map SubmitCall.pc with
      | none => none
      | some (.done _ _) => some s
      | some _ => (s.advance k rc).bind (finish k rc fuel)

/-- `flight_checkpoint_submit` that runs on its own, with the answer `rc` of
`backend.record`. There are at most `slotsPerStream + 5` steps to make. -/
def flightCheckpointSubmit (s : State) (streamId : UInt32) (submittedSeq checkpointId : UInt64)
    (rc : Int) : Except Int (Option State) := do
  let s' ← s.submit streamId submittedSeq checkpointId
  return s'.finish s.submits.length rc (s.manager.slotsPerStream.toNat + 6)

end State

/-- The accesses at a place in a trace, in order. -/
def accessesAt (trace : List Entry) (p : Place) : List Access :=
  trace.filterMap fun
    | .access q a => if q = p then some a else none
    | _           => none

/-- The submit call that an access belongs to. -/
def Access.call? : Access → Option Nat
  | reserve k | number k | fill k _ _ | enqueue k _ | submitted k _ | publish k => some k
  | _ => none

/-- The accesses of a submit call in a trace, with their places. -/
def accessesBy (trace : List Entry) (k : Nat) : List (Place × Access) :=
  trace.filterMap fun
    | .access p a => if a.call? = some k then some (p, a) else none
    | _           => none

namespace State

/-- What happened at a place. -/
def accesses (s : State) (p : Place) : List Access := accessesAt s.trace p

end State

/-! ### The records -/

/-- The arguments of a `flight_record` call. -/
structure Record where
  type : UInt16
  stream : UInt32
  correlation : UInt64
  arg0 : UInt64
  arg1 : UInt64
  flags : UInt16
  deriving Repr, DecidableEq

def FL_CHECKPOINT : UInt16 := 23
def FL_DEVICE_CONFIRMED : UInt16 := 24
def FL_CHECKPOINT_SUBMITTED : UInt16 := 1
def FL_CHECKPOINT_POOL_FULL : UInt16 := 2
def FL_CHECKPOINT_QUERY_ERROR : UInt16 := 4
def FL_CHECKPOINT_NOT_READY : UInt16 := 8

/-- The record of a stamp. -/
def Stamp.record (stamp : Stamp) (type flags : UInt16) : Record :=
  ⟨type, stamp.stream, stamp.checkpointId, stamp.submittedSeq, stamp.generation, flags⟩

/-- The flag of a mark. -/
def Mark.flag : Mark → UInt16
  | notReady   => FL_CHECKPOINT_NOT_READY
  | queryError => FL_CHECKPOINT_QUERY_ERROR

/-- The record a step writes. -/
def Access.record? : Access → Option Record
  | submitted _ stamp   => some (stamp.record FL_CHECKPOINT FL_CHECKPOINT_SUBMITTED)
  | observed mark stamp => some (stamp.record FL_CHECKPOINT mark.flag)
  | confirmed stamp     => some (stamp.record FL_DEVICE_CONFIRMED 0)
  | _                   => none

/-- The record of somebody else's call. -/
def Record.ofCall (c : Call) : Record :=
  ⟨c.type, c.stream, c.correlation, c.arg0, c.arg1, c.flags⟩

/-- The record an entry stands for. -/
def Entry.record? : Entry → Option Record
  | access _ a     => a.record?
  | poolFull stamp => some (stamp.record FL_CHECKPOINT FL_CHECKPOINT_POOL_FULL)
  | host c         => some (Record.ofCall c)
  | polled _       => none

end HangAnalyzer.Checkpoint
