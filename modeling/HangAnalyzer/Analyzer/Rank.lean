import HangAnalyzer.Lib.OrderedDict
import HangAnalyzer.Recorder.Format

/-!
# `HangAnalyzer.Analyzer.Rank`: the evidence of one rank

The model of the first loop of `analyze` in `flightrecorder/analyzer.py`.
`scanEvent` is the body of the loop over a rank's events, and `Scan` its
variables. Three of them, `groups`, `eventProducers` and `waits`, are shared by
all ranks. `checkpointProgress` and `rankReport` compute the rank's section of
the report from what the loop collected.
-/

set_option autoImplicit false

namespace HangAnalyzer.Analyzer

open HangAnalyzer.Lib
open HangAnalyzer.Recorder (EventType Event Snapshot sortBySeq)

/-! ### Event types -/

def CHECKPOINT_SUBMITTED : Nat := 1
def CHECKPOINT_POOL_FULL : Nat := 2
def CHECKPOINT_QUERY_ERROR : Nat := 4
def CHECKPOINT_NOT_READY : Nat := 8

/-- `PAIRS`. -/
def PAIRS : List (EventType × EventType) :=
  [(.requestBegin, .requestEnd), (.schedulerBegin, .schedulerEnd), (.modelBegin, .modelEnd),
    (.graphBegin, .graphEnd), (.kvBegin, .kvEnd), (.ppSendBegin, .ppSendEnd),
    (.ppRecvBegin, .ppRecvEnd), (.hcclBegin, .hcclEnd), (.streamSyncBegin, .streamSyncEnd),
    (.deviceSyncBegin, .deviceSyncEnd)]

/-- `typ in PAIRS`. -/
def opens (t : EventType) : Bool := PAIRS.any fun p => p.1 = t

/-- For a type whose name ends in `_END`, the type with `_BEGIN` in its place. -/
def beginOf : EventType → Option EventType
  | .requestEnd    => some .requestBegin
  | .schedulerEnd  => some .schedulerBegin
  | .modelEnd      => some .modelBegin
  | .graphEnd      => some .graphBegin
  | .kvEnd         => some .kvBegin
  | .ppSendEnd     => some .ppSendBegin
  | .ppRecvEnd     => some .ppRecvBegin
  | .hcclEnd       => some .hcclBegin
  | .streamSyncEnd => some .streamSyncBegin
  | .deviceSyncEnd => some .deviceSyncBegin
  | _              => none

/-- `e["flags"] & mask`, as a condition. -/
def hasFlag (e : Event) (mask : Nat) : Bool := e.flags &&& mask != 0

/-! ### The loop over the events -/

/-- The key of an open host scope: its type, correlation id and stream. -/
abbrev ScopeKey := EventType × Nat × Nat

/-- The variables of the loop. -/
structure Scan where
  pending : Dict ScopeKey Event
  groups : Dict (Nat × Nat) (Dict Nat Event)
  eventProducers : Dict (Nat × Nat) Event
  waits : List Event
  confirmed : List Event
  checkpointSubmitted : List Event
  checkpointWarnings : List Event
  notReadyObservations : List Event

namespace Scan

/-- The variables before the first rank. -/
def init : Scan where
  pending := .empty
  groups := .empty
  eventProducers := .empty
  waits := []
  confirmed := []
  checkpointSubmitted := []
  checkpointWarnings := []
  notReadyObservations := []

/-- The variables before the events of the next rank: what is local to a rank
starts over. -/
def nextRank (s : Scan) : Scan :=
  { init with groups := s.groups, eventProducers := s.eventProducers, waits := s.waits }

end Scan

/-- Append under a condition. -/
def appendIf (c : Bool) (l : List Event) (e : Event) : List Event := if c then l ++ [e] else l

/-- The open scopes after an event: a begin opens its scope, an end closes it. -/
def scanPending (pending : Dict ScopeKey Event) (e : Event) : Dict ScopeKey Event :=
  if opens e.type then pending.set (e.type, e.correlationId, e.stream) e
  else
    match beginOf e.type with
    | some begin => pending.pop (begin, e.correlationId, e.stream)
    | none       => pending

/-- The collectives after an event: `groups[(e["arg0"], corr)][rank] = e`. -/
def scanGroups (rank : Nat) (groups : Dict (Nat × Nat) (Dict Nat Event)) (e : Event) :
    Dict (Nat × Nat) (Dict Nat Event) :=
  if e.type = .hcclBegin then
    groups.update (e.arg0, e.correlationId) .empty fun entered => entered.set rank e
  else groups

/-- The producers after an event: `event_producers[(rank, corr)] = e`. -/
def scanProducers (rank : Nat) (producers : Dict (Nat × Nat) Event) (e : Event) :
    Dict (Nat × Nat) Event :=
  if e.type = .eventRecord then producers.set (rank, e.correlationId) e else producers

/-- The body of the loop over the events of `rank`. -/
def scanEvent (rank : Nat) (s : Scan) (e : Event) : Scan where
  pending := scanPending s.pending e
  groups := scanGroups rank s.groups e
  eventProducers := scanProducers rank s.eventProducers e
  waits := appendIf (e.type = .eventWait) s.waits e
  confirmed := appendIf (e.type = .deviceConfirmed) s.confirmed e
  checkpointSubmitted :=
    appendIf (e.type = .checkpoint && hasFlag e CHECKPOINT_SUBMITTED) s.checkpointSubmitted e
  checkpointWarnings :=
    appendIf (e.type = .checkpoint &&
      hasFlag e (CHECKPOINT_POOL_FULL ||| CHECKPOINT_QUERY_ERROR)) s.checkpointWarnings e
  notReadyObservations :=
    appendIf (e.type = .checkpoint && hasFlag e CHECKPOINT_NOT_READY) s.notReadyObservations e

/-- The loop over the events of one rank. -/
def scanRank (s : Scan) (rank : Nat) (events : List Event) : Scan :=
  events.foldl (scanEvent rank) s.nextRank

/-! ### Checkpoint progress -/

/-- What identifies a checkpoint: stream, checkpoint id, submitted sequence number
and generation. -/
structure CheckpointKey where
  stream : Nat
  checkpointId : Nat
  submittedSeq : Nat
  generation : Nat
  deriving Repr, DecidableEq

/-- The key of a `CHECKPOINT` or `DEVICE_CONFIRMED` event. -/
def checkpointKey (e : Event) : CheckpointKey :=
  ⟨e.stream, e.correlationId, e.arg0, e.arg1⟩

inductive Status where
  | confirmedExact
  | confirmedByLaterCheckpoint
  | unconfirmed
  deriving Repr, DecidableEq

/-- The string of a status in the report. -/
def Status.label : Status → String
  | confirmedExact             => "confirmed_exact"
  | confirmedByLaterCheckpoint => "confirmed_by_later_checkpoint"
  | unconfirmed                => "unconfirmed"

/-- An entry of `checkpoint_mappings`. -/
structure Mapping where
  submittedSeq : Nat
  checkpointId : Nat
  generation : Nat
  status : Status
  confirmationRecordSeq : Option Nat
  deriving Repr, DecidableEq

/-- The progress of one stream. -/
structure Progress where
  submittedCount : Nat
  explicitlyConfirmedCount : Nat
  submittedSeq : Nat
  completedSeq : Nat
  confirmedThrough : Option Event
  firstUnconfirmed : Option Event
  lastUnconfirmed : Option Event
  unconfirmedCount : Nat
  notReadyObserved : Nat
  checkpointMappings : List Mapping
  deriving Repr, DecidableEq

/-- `exact_confirmations`: the last confirmation of each key with a generation. -/
def exactConfirmations (confirmed : List Event) : Dict CheckpointKey Event :=
  (confirmed.filter fun e => e.arg1 != 0).foldl (fun d e => d.set (checkpointKey e) e) .empty

/-- `by_stream`: the submitted checkpoints of each stream. -/
def byStream (submitted : List Event) : Dict Nat (List Event) :=
  submitted.foldl (fun d e => d.update e.stream [] fun l => l ++ [e]) .empty

/-- `confirmed_indices`: the positions of the checkpoints with an exact
confirmation. -/
def confirmedIndices (exact : Dict CheckpointKey Event) (checkpoints : List Event) : List Nat :=
  (List.range checkpoints.length).filter fun i =>
    (checkpoints[i]?.bind fun e => exact.get? (checkpointKey e)).isSome

/-- The mapping of the checkpoint at position `i`, where `lastIndex` is the last
confirmed position. -/
def mapping (exact : Dict CheckpointKey Event) (lastIndex : Option Nat) (i : Nat) (e : Event) :
    Mapping where
  submittedSeq := e.arg0
  checkpointId := e.correlationId
  generation := e.arg1
  status :=
    if (exact.get? (checkpointKey e)).isSome then .confirmedExact
    -- A checkpoint before a confirmed one of its stream is confirmed with it.
    else if lastIndex.any fun last => decide (i ≤ last) then .confirmedByLaterCheckpoint
    else .unconfirmed
  confirmationRecordSeq := (exact.get? (checkpointKey e)).map Event.seq

/-- The progress of a stream with the given submitted checkpoints. -/
def streamProgress (exact : Dict CheckpointKey Event) (notReady : List Event)
    (checkpoints : List Event) : Progress :=
  let checkpoints := sortBySeq checkpoints
  let indices := confirmedIndices exact checkpoints
  let lastIndex := indices.max?
  let last := lastIndex.bind fun i => checkpoints[i]?
  -- `checkpoints[last_index + 1:]`, where no confirmation makes the index -1.
  let after := checkpoints.drop (match lastIndex with | some i => i + 1 | none => 0)
  { submittedCount := checkpoints.length
    explicitlyConfirmedCount := indices.length
    submittedSeq := (checkpoints.getLast?.map Event.arg0).getD 0
    completedSeq := (last.map Event.arg0).getD 0
    confirmedThrough := last
    firstUnconfirmed := after.head?
    lastUnconfirmed := after.getLast?
    unconfirmedCount := after.length
    notReadyObserved :=
      after.countP fun e => notReady.any fun n => checkpointKey n = checkpointKey e
    checkpointMappings := checkpoints.mapIdx (mapping exact lastIndex) }

/-- The progress of every stream with a submitted checkpoint. -/
def checkpointProgress (s : Scan) : List (Nat × Progress) :=
  (byStream s.checkpointSubmitted).items.map fun (stream, checkpoints) =>
    (stream, streamProgress (exactConfirmations s.confirmed) s.notReadyObservations checkpoints)

/-! ### The report of one rank -/

/-- An entry of `report["ranks"]`. -/
structure RankReport where
  pid : Nat
  lastSequence : Nat
  lastEvent : Option Event
  lastHostEvent : Option Event
  lastDeviceConfirmation : Option Event
  outstandingHostScopes : List Event
  lastEvents : List Event
  ringWrapOrLoss : Bool
  deviceCheckpointProgress : List (Nat × Progress)
  checkpointWarnings : List Event
  staleOrUnmatchedConfirmations : List Event
  checkpointCoverageWarning : Bool

/-- An event that the host made, not the checkpoint poller. -/
def isHostEvent (e : Event) : Bool :=
  !(e.type = .deviceConfirmed ||
    (e.type = .checkpoint && !hasFlag e CHECKPOINT_SUBMITTED))

/-- The section of one rank, from its snapshot and what the loop collected. -/
def rankReport (data : Snapshot) (s : Scan) : RankReport :=
  let events := data.events
  let submittedKeys := s.checkpointSubmitted.map checkpointKey
  let progress := checkpointProgress s
  -- A device synchronisation that has not ended.
  let openDeviceSync := s.pending.values.any fun e => e.type = .deviceSyncBegin
  { pid := data.header.pid
    lastSequence := (events.getLast?.map Event.seq).getD 0
    lastEvent := events.getLast?
    lastHostEvent := (events.filter isHostEvent).getLast?
    lastDeviceConfirmation := s.confirmed.getLast?
    outstandingHostScopes := s.pending.values
    lastEvents := events.drop (events.length - 20)
    ringWrapOrLoss := decide (events.length < data.header.writeSeq)
    deviceCheckpointProgress := progress
    checkpointWarnings := s.checkpointWarnings
    staleOrUnmatchedConfirmations :=
      s.confirmed.filter fun e => e.arg1 != 0 && !submittedKeys.contains (checkpointKey e)
    checkpointCoverageWarning :=
      openDeviceSync && !progress.isEmpty && progress.all fun p => p.2.unconfirmedCount = 0 }

end HangAnalyzer.Analyzer
