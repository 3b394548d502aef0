import Mathlib.Data.List.Sort
import HangAnalyzer.Lib.Layout

/-!
# `HangAnalyzer.Recorder.Format`: reading a `.flight` file

The model of `flightrecorder/format.py`. A file is its bytes, and `readHeader`
and `readEvents` cut them with the two `struct` formats of the module. The
numbers they return are Python integers, so they are naturals here.

A `Snapshot` carries the order of its events: `readEvents` can only return
events with strictly increasing `seq`, because a slot accepts the sequence
numbers of its own residue only (`accepts_inj`).
-/

set_option autoImplicit false

namespace HangAnalyzer.Recorder

open HangAnalyzer.Lib

/-- The `MAGIC` constant of the reader. -/
def FILE_MAGIC : Nat := 0x31524647534E4341

/-- The format `<QIIQIHHQQQQ`. -/
def HEADER : List Code := [.Q, .I, .I, .Q, .I, .H, .H, .Q, .Q, .Q, .Q]

/-- The format `<QQIIHHIHH4xQQQ`. -/
def EVENT : List Code := [.Q, .Q, .I, .I, .H, .H, .I, .H, .H, .x 4, .Q, .Q, .Q]

/-- The type of an event: a name of `NAMES`, or `other n` for the recorded
number `25 + n`, which has no name. -/
inductive EventType where
  | unknown
  | requestBegin
  | requestEnd
  | schedulerBegin
  | schedulerEnd
  | modelBegin
  | modelEnd
  | graphBegin
  | graphEnd
  | kvBegin
  | kvEnd
  | ppSendBegin
  | ppSendEnd
  | ppRecvBegin
  | ppRecvEnd
  | hcclBegin
  | hcclEnd
  | eventRecord
  | eventWait
  | streamSyncBegin
  | streamSyncEnd
  | deviceSyncBegin
  | deviceSyncEnd
  | checkpoint
  | deviceConfirmed
  | other (n : Nat)
  deriving Repr, DecidableEq

namespace EventType

/-- The types with a name, by recorded number. -/
def known : List EventType :=
  [unknown, requestBegin, requestEnd, schedulerBegin, schedulerEnd, modelBegin, modelEnd,
    graphBegin, graphEnd, kvBegin, kvEnd, ppSendBegin, ppSendEnd, ppRecvBegin, ppRecvEnd,
    hcclBegin, hcclEnd, eventRecord, eventWait, streamSyncBegin, streamSyncEnd,
    deviceSyncBegin, deviceSyncEnd, checkpoint, deviceConfirmed]

/-- The type of a recorded number. -/
def ofKind (kind : Nat) : EventType := known.getD kind (other (kind - 25))

end EventType

/-- `NAMES`. -/
def NAMES : List String :=
  ["UNKNOWN", "REQUEST_BEGIN", "REQUEST_END", "SCHEDULER_BEGIN", "SCHEDULER_END",
    "MODEL_BEGIN", "MODEL_END", "GRAPH_BEGIN", "GRAPH_END", "KV_BEGIN", "KV_END",
    "PP_SEND_BEGIN", "PP_SEND_END", "PP_RECV_BEGIN", "PP_RECV_END", "HCCL_BEGIN",
    "HCCL_END", "EVENT_RECORD", "EVENT_WAIT", "STREAM_SYNC_BEGIN", "STREAM_SYNC_END",
    "DEVICE_SYNC_BEGIN", "DEVICE_SYNC_END", "CHECKPOINT", "DEVICE_CONFIRMED"]

namespace EventType

/-- The recorded number of a type, the value of `TYPES` for a named one. -/
def kind : EventType → Nat
  | other n => 25 + n
  | t       => known.idxOf t

/-- The string the reader puts into the event: the name, or `TYPE_` and the
number. -/
def name : EventType → String
  | other n => "TYPE_" ++ toString (25 + n)
  | t       => NAMES.getD t.kind ""

end EventType

/-- The inverse of the reader's naming: the position in `NAMES`, or the number
behind `TYPE_`. -/
def typeNumber (s : String) : Option Nat :=
  match NAMES.idxOf? s with
  | some i => some i
  | none   =>
      match s.toList with
      | 'T' :: 'Y' :: 'P' :: 'E' :: '_' :: digits => some (Nat.ofDigitChars 10 digits 0)
      | _ => none

/-- A decoded header. -/
structure FlightHeader where
  path : String
  capacity : Nat
  pid : Nat
  rank : Nat
  device : Nat
  writeSeq : Nat
  lastNs : Nat
  startedWallNs : Nat
  startedMonoNs : Nat
  deriving Repr, DecidableEq

/-- A decoded event. -/
structure Event where
  timestampNs : Nat
  seq : Nat
  pid : Nat
  tid : Nat
  device : Nat
  rank : Nat
  stream : Nat
  type : EventType
  flags : Nat
  correlationId : Nat
  arg0 : Nat
  arg1 : Nat
  deriving Repr, DecidableEq

/-- A decoded file. -/
structure Snapshot where
  header : FlightHeader
  events : List Event
  sorted : events.Pairwise (·.seq < ·.seq)

/-- `read_header`: the header, or the text of the `ValueError`. -/
def readHeader (path : String) (raw : List UInt8) : Except String FlightHeader :=
  let raw := raw.take 128
  if raw.length < 128 then .error ("short header: " ++ path)
  else
    match (unpack (formatItems HEADER) raw).map ofBytesLE with
    | [magic, version, eventSize, capacity, pid, rank, device, writeSeq, lastNs, wall, mono] =>
        if magic ≠ FILE_MAGIC ∨ version ≠ 1 ∨ eventSize ≠ 64 ∨ capacity < 2 then
          .error ("unsupported flight format: " ++ path)
        else
          .ok { path, capacity, pid, rank, device, writeSeq, lastNs,
                startedWallNs := wall, startedMonoNs := mono }
    -- `HEADER` has eleven codes, so `unpack` returns eleven numbers.
    | _ => .error ("unsupported flight format: " ++ path)

/-- `EVENT.unpack_from(raw, 128 + slot * 64)`, as an event. -/
def slotEvent (raw : List UInt8) (slot : Nat) : Option Event :=
  match (unpack (formatItems EVENT) (raw.drop (128 + slot * 64))).map ofBytesLE with
  | [timestampNs, seq, pid, tid, device, rank, stream, kind, flags, corr, arg0, arg1] =>
      some { timestampNs, seq, pid, tid, device, rank, stream, type := .ofKind kind,
             flags, correlationId := corr, arg0, arg1 }
  -- `EVENT` has twelve value codes, so `unpack` returns twelve numbers.
  | _ => none

/-- The first sequence number of the window. -/
def FlightHeader.lower (h : FlightHeader) : Nat := max 1 (h.writeSeq + 1 - h.capacity)

/-- The validity test of a slot: its number lies in the window and belongs to
the slot. -/
def FlightHeader.accepts (h : FlightHeader) (slot seq : Nat) : Bool :=
  decide (h.lower ≤ seq ∧ seq ≤ h.writeSeq ∧ (seq - 1) % h.capacity = slot)

/-- The accepted events among those of the slots below `count`, by slot. -/
def FlightHeader.select (h : FlightHeader) (count : Nat) (event : Nat → Option Event) :
    List Event :=
  (List.range count).filterMap fun slot =>
    (event slot).filter fun e => h.accepts slot e.seq

/-- `sorted(result, key=lambda e: e["seq"])`. -/
def sortBySeq (l : List Event) : List Event := l.mergeSort fun a b => a.seq ≤ b.seq

/-! ### The order of the events -/

/-- The events selected are those of the slots that the header accepts. -/
theorem FlightHeader.mem_select {h : FlightHeader} {count : Nat} {event : Nat → Option Event}
    {e : Event} :
    e ∈ h.select count event ↔
      ∃ slot < count, event slot = some e ∧ h.accepts slot e.seq = true := by
  simp only [select, List.mem_filterMap, List.mem_range, Option.filter_eq_some_iff]

/-- A slot accepts the numbers of its own residue only. -/
theorem FlightHeader.accepts_inj {h : FlightHeader} {slot slot' seq : Nat}
    (ha : h.accepts slot seq = true) (hb : h.accepts slot' seq = true) : slot = slot' := by
  simp only [accepts, decide_eq_true_eq] at ha hb
  exact ha.2.2.symm.trans hb.2.2

/-- Two slots never yield one sequence number. -/
theorem FlightHeader.select_nodup (h : FlightHeader) (count : Nat) (event : Nat → Option Event) :
    ((h.select count event).map Event.seq).Nodup := by
  rw [List.Nodup, List.pairwise_map]
  refine List.Pairwise.filterMap _ ?_ List.nodup_range
  intro slot slot' hne e he e' he' hseq
  simp only [Option.filter_eq_some_iff] at he he'
  rw [hseq] at he
  exact hne (FlightHeader.accepts_inj he.2 he'.2)

/-- Sorting keeps the events. -/
theorem sortBySeq_perm (l : List Event) : (sortBySeq l).Perm l := List.mergeSort_perm _ _

/-- Sorting adds no event and loses none. -/
@[simp] theorem mem_sortBySeq {l : List Event} {e : Event} : e ∈ sortBySeq l ↔ e ∈ l :=
  (sortBySeq_perm l).mem_iff

/-- Events with distinct numbers are sorted strictly. -/
theorem sortBySeq_sorted {l : List Event} (h : (l.map Event.seq).Nodup) :
    (sortBySeq l).Pairwise (·.seq < ·.seq) := by
  have hle : (sortBySeq l).Pairwise (fun a b => a.seq ≤ b.seq) := by
    have hsorted := @List.pairwise_mergeSort _ (fun a b : Event => decide (a.seq ≤ b.seq))
      (by simpa using fun _ _ _ => Nat.le_trans) (by simpa using fun _ _ => Nat.le_total _ _) l
    simpa [sortBySeq] using hsorted
  have hne : (sortBySeq l).Pairwise (fun a b => a.seq ≠ b.seq) := by
    have hnodup : ((sortBySeq l).map Event.seq).Nodup :=
      ((sortBySeq_perm l).map Event.seq).nodup_iff.mpr h
    exact List.pairwise_map.mp hnodup
  exact (hle.and hne).imp fun hab => Nat.lt_of_le_of_ne hab.1 hab.2

/-- A strictly sorted list is determined by its members. -/
theorem eq_of_sorted {l l' : List Event} (h : l.Pairwise (·.seq < ·.seq))
    (h' : l'.Pairwise (·.seq < ·.seq)) (hmem : ∀ e, e ∈ l ↔ e ∈ l') : l = l' := by
  have hnodup : ∀ {k : List Event}, k.Pairwise (·.seq < ·.seq) → k.Nodup :=
    fun hk => hk.imp fun hab e => by simp [e] at hab
  refine List.Perm.eq_of_pairwise (fun a b _ _ hab hba => ?_) h h'
    ((List.perm_ext_iff_of_nodup (hnodup h) (hnodup h')).mpr hmem)
  omega

/-- `read_events`: the decoded file, or the text of the `ValueError`. -/
def readEvents (path : String) (raw : List UInt8) : Except String Snapshot := do
  let h ← readHeader path raw
  let count := min h.capacity ((raw.length - 128) / 64)
  let result := h.select count (slotEvent raw)
  return { header := h
           events := sortBySeq result
           sorted := sortBySeq_sorted (h.select_nodup count _) }

end HangAnalyzer.Recorder
