import HangAnalyzer.Lib.JsonLines
import HangAnalyzer.Capture.Machine

/-!
# `HangAnalyzer.Capture.Log`: the output file of `MsptiCapture`

The model of `_record` in `python/mspti_activity_capture.py`, of the control items, and of
the text that `_write_loop` puts into the output file: one line for each item it has taken
from the queue, in JSON with `ensure_ascii=False`.

`ActivityData` holds the attributes that `_record` reads from the data of a callback, after
their conversion to `int` and `str`; `dataType` is the number that `_enum_value` returns.
Data without them make `_record` raise, which is the error of a delivery.
-/

set_option autoImplicit false

namespace HangAnalyzer.Capture

open HangAnalyzer.Lib
open HangAnalyzer.Lib.Json (jsonLines)

/-- The attributes that only one kind of data has. -/
inductive Detail where
  | kernel (type : List Char)
  | communication (commName algType : List Char) (count dataType : Int)
  deriving Repr, DecidableEq

/-- What `_record` reads from the data of a callback. -/
structure ActivityData where
  start : Int
  endNs : Int
  deviceId : Int
  streamId : Int
  correlationId : Int
  name : List Char
  detail : Detail
  deriving Repr, DecidableEq

/-- `start > 0 and end >= start`. -/
def ActivityData.timestampValid (data : ActivityData) : Bool :=
  decide (0 < data.start ∧ data.start ≤ data.endNs)

/-- The kind that the monitor passes on. -/
def Detail.kind : Detail → String
  | .kernel _              => "kernel"
  | .communication _ _ _ _ => "communication"

/-- The items of the record that depend on its kind. -/
def Detail.items : Detail → List (List Char × Json)
  | .kernel type => [("kernel_type".toList, .str type)]
  | .communication commName algType count dataType =>
      [("comm_name".toList, .str commName), ("alg_type".toList, .str algType),
        ("count".toList, .int count), ("data_type".toList, .int dataType)]

/-- `_record`. -/
def record (data : ActivityData) : Json :=
  .dict ([("kind".toList, .str data.detail.kind.toList),
    ("device_id".toList, .int data.deviceId),
    ("stream_id".toList, .int data.streamId),
    ("correlation_id".toList, .int data.correlationId),
    ("name".toList, .str data.name),
    ("start_ns".toList, .int data.start),
    ("end_ns".toList, .int data.endNs),
    ("timestamp_valid".toList, .bool data.timestampValid),
    ("duration_ns".toList,
      if data.timestampValid then .int (data.endNs - data.start) else .null)] ++ data.detail.items)

/-- A value that may be `None`. -/
def optionalBool : Option Bool → Json
  | none   => .null
  | some b => .bool b

/-- An item of the queue as a dictionary. -/
def Item.json : Item ActivityData → Json
  | .activity data => record data
  | .captureState hostTimeNs enabled =>
      .dict [("kind".toList, .str "capture_state".toList), ("host_time_ns".toList, .int hostTimeNs),
        ("enabled".toList, .bool enabled)]
  | .flushTick hostTimeNs enabled flushOk dropped =>
      .dict [("kind".toList, .str "flush_tick".toList), ("host_time_ns".toList, .int hostTimeNs),
        ("enabled".toList, .bool enabled), ("flush_ok".toList, optionalBool flushOk),
        ("dropped".toList, .int dropped)]

/-- What the writer thread has written. -/
def State.text (s : State ActivityData) : List Char := jsonLines false (s.lines.map Item.json)

/-- The strings of an item that come from the profiler. -/
def Item.strings : Item ActivityData → List (List Char)
  | .activity data =>
      match data.detail with
      | .kernel type                      => [data.name, type]
      | .communication commName algType _ _ => [data.name, commName, algType]
  | _ => []

/-- The strings have none of the characters that end a line and need no escape. -/
def Item.Unbroken (item : Item ActivityData) : Prop :=
  ∀ s ∈ item.strings, ∀ c ∈ s, c ≠ '\u0085' ∧ c ≠ '\u2028' ∧ c ≠ '\u2029'

instance (item : Item ActivityData) : Decidable item.Unbroken :=
  decidable_of_iff ((item.strings.all fun s => s.all fun c =>
    decide (c ≠ '\u0085' ∧ c ≠ '\u2028' ∧ c ≠ '\u2029')) = true) (by
      simp only [List.all_eq_true, decide_eq_true_eq, Item.Unbroken])

end HangAnalyzer.Capture
