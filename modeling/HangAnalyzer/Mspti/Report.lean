import HangAnalyzer.Lib.Brackets
import HangAnalyzer.Lib.OrderedDict
import HangAnalyzer.Mspti.Format

/-!
# `HangAnalyzer.Mspti.Report`: the report on a `.msflight` file

The model of `report` in `flightrecorder/mspti_ring.py`. The function prints its values as
lines of text. A `Report` is these values in the order of the lines, before they are padded
and joined.

`openCalls` are the callbacks that entered and did not exit. They are matched by thread and
callback id, on one stack for each key, because the correlation ids of callbacks are not
relied on.
-/

set_option autoImplicit false

namespace HangAnalyzer.Mspti

open HangAnalyzer.Lib

/-- The two callback domains: `event["kind"].split("_")[0]` of a callback. -/
inductive Domain where
  | runtime
  | hccl
  deriving Repr, DecidableEq

/-- What a callback is matched by: its domain, its thread and its callback id. -/
abbrev CallKey := Domain × Nat × Nat

/-- What an event says about the calls of its thread. Activity records say nothing. -/
def Event.callback (e : Event) : Option (Bracket CallKey) :=
  match e.kind with
  | .runtimeEnter => some (.enter (.runtime, e.tid, e.code))
  | .hcclEnter    => some (.enter (.hccl, e.tid, e.code))
  | .runtimeExit  => some (.exit (.runtime, e.tid, e.code))
  | .hcclExit     => some (.exit (.hccl, e.tid, e.code))
  | _             => none

/-- The body of the loop that fills `pending`. A missing key of the `defaultdict` starts
with an empty stack, and an exit pops only from a stack that is not empty. -/
def pendingStep (pending : Dict CallKey (List Event)) (e : Event) : Dict CallKey (List Event) :=
  match e.callback with
  | some (.enter key) => pending.update key [] fun stack => stack ++ [e]
  | some (.exit key)  => pending.update key [] List.dropLast
  | none              => pending

/-- `pending`. -/
def pendingCalls (events : List Event) : Dict CallKey (List Event) :=
  events.foldl pendingStep .empty

/-- `open_calls`. -/
def openCalls (events : List Event) : List Event :=
  (pendingCalls events).values.flatten.mergeSort fun a b => a.seq ≤ b.seq

/-- `LABELS.values()`. -/
def LABEL_VALUES : List String :=
  ["runtime_enter", "runtime_exit", "hccl_enter", "hccl_exit", "kernel_done", "hccl_done",
    "status", "runtime_api_done"]

/-- `api_by_correlation`: a later record replaces an earlier one, and the id zero is none. -/
def apiByCorrelation (events : List Event) : Dict Nat Event :=
  (events.filter fun e => e.kind = .runtimeApiDone ∧ e.correlationId ≠ 0).foldl
    (fun d e => d.set e.correlationId e) .empty

/-- `kernels`. -/
def kernels (events : List Event) : List Event := events.filter fun e => e.kind = .kernelDone

/-- `joined`. -/
def joined (events : List Event) : List Event :=
  (kernels events).filter fun e => e.correlationId ∈ (apiByCorrelation events).keys

/-- `sorted(types.items())`. -/
def kernelTypes (events : List Event) : List (String × Nat) :=
  let types := (kernels events).foldl
    (fun d e => d.update (if e.detail = "" then "unknown" else e.detail) 0 (· + 1)) Dict.empty
  types.items.mergeSort fun a b => a.1 ≤ b.1

/-- `sorted(last_by_stream.items())`, by device and stream. -/
def lastByStream (events : List Event) : List ((Nat × Nat) × Event) :=
  let last := (events.filter fun e => e.kind = .kernelDone ∨ e.kind = .hcclDone).foldl
    (fun d e => d.set (e.device, e.stream) e) Dict.empty
  last.items.mergeSort fun a b => a.1.1 < b.1.1 ∨ (a.1.1 = b.1.1 ∧ a.1.2 ≤ b.1.2)

/-- `events[-tail:]`: all of them for a `tail` of zero, since `-0` is zero. -/
def lastEvents (tail : Int) (events : List Event) : List Event :=
  if 0 < tail then events.drop (events.length - tail.toNat) else events.drop (-tail).toNat

/-- The values that `report` prints. -/
structure Report where
  pid : Nat
  records : Nat
  overwritten : Nat
  droppedBuffers : Nat
  counts : List (String × Nat)
  openCalls : List Event
  /-- `open_calls[-20:]`, the calls that are printed. -/
  shownCalls : List Event
  joined : Nat
  kernels : Nat
  types : List (String × Nat)
  lastByStream : List ((Nat × Nat) × Event)
  /-- Whether the warning about a wrapped ring is printed. -/
  wrapped : Bool
  recent : List Event
  deriving Repr, DecidableEq

/-- `report`: the values, or the text of the `ValueError` of `read_ring`. -/
def report (file : List UInt8) (tail : Int) : Except String Report := do
  let (header, events) ← readFile file
  return {
    pid := header.pid
    records := events.length
    overwritten := header.overwritten
    droppedBuffers := header.dropped
    counts := LABEL_VALUES.map fun key => (key, events.countP fun e => e.kind.label = key)
    openCalls := openCalls events
    shownCalls := lastEvents 20 (openCalls events)
    joined := (joined events).length
    kernels := (kernels events).length
    types := kernelTypes events
    lastByStream := lastByStream events
    -- `events[0]["seq"] > 1`
    wrapped := events.head?.any fun e => 1 < e.seq
    recent := lastEvents tail events }

end HangAnalyzer.Mspti
