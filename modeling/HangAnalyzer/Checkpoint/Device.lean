import Mathlib.Logic.Function.Basic
import HangAnalyzer.Checkpoint.Pool

/-!
# `HangAnalyzer.Checkpoint.Device`: the pool and the device queues behind it

The pool relies on a device: a stream is a queue that works in order, a
`backend.record` that succeeds puts a marker for its event at the end of the queue, and
`backend.query` answers 1 only when the latest marker of the event is complete. A marker
has the number of the submit call that recorded it.

`Rig.step` interleaves the steps of the pool with the progress of the device. A step in
which the backend would answer 1 too early is not enabled.
-/

set_option autoImplicit false

namespace HangAnalyzer.Checkpoint

open HangAnalyzer.Lib

/-! ### The markers -/

/-- The step that puts the event of a slot on the device queue. -/
def Access.isEnqueued : Access → Bool
  | enqueue _ rc => rc = 0
  | _            => false

/-- The marker that a step puts on the device queue. -/
def Access.marker? : Access → Option Nat
  | enqueue k rc => if rc = 0 then some k else none
  | _            => none

/-- The submit calls that made a step of the kind `f` at the stream with the position `i`,
in order. -/
def callsWith (f : Access → Bool) (trace : List Entry) (i : Nat) : List Nat :=
  trace.filterMap fun
    | .access p a => if p.stream = i ∧ f a then a.call? else none
    | _           => none

/-- The calls in the order in which the device got their events. -/
abbrev enqueued (trace : List Entry) (i : Nat) : List Nat :=
  callsWith Access.isEnqueued trace i

/-- The latest marker of the event at a place. -/
def lastMarker (trace : List Entry) (p : Place) : Option Nat :=
  ((accessesAt trace p).filterMap Access.marker?).getLast?

/-! ### The pool with its device -/

/-- The pool, and for each stream the number of its markers that are complete. -/
structure Rig where
  pool : State
  completed : Nat → Nat

/-- An action of the pool, or the device completes the next marker of a stream. -/
inductive RigAction where
  | pool (a : Action)
  | complete (i : Nat)

namespace Rig

/-- The markers of a stream that are complete. -/
def complete (r : Rig) (i : Nat) : List Nat := (enqueued r.pool.trace i).take (r.completed i)

/-- The backend may answer 1 for the event at a place. -/
def finished (r : Rig) (p : Place) : Bool :=
  (lastMarker r.pool.trace p).all fun k => k ∈ r.complete p.stream

/-- The backend does not answer 1 too early. -/
def honest (r : Rig) : Action → Bool
  | .advancePoll rc =>
      match r.pool.poll.map PollCall.pc with
      | some (.query p _) => rc ≠ 1 || r.finished p
      | _                 => true
  | _ => true

/-- The rig after an action. -/
def step (r : Rig) : RigAction → Option Rig
  | .pool a =>
      if r.honest a then (r.pool.step a).map fun s => { r with pool := s } else none
  | .complete i =>
      if r.completed i < (enqueued r.pool.trace i).length then
        some { r with completed := Function.update r.completed i (r.completed i + 1) }
      else none

/-- The rig before any call. -/
def start (m : Manager) : Rig := ⟨.start m, fun _ => 0⟩

end Rig

end HangAnalyzer.Checkpoint
