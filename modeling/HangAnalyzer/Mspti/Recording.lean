import HangAnalyzer.Mspti.Buffers
import HangAnalyzer.Mspti.Format

/-!
# `HangAnalyzer.Mspti.Recording`: the calls, their stores, and a reader

`HangAnalyzer.Mspti.Buffers` says which `record` calls the process makes. Here each of them
is what it is in the source: it claims a number, and then executes its stores one after the
other, in between those of all other calls and the words that a reader of the file reads.
A `buffer_complete` call goes on when the `record` call that it has made has returned.

The model is of one mapping, from a `hang_mspti_start` to the `hang_mspti_stop` after it.
The refused requests are counted in `Buffers.State.dropped` alone: the calls of `record`
neither read nor write that word of the header.
-/

set_option autoImplicit false

namespace HangAnalyzer.Mspti.Recording

open HangAnalyzer.Lib
open HangAnalyzer.Mspti.Buffers (Pool)

/-- The calls, the mapping that they record into, and what the reader has yet to do. -/
structure State where
  buffers : Buffers.State
  ring : Shared Cell.width
  reader : Reading (Except String (RingHeader × List Event))

inductive Action where
  /-- a step of a call or of msPTI -/
  | buffers (a : Buffers.Action)
  /-- the next store of a `record` call, by its place in the order of the claims -/
  | store (k : Nat)
  /-- the reader reads its next word -/
  | read

/-- The first `hang_mspti_start` has mapped the file, and a reader has opened it. -/
def State.start (capacity : UInt64) (pid : UInt32) (wallNs monoNs : UInt64)
    (contents : Nat → List Buffers.Activity) : State where
  buffers := .start contents
  ring := Protocol.start (initRing capacity pid wallNs monoNs)
  reader := readRing (128 + capacity.toNat * 192)

namespace State

/-- No `record` call that `buffer_complete` call `k` has made is in progress. -/
def returned (s : State) (k : Nat) : Bool :=
  (s.buffers.recorded.zip s.ring.calls).all fun e => e.1.1 ≠ some k || e.2.todo.isEmpty

/-- The step may come next while the file is mapped. -/
def ready (s : State) : Buffers.Action → Bool
  | .advanceCompletion k _ _ => s.returned k
  | .stop => false
  | _ => true

/-- One step of the process, of msPTI or of the reader. -/
def step (pool : Pool) (pid : UInt32) (capacity : UInt64) (s : State) : Action → Option State
  | .buffers a =>
      if s.ready a then
        (s.buffers.step pool a).bind fun buffers =>
          -- A `record` call begins, and claims its number.
          if s.buffers.recorded.length < buffers.recorded.length then
            ((msptiProtocol pid capacity.toNat).step (argsOf (buffers.recorded.map Prod.snd))
              s.ring .claim).map fun ring => { s with buffers, ring }
          else some { s with buffers }
      else none
  | .store k =>
      ((msptiProtocol pid capacity.toNat).step (argsOf (s.buffers.recorded.map Prod.snd))
        s.ring (.advance k)).map fun ring => { s with ring }
  | .read =>
      match s.reader with
      | .done _ => none
      | .read w next =>
          some { s with reader := next (fileWord (Ring.fileBytes s.ring.mem capacity.toNat) w) }

end State

end HangAnalyzer.Mspti.Recording
