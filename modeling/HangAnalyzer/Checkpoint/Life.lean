import HangAnalyzer.Checkpoint.Pool

/-!
# `HangAnalyzer.Checkpoint.Life`: the life of one slot

What a slot of the pool is for, apart from how the calls reach it. A slot goes
through generations. In each one a submit call reserves it, numbers it, fills it
in and enqueues its event. If that fails the slot is free again. If not, the
call records the submission and hands the slot to the polls, which observe it
until one confirms it.

`Life.step` is this protocol, one access after the other. A list of accesses
that is not a run of it cannot happen to a slot:
`HangAnalyzer.Proofs.Checkpoint.Refines` shows that the pool refines it.
-/

set_option autoImplicit false

namespace HangAnalyzer.Checkpoint

open HangAnalyzer.Lib

/-- How far a slot is in its generation. `call` is the number of the submit call. -/
inductive Phase where
  | free
  | reserved (call : Nat)
  | numbered (call : Nat)
  | filled (call : Nat)
  | failed (call : Nat)
  | queued (call : Nat)
  | submitted (call : Nat)
  | pending (call : Nat)
  | querying (call : Nat)
  | confirmed (call : Nat)
  deriving Repr, DecidableEq

namespace Phase

/-- The submit call that holds the slot. -/
def holder : Phase → Option Nat
  | reserved k | numbered k | filled k | failed k | queued k | submitted k => some k
  | free | pending _ | querying _ | confirmed _ => none

/-- The slot is held by a poll. -/
def polled : Phase → Bool
  | querying _ | confirmed _ => true
  | _ => false

/-- The submission is on record and not yet confirmed. -/
def live : Phase → Bool
  | submitted _ | pending _ | querying _ => true
  | _ => false

/-- The slot's `state` word. -/
def state : Phase → SlotState
  | free => .free
  | reserved _ | numbered _ | filled _ | failed _ | queued _ | submitted _ => .reserved
  | pending _ => .pending
  | querying _ | confirmed _ => .querying

end Phase

/-- The life of a slot so far: the number of its generations, what was filled in
last, how far it is, and which marks were reported in this generation. -/
structure Life where
  generation : Nat
  submittedSeq : UInt64
  checkpointId : UInt64
  phase : Phase
  seen : Mark → Bool

namespace Life

/-- A slot that nobody has used. -/
def init : Life := ⟨0, 0, 0, .free, fun _ => false⟩

/-- What the records of this generation say, in the stream `id`. -/
def stamp (id : UInt32) (l : Life) : Stamp :=
  ⟨id, l.checkpointId, l.submittedSeq, UInt64.ofNat l.generation⟩

/-- The life after one access, in the stream `id`. -/
def step (id : UInt32) (l : Life) (a : Access) : Option Life :=
  match l.phase, a with
  -- The submit call `k` takes the slot and does its steps in this order.
  | .free, .reserve k => some { l with phase := .reserved k }
  | .reserved j, .number k =>
      if j = k then
        some { l with
          generation := l.generation + 1, phase := .numbered k, seen := fun _ => false }
      else none
  | .numbered j, .fill k seq checkpoint =>
      if j = k then
        some { l with submittedSeq := seq, checkpointId := checkpoint, phase := .filled k }
      else none
  | .filled j, .enqueue k rc =>
      if j = k then some { l with phase := if rc = 0 then .queued k else .failed k } else none
  | .queued j, .submitted k stamp =>
      if j = k ∧ stamp = l.stamp id then some { l with phase := .submitted k } else none
  | .submitted j, .publish k => if j = k then some { l with phase := .pending k } else none
  -- A poll call takes it, and may give it back.
  | .pending k, .acquire => some { l with phase := .querying k }
  | .querying _, .load => some l
  | .querying _, .query _ => some l
  | .querying _, .observed mark stamp =>
      if stamp = l.stamp id ∧ l.seen mark = false then
        some { l with seen := Function.update l.seen mark true }
      else none
  | .querying k, .withdraw => some { l with phase := .pending k }
  | .querying k, .confirmed stamp =>
      if stamp = l.stamp id then some { l with phase := .confirmed k } else none
  -- Two ways back to the pool.
  | .failed _, .release => some { l with phase := .free }
  | .confirmed _, .release => some { l with phase := .free }
  | _, _ => none

end Life

/-- `l` is the life of a slot of the stream `id` after the accesses. -/
abbrev Lived (id : UInt32) (accesses : List Access) (l : Life) : Prop :=
  Run (Life.step id) .init accesses l

end HangAnalyzer.Checkpoint
