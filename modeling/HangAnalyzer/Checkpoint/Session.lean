import HangAnalyzer.Checkpoint.Pool

/-!
# `HangAnalyzer.Checkpoint.Session`: a manager from its creation to its end

The calls of one manager, with what they ask of the backend about the device events.
Streams may be registered at any time when no other call is in progress, and so may
`flight_checkpoint_destroy` be tried. Between them the pool takes its steps as in
`HangAnalyzer.Checkpoint.Pool`.

An event is known by its number among the events that `backend.create` made. `Session.ops`
is the list of the calls of the backend, which no step reads.
-/

set_option autoImplicit false

namespace HangAnalyzer.Checkpoint

open HangAnalyzer.Lib

def EBUSY : Int := 16

/-! ### The calls of the backend -/

/-- A call of the backend about an event. A `create` is one that succeeded. -/
inductive EventOp where
  | create (event : Nat)
  | record (event : Nat)
  | query (event : Nat)
  | destroy (event : Nat)
  deriving Repr, DecidableEq

/-- The event of a call. -/
def EventOp.event : EventOp → Nat
  | create e | record e | query e | destroy e => e

/-- What a step at a slot with the event asks of the backend. -/
def Access.eventOp? (event : Nat) : Access → Option EventOp
  | enqueue _ _ => some (.record event)
  | query _     => some (.query event)
  | _           => none

/-- What the step of an entry asks of the backend. -/
def Entry.eventOp? (m : Manager) : Entry → Option EventOp
  | access p a => (m.slot? p).bind fun slot => a.eventOp? slot.event
  | _          => none

/-- The events that the loop of `backend.create` calls makes before it ends. -/
def createdEvents (create : Nat → Except Int Nat) : (count i : Nat) → List Nat
  | 0, _ => []
  | count + 1, i =>
      match create i with
      | .ok event => event :: createdEvents create count (i + 1)
      | .error _  => []

/-- The events of all slots, in the order of the streams and of their slots. -/
def Manager.events (m : Manager) : List Nat :=
  m.streams.flatMap fun stream => stream.slots.map Slot.event

/-- `flight_checkpoint_destroy`: the returned code and the events given to
`backend.destroy`. `poller` says that a poller thread runs or is not joined. -/
def flightCheckpointDestroy (m : Manager) (poller : Bool) : Int × List Nat :=
  if poller ∨ ∃ stream ∈ m.streams, ∃ slot ∈ stream.slots, slot.state ≠ .free then (EBUSY, [])
  else (0, m.events)

/-! ### The session -/

/-- The pool, the number of events made so far, the calls of the backend, and whether the
manager is deleted. -/
structure Session where
  pool : State
  next : Nat
  ops : List EventOp
  deleted : Bool

/-- A call that changes the manager, or a step of the pool. `codes i` is the answer to the
`i`-th `backend.create` of a registration. -/
inductive SessionAction where
  | register (streamId : UInt32) (handle : Nat) (codes : Nat → Int)
  | pool (a : Action)
  | destroy (poller : Bool)

/-- The call has returned. -/
def SubmitCall.returned (call : SubmitCall) : Bool :=
  match call.pc with
  | .done .. => true
  | _        => false

/-- No submit or poll call is in progress. -/
def State.quiescent (s : State) : Bool :=
  s.poll.isNone && s.submits.all SubmitCall.returned

namespace Session

/-- `backend.create`: the next event, or an error. -/
def create (s : Session) (codes : Nat → Int) (i : Nat) : Except Int Nat :=
  if codes i = 0 then .ok (s.next + i) else .error (codes i)

/-- `flight_checkpoint_register_stream`: the session after it and the returned code. -/
def registerStream (s : Session) (streamId : UInt32) (handle : Nat) (codes : Nat → Int) :
    Session × Int :=
  let m := s.pool.manager
  let (m', rc, destroyed) := flightCheckpointRegisterStream m streamId handle (s.create codes)
  let created :=
    -- A stream that is registered already makes no events.
    if (m.findStream streamId).isSome then []
    else createdEvents (s.create codes) m.slotsPerStream.toNat 0
  ({ s with
      pool := { s.pool with manager := m' }
      next := s.next + created.length
      ops := s.ops ++ created.map .create ++ destroyed.map .destroy }, rc)

/-- `flight_checkpoint_destroy`: the session after it and the returned code. -/
def destroy (s : Session) (poller : Bool) : Session × Int :=
  let (rc, destroyed) := flightCheckpointDestroy s.pool.manager poller
  ({ s with
      ops := s.ops ++ destroyed.map .destroy
      deleted := rc = 0 }, rc)

/-- A step of the pool. -/
def advance (s : Session) (a : Action) : Option Session :=
  (s.pool.step a).map fun pool =>
    { s with
      pool
      ops := s.ops ++
        (pool.trace.drop s.pool.trace.length).filterMap (Entry.eventOp? s.pool.manager) }

/-- The session after an action. A deleted manager has no calls, and the manager changes
only while no other call is in progress. -/
def step (s : Session) (a : SessionAction) : Option Session :=
  if s.deleted then none
  else
    match a with
    | .pool a => s.advance a
    | .register id handle codes =>
        if s.pool.quiescent then some (s.registerStream id handle codes).1 else none
    | .destroy poller =>
        if s.pool.quiescent then some (s.destroy poller).1 else none

/-- The session of a new manager. -/
def start (m : Manager) : Session := ⟨.start m, 0, [], false⟩

end Session

end HangAnalyzer.Checkpoint
