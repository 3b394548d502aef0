import HangAnalyzer.Checkpoint.Session

/-!
# `HangAnalyzer.Checkpoint.Poller`: a manager with its poller thread

The model of `flight_checkpoint_start_poller`, `flight_checkpoint_stop_poller` and
`flight_checkpoint_destroy` in `src/flight_checkpoint.cpp`, and of the thread that the first
one starts. The thread calls `flight_checkpoint_poll` until it is told to stop.

`Service.step` executes one atomic step: one load or store of `stop_poller` or
`poller_running`, one access to the thread object, one step of the thread, or one action of
the pool. Any number of control calls may be in progress, and nothing keeps a call away from
a manager that goes. `Service.fault` says that it has come to that: a thread object was
overwritten or deleted while its thread was not joined, which ends the process, a thread was
joined twice, a stream was registered in front of a submit or poll call that reads the list
of the streams, or somebody has used the manager after it was deleted.
-/

set_option autoImplicit false

namespace HangAnalyzer.Checkpoint

open HangAnalyzer.Lib

def EALREADY : Int := 114

/-- The next step of the poller thread. -/
inductive ThreadPc where
  /-- `stop_poller.load` -/
  | test
  /-- the start of a `flight_checkpoint_poll` call -/
  | call
  /-- a step of this call -/
  | polling
  | sleep
  /-- `poller_running.store(false)` -/
  | clear
  | exited
  deriving Repr, DecidableEq

/-- The thread, with the budget of its poll calls. -/
structure PollerThread where
  budget : UInt32
  pc : ThreadPc
  deriving Repr, DecidableEq

/-- The next step of a control call. -/
inductive ControlPc where
  -- `flight_checkpoint_start_poller`
  | exchange (budget : UInt32)
  | resetStop (budget : UInt32)
  | spawn (budget : UInt32)
  | spawnFailed
  -- `flight_checkpoint_stop_poller`
  | setStop
  | joinable
  | join
  -- `flight_checkpoint_destroy`
  | loadRunning
  | loadJoinable
  /-- the load of the state of slot `n`, while `control` is locked -/
  | slots (n : Nat)
  /-- the `backend.destroy` calls and `delete m` -/
  | teardown
  | done (rc : Int)
  deriving Repr, DecidableEq

/-- The control call has returned. -/
def ControlPc.returned : ControlPc → Bool
  | done _ => true
  | _      => false

/-- The call holds the mutex `control`. -/
def ControlPc.locks : ControlPc → Bool
  | slots _ => true
  | _       => false

/-- The slots of all streams, in the order of the loops in `flight_checkpoint_destroy`. -/
def Manager.slots (m : Manager) : List Slot := m.streams.flatMap Stream.slots

/-- The events go back to the backend, and the manager is deleted. -/
def Session.delete (s : Session) : Session :=
  { s with
    ops := s.ops ++ s.pool.manager.events.map .destroy
    deleted := true }

/-- The session, the fields of the manager about its poller, and the control calls in the
order of their start. -/
structure Service where
  session : Session
  stopPoller : Bool
  pollerRunning : Bool
  /-- `m->poller`, when it is joinable -/
  poller : Option PollerThread
  controls : List ControlPc
  fault : Bool

/-- A control call starts or makes its next step, the thread makes its next step, or another
caller does something with the manager. `spawned` says whether `std::thread` got a thread,
and `rc` is what the backend answers. -/
inductive ServiceAction where
  | startPoller (intervalUs budget : UInt32)
  | stopPoller
  | destroy
  | control (k : Nat) (spawned : Bool)
  | thread (rc : Int)
  | register (streamId : UInt32) (handle : Nat) (codes : Nat → Int)
  | pool (a : Action)

/-- The action is a step of the poll call in progress. -/
def Action.isAdvancePoll : Action → Bool
  | advancePoll _ => true
  | _             => false

/-- The action looks at the manager. Two calls can return before they do so, and a record of
somebody else is none of its business. -/
def Action.touches (pool : State) : Action → Bool
  | submit _ submittedSeq _ => submittedSeq ≠ 0
  | advance k _             => pool.submits[k]?.any fun call => !call.returned
  | poll budget             => budget ≠ 0
  | advancePoll _           => pool.poll.isSome
  | host _                  => false

namespace Service

/-- The thread is in its own `flight_checkpoint_poll` call. -/
def threadPolls (s : Service) : Bool := s.poller.any fun t => t.pc = .polling

/-- Set the next step of the thread. -/
def setThread (s : Service) (t : PollerThread) (pc : ThreadPc) : Service :=
  { s with poller := some { t with pc } }

/-- One step of the thread. -/
def threadStep (s : Service) (t : PollerThread) (rc : Int) : Option Service :=
  match t.pc with
  | .test => some (s.setThread t (if s.stopPoller then .clear else .call))
  | .call =>
      (s.session.advance (.poll t.budget)).map fun session =>
        -- The call returns at once unless it takes the flag.
        let took := s.session.pool.poll.isNone && session.pool.poll.isSome
        { s with session }.setThread t (if took then .polling else .sleep)
  | .polling =>
      (s.session.advance (.advancePoll rc)).map fun session =>
        { s with session }.setThread t (if session.pool.poll.isSome then .polling else .sleep)
  | .sleep => some (s.setThread t .test)
  | .clear => some ({ s with pollerRunning := false }.setThread t .exited)
  | .exited => none

/-- One step of a control call. -/
def controlStep (s : Service) (spawned : Bool) : ControlPc → Option (Service × ControlPc)
  | .exchange budget =>
      if s.pollerRunning then some (s, .done EALREADY)
      else some ({ s with pollerRunning := true }, .resetStop budget)
  | .resetStop budget => some ({ s with stopPoller := false }, .spawn budget)
  | .spawn budget =>
      if spawned then
        -- A thread object that is still joinable must not be assigned to.
        some ({ s with
          poller := some ⟨budget, .test⟩
          fault := s.fault || s.poller.isSome }, .done 0)
      else some (s, .spawnFailed)
  | .spawnFailed => some ({ s with pollerRunning := false }, .done EAGAIN)
  | .setStop => some ({ s with stopPoller := true }, .joinable)
  | .joinable => some (s, if s.poller.isSome then .join else .done 0)
  | .join =>
      match s.poller with
      | some t => if t.pc = .exited then some ({ s with poller := none }, .done 0) else none
      | none   => some ({ s with fault := true }, .done 0)
  | .loadRunning => some (s, if s.pollerRunning then .done EBUSY else .loadJoinable)
  | .loadJoinable => some (s, if s.poller.isSome then .done EBUSY else .slots 0)
  | .slots n =>
      match s.session.pool.manager.slots[n]? with
      | some slot => some (s, if slot.state = .free then .slots (n + 1) else .done EBUSY)
      | none      => some (s, .teardown)
  | .teardown =>
      -- Nothing that another call does now changes what this one does. So its calls of the
      -- backend and `delete` are one step, and a step of another call that comes between
      -- them counts as one after them.
      some ({ s with
        session := s.session.delete
        fault := s.fault || s.poller.isSome }, .done 0)
  | .done _ => none

/-- The action looks at the manager. -/
def touches (s : Service) : ServiceAction → Bool
  | .startPoller intervalUs budget => intervalUs ≠ 0 && budget ≠ 0
  | .stopPoller | .destroy | .register .. => true
  | .control k _ => s.controls[k]?.any fun pc => !pc.returned
  | .thread _ => s.poller.any fun t => t.pc ≠ .sleep && t.pc ≠ .exited
  | .pool a => a.touches s.session.pool

/-- What an action does to a manager that is there. -/
def act (s : Service) : ServiceAction → Option Service
  | .startPoller intervalUs budget =>
      let pc : ControlPc := if intervalUs = 0 ∨ budget = 0 then .done EINVAL else .exchange budget
      some { s with controls := s.controls ++ [pc] }
  | .stopPoller => some { s with controls := s.controls ++ [.setStop] }
  | .destroy => some { s with controls := s.controls ++ [.loadRunning] }
  | .control k spawned =>
      s.controls[k]?.bind fun pc =>
        (s.controlStep spawned pc).map fun (t, pc) =>
          { t with controls := s.controls.set k pc }
  | .thread rc => s.poller.bind fun t => s.threadStep t rc
  | .register id handle codes =>
      if s.controls.any ControlPc.locks then none
      -- `push_back` moves the list that `find_stream` and the poll call read.
      else if s.session.pool.quiescent then
        some { s with session := (s.session.registerStream id handle codes).1 }
      else some { s with fault := true }
  | .pool a =>
      -- The steps of the thread's own call are its own.
      if s.threadPolls ∧ a.isAdvancePoll then none
      else if s.session.deleted then some s
      else (s.session.advance a).map fun session => { s with session }

/-- One step. -/
def step (s : Service) (a : ServiceAction) : Option Service :=
  if s.session.deleted ∧ s.touches a then some { s with fault := true } else s.act a

/-- The service of a new manager. -/
def start (m : Manager) : Service where
  session := .start m
  stopPoller := false
  pollerRunning := false
  poller := none
  controls := []
  fault := false

end Service

end HangAnalyzer.Checkpoint
