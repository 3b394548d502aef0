import HangAnalyzer.Lib.Runs
import HangAnalyzer.Lib.SharedCounter
import HangAnalyzer.Capture.Monitors

/-!
# `HangAnalyzer.Capture.Machine`: the threads of `MsptiCapture`

The model of `_enqueue`, `_put_control`, `_write_loop`, `_flush_loop` and `stop` in
`python/mspti_activity_capture.py` as threads that share a bounded queue. A step
is one access to what they share: the queue, an event, a counter, or a monitor.
The counters are Python integers, so `self.dropped += 1` is a load and a store.

A monitor delivers callbacks from its successful `start` until its `stop` has
returned. What the flush thread does in a round is `Capture.tick`, call by call. The
threads start where `start` has left them. A step of the writer never fails, and
`stop` waits for the threads as long as it takes.

`State.accepted` and `State.offered` are kept for the proofs, and no step reads
them.
-/

set_option autoImplicit false

namespace HangAnalyzer.Capture

open HangAnalyzer.Lib

/-- A line of the output: an activity record of a callback, or a control item. -/
inductive Item (ρ : Type) where
  | activity (row : ρ)
  | captureState (hostTimeNs : Nat) (enabled : Bool)
  | flushTick (hostTimeNs : Nat) (enabled : Bool) (flushOk : Option Bool) (dropped : Nat)
  deriving Repr, DecidableEq

/-- The item that `_put_control` gets. -/
def Control.item {ρ : Type} (hostTimeNs dropped : Nat) : Control → Item ρ
  | .captureState enabled      => .captureState hostTimeNs enabled
  | .flushTick enabled flushOk => .flushTick hostTimeNs enabled flushOk dropped

/-- The threads that add to the counters. -/
inductive Thread where
  | flush
  | delivery (k : Nat)
  deriving Repr, DecidableEq

/-- The next step of an `_enqueue` call. `full` and `error` load the counter, and
`fullLoaded` and `errorLoaded` store it. -/
inductive DeliveryPc (ρ : Type) where
  | put (row : ρ)
  | full
  | fullLoaded
  | error (text : String)
  | errorLoaded (text : String)
  | done
  deriving Repr, DecidableEq

/-- A call of `_enqueue` by a monitor. -/
structure Delivery (ρ : Type) where
  monitor : Monitor
  pc : DeliveryPc ρ
  deriving Repr, DecidableEq

/-- The call has not returned. -/
def Delivery.underWay {ρ : Type} (d : Delivery ρ) : Bool :=
  match d.pc with
  | .done => false
  | _     => true

/-- The next step of the flush thread. `calls` are the calls still to make, in the
final stop or in a round. -/
inductive FlushPc where
  | test
  | run (calls : List LoopCall) (final : Bool)
  | full (calls : List LoopCall) (final : Bool)
  | fullLoaded (calls : List LoopCall) (final : Bool)
  | ended
  deriving Repr, DecidableEq

/-- The next step of the writer thread. -/
inductive WriterPc (ρ : Type) where
  | test
  | testEmpty
  | get
  | write (item : Item ρ)
  | exited
  deriving Repr, DecidableEq

/-- The next step of `stop`. -/
inductive StopPc where
  | call
  | joinFlush
  | setDone
  | joinWriter
  | returned
  deriving Repr, DecidableEq

/-- What the threads share, and where they are. `lastError` is what the callbacks
set, and `loop` holds the variables of the flush thread. -/
structure State (ρ : Type) where
  queueSize : Nat
  items : List (Item ρ)
  dropped : Counter Thread
  callbackErrors : Counter Thread
  lastError : Option String
  lines : List (Item ρ)
  stopRequested : Bool
  writerDone : Bool
  kernelLive : Bool
  communicationLive : Bool
  deliveries : List (Delivery ρ)
  loop : Loop
  flush : FlushPc
  writer : WriterPc ρ
  stop : StopPc
  accepted : List (Item ρ)
  offered : Nat

namespace State

variable {ρ : Type}

/-- The state after `start`. -/
def start (queueSize : Nat) : State ρ where
  queueSize := queueSize
  items := []
  dropped := .zero
  callbackErrors := .zero
  lastError := none
  lines := []
  stopRequested := false
  writerDone := false
  kernelLive := false
  communicationLive := false
  deliveries := []
  loop := .init
  flush := .test
  writer := .test
  stop := .call
  accepted := []
  offered := 0

/-- A monitor may deliver. -/
def live (s : State ρ) : Monitor → Bool
  | .kernel        => s.kernelLive
  | .communication => s.communicationLive

def setLive (s : State ρ) (m : Monitor) (b : Bool) : State ρ :=
  match m with
  | .kernel        => { s with kernelLive := b }
  | .communication => { s with communicationLive := b }

/-- The queue takes an item. -/
def accept (s : State ρ) (item : Item ρ) : State ρ :=
  { s with items := s.items ++ [item], accepted := s.accepted ++ [item] }

/-- A delivery of the monitor is under way. -/
def busy (s : State ρ) (m : Monitor) : Bool :=
  s.deliveries.any fun d => d.monitor = m && d.underWay

/-- Delivery `k` goes on with `pc`. -/
def setDelivery (s : State ρ) (k : Nat) (pc : DeliveryPc ρ) : State ρ :=
  { s with deliveries := s.deliveries.modify k fun d => { d with pc } }

/-! ### `_enqueue` -/

/-- A monitor calls `_enqueue`. `row` is what `_record` returns, or raises. -/
def deliver (s : State ρ) (m : Monitor) (row : Except String ρ) : Option (State ρ) :=
  if s.live m then
    some { s with
      deliveries := s.deliveries ++
        [⟨m, match row with | .ok row => .put row | .error e => .error e⟩]
      offered := s.offered + 1 }
  else none

/-- The next step of delivery `k`. -/
def delivery (s : State ρ) (k : Nat) : Option (State ρ) :=
  s.deliveries[k]?.bind fun d =>
    match d.pc with
    | .put row =>
        -- `put_nowait`, or `queue.Full`.
        if s.items.length < s.queueSize then some ((s.accept (.activity row)).setDelivery k .done)
        else some (s.setDelivery k .full)
    -- `self.dropped += 1` is a load and a store, and another thread may come between them.
    | .full =>
        some ({ s with dropped := s.dropped.load (.delivery k) }.setDelivery k .fullLoaded)
    | .fullLoaded =>
        some ({ s with dropped := s.dropped.store (.delivery k) }.setDelivery k .done)
    -- The `except` branch of the callback.
    | .error text =>
        some ({ s with callbackErrors := s.callbackErrors.load (.delivery k) }.setDelivery k
          (.errorLoaded text))
    | .errorLoaded text =>
        some ({ s with
          callbackErrors := s.callbackErrors.store (.delivery k)
          lastError := some ("callback " ++ text) }.setDelivery k .done)
    | .done => none

/-! ### `_flush_loop` -/

/-- The flush thread goes on with the calls that lead from its loop to `loop'`. -/
def beginRound (s : State ρ) (loop' : Loop) (final : Bool) : State ρ :=
  { s with
    loop := loop'
    flush := .run (loop'.calls.drop s.loop.calls.length) final }

/-- A call of the flush thread. A `stop` of a monitor returns when no delivery of
the monitor is under way. -/
def makeCall (s : State ρ) (hostTimeNs : Nat) (calls : List LoopCall) (final : Bool) :
    LoopCall → Option (State ρ)
  | .start m _ answer =>
      some ({ s with flush := .run calls final }.setLive m (s.live m || answer == Answer.success))
  -- A `stop` that raises leaves the monitor as it is.
  | .stop _ (.raised _) => some { s with flush := .run calls final }
  | .stop m _ =>
      if s.busy m then none else some ({ s with flush := .run calls final }.setLive m false)
  | .flushAll _ => some { s with flush := .run calls final }
  -- `_put_control`
  | .put item =>
      let s := { s with offered := s.offered + 1 }
      if s.items.length < s.queueSize then
        some { s.accept (item.item hostTimeNs s.dropped.value) with flush := .run calls final }
      else some { s with flush := .full calls final }

/-- The next step of the flush thread. `round` is what a round finds, if it begins
one, and `round.answers` are the answers in the final stop. -/
def flushStep (codec : Codec) (path : String) (s : State ρ) (round : Round) (hostTimeNs : Nat) :
    Option (State ρ) :=
  match s.flush with
  | .test =>
      -- `while not self.stop_requested.is_set()`
      if s.stopRequested then some (s.beginRound (finalStop s.loop round.answers) true)
      else some (s.beginRound (tick codec path s.loop round) false)
  | .run [] final => some { s with flush := if final then .ended else .test }
  | .run (call :: calls) final => s.makeCall hostTimeNs calls final call
  | .full calls final =>
      some { s with dropped := s.dropped.load .flush, flush := .fullLoaded calls final }
  | .fullLoaded calls final =>
      some { s with dropped := s.dropped.store .flush, flush := .run calls final }
  | .ended => none

/-! ### `_write_loop` -/

/-- The next step of the writer thread. A `get` that finds the queue empty times
out. -/
def writerStep (s : State ρ) : Option (State ρ) :=
  match s.writer with
  -- `while not self.writer_done.is_set() or not self.items.empty()`
  | .test => some { s with writer := if s.writerDone then .testEmpty else .get }
  | .testEmpty => some { s with writer := if s.items.isEmpty then .exited else .get }
  | .get =>
      match s.items with
      | []            => some { s with writer := .test }
      | item :: items => some { s with items, writer := .write item }
  | .write item => some { s with lines := s.lines ++ [item], writer := .test }
  | .exited => none

/-! ### `stop` -/

/-- The next step of `stop`. -/
def stopStep (s : State ρ) : Option (State ρ) :=
  match s.stop with
  | .call => some { s with stopRequested := true, stop := .joinFlush }
  -- `flush_thread.join` returns when the thread has ended.
  | .joinFlush => if s.flush = .ended then some { s with stop := .setDone } else none
  | .setDone => some { s with writerDone := true, stop := .joinWriter }
  | .joinWriter =>
      match s.writer with
      | .exited => some { s with stop := .returned }
      | _       => none
  | .returned => none

end State

/-- One step of one thread, or a monitor that calls `_enqueue`. -/
inductive Action (ρ : Type) where
  | deliver (m : Monitor) (row : Except String ρ)
  | delivery (k : Nat)
  | flush (round : Round) (hostTimeNs : Nat)
  | writer
  | stop

/-- The thread that an action is a step of, if the thread adds to a counter. -/
def Action.thread? {ρ : Type} : Action ρ → Option Thread
  | .delivery k => some (.delivery k)
  | .flush _ _  => some .flush
  | _           => none

/-- The state after an action. -/
def State.step {ρ : Type} (codec : Codec) (path : String) (s : State ρ) :
    Action ρ → Option (State ρ)
  | .deliver m row          => s.deliver m row
  | .delivery k             => s.delivery k
  | .flush round hostTimeNs => s.flushStep codec path round hostTimeNs
  | .writer                 => s.writerStep
  | .stop                   => s.stopStep

end HangAnalyzer.Capture
