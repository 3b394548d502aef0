import Mathlib.Data.List.Basic
import HangAnalyzer.Capture.Machine

/-!
# `HangAnalyzer.Proofs.Capture.Threads`: what one step of the capture can do

`delivery_cases`, `flush_cases`, `writer_cases` and `stop_cases` list everything a
step of a thread can do, and are all that the proofs use of the step functions.
`turn_step` says what a step does to the two counters: a thread that has loaded one
of them stores it next.
-/

set_option autoImplicit false

namespace HangAnalyzer.Capture

open HangAnalyzer.Lib

/-! ### The two counters -/

/-- The counters that several threads add to. -/
inductive Tally where
  | dropped
  | callbackErrors
  deriving DecidableEq

/-- The counter that a delivery has loaded, and not stored yet. -/
def DeliveryPc.loaded {ρ : Type} : DeliveryPc ρ → Option Tally
  | fullLoaded    => some .dropped
  | errorLoaded _ => some .callbackErrors
  | _             => none

/-- The counter that the flush thread has loaded, and not stored yet. -/
def FlushPc.loaded : FlushPc → Option Tally
  | fullLoaded .. => some .dropped
  | _             => none

/-- An item of the flush thread is neither taken nor counted. -/
def FlushPc.underWay : FlushPc → Bool
  | full .. | fullLoaded .. => true
  | _                       => false

/-- The item in the writer's hand. -/
def WriterPc.hand {ρ : Type} : WriterPc ρ → List (Item ρ)
  | write item => [item]
  | _          => []

namespace State

variable {ρ : Type}

def tally (s : State ρ) : Tally → Counter Thread
  | .dropped        => s.dropped
  | .callbackErrors => s.callbackErrors

/-- The counter that a thread has loaded, and not stored yet. -/
def loaded (s : State ρ) : Thread → Option Tally
  | .flush      => s.flush.loaded
  | .delivery k => s.deliveries[k]?.bind fun d => d.pc.loaded

/-- The number of items offered that are neither taken nor counted. -/
def pending (s : State ρ) : Nat :=
  s.deliveries.countP Delivery.underWay + if s.flush.underWay then 1 else 0

variable {s s' : State ρ} {codec : Codec} {path : String}

/-! ### The steps -/

/-- A callback starts, if its monitor is live. -/
theorem deliver_cases {m : Monitor} {row : Except String ρ} (h : s.deliver m row = some s') :
    s.live m = true ∧ ∃ d : Delivery ρ, d.monitor = m ∧ d.underWay = true ∧ d.pc.loaded = none ∧
      s' = { s with deliveries := s.deliveries ++ [d], offered := s.offered + 1 } := by
  unfold deliver at h
  split at h
  · rename_i hlive
    refine ⟨hlive, _, rfl, ?_, ?_, (Option.some.inj h).symm⟩
    · cases row <;> rfl
    · cases row <;> rfl
  · cases h

/-- The ways a delivery can go on: the queue takes its item or is full, or it adds to
one of the counters. -/
theorem delivery_cases {k : Nat} (h : s.delivery k = some s') :
    ∃ d, s.deliveries[k]? = some d ∧
      ((∃ row, d.pc = .put row ∧ s.items.length < s.queueSize ∧
          s' = (s.accept (.activity row)).setDelivery k .done) ∨
        (∃ row, d.pc = .put row ∧ s.queueSize ≤ s.items.length ∧ s' = s.setDelivery k .full) ∨
        (d.pc = .full ∧
          s' = { s with dropped := s.dropped.load (.delivery k) }.setDelivery k .fullLoaded) ∨
        (d.pc = .fullLoaded ∧
          s' = { s with dropped := s.dropped.store (.delivery k) }.setDelivery k .done) ∨
        (∃ text, d.pc = .error text ∧
          s' = { s with callbackErrors := s.callbackErrors.load (.delivery k) }.setDelivery k
            (.errorLoaded text)) ∨
        (∃ text, d.pc = .errorLoaded text ∧
          s' = { s with
            callbackErrors := s.callbackErrors.store (.delivery k)
            lastError := some ("callback " ++ text) }.setDelivery k .done)) := by
  obtain ⟨d, hd, h⟩ := Option.bind_eq_some_iff.mp h
  refine ⟨d, hd, ?_⟩
  -- `queue.put` takes the row only while there is room.
  split at h
  · rename_i row hpc
    split at h
    · rename_i hroom
      exact Or.inl ⟨row, hpc, hroom, (Option.some.inj h).symm⟩
    · rename_i hfull
      exact Or.inr (Or.inl ⟨row, hpc, Nat.le_of_not_lt hfull, (Option.some.inj h).symm⟩)
  · rename_i hpc
    exact Or.inr (Or.inr (Or.inl ⟨hpc, (Option.some.inj h).symm⟩))
  · rename_i hpc
    exact Or.inr (Or.inr (Or.inr (Or.inl ⟨hpc, (Option.some.inj h).symm⟩)))
  · rename_i text hpc
    exact Or.inr (Or.inr (Or.inr (Or.inr (Or.inl ⟨text, hpc, (Option.some.inj h).symm⟩))))
  · rename_i text hpc
    exact Or.inr (Or.inr (Or.inr (Or.inr (Or.inr ⟨text, hpc, (Option.some.inj h).symm⟩))))
  · cases h

/-- The flush thread moves on without touching the queue or a counter. A live monitor stays
live unless none of its deliveries is under way. -/
def FlushMoves (s s' : State ρ) : Prop :=
  ∃ loop' flush' kernelLive communicationLive,
    s' = { s with loop := loop', flush := flush', kernelLive, communicationLive } ∧
    s.flush ≠ .ended ∧ s.flush.underWay = false ∧ s.flush.loaded = none ∧
    flush'.underWay = false ∧ flush'.loaded = none ∧
    ∀ m, s.live m = true → s'.live m = true ∨ s.busy m = false

/-- The monitors stay as they are. -/
theorem flushMoves_keep {loop' : Loop} {flush' : FlushPc} (hended : s.flush ≠ .ended)
    (hway : s.flush.underWay = false) (hloaded : s.flush.loaded = none)
    (hway' : flush'.underWay = false) (hloaded' : flush'.loaded = none) :
    s.FlushMoves { s with loop := loop', flush := flush' } :=
  ⟨loop', flush', s.kernelLive, s.communicationLive, rfl, hended, hway, hloaded, hway', hloaded',
    fun _ hm => Or.inl hm⟩

/-- One monitor changes. -/
theorem flushMoves_setLive {call : LoopCall} {calls : List LoopCall} {final : Bool}
    (hflush : s.flush = .run (call :: calls) final) {m : Monitor} {b : Bool}
    (hb : s.live m = true → b = true ∨ s.busy m = false) :
    s.FlushMoves ({ s with flush := .run calls final }.setLive m b) := by
  have hrun : s.flush ≠ .ended ∧ s.flush.underWay = false ∧ s.flush.loaded = none := by
    rw [hflush]
    exact ⟨by simp, rfl, rfl⟩
  obtain ⟨hended, hway, hloaded⟩ := hrun
  -- The other monitor stays as it is.
  cases m with
  | kernel =>
      refine ⟨s.loop, .run calls final, b, s.communicationLive, rfl, hended, hway, hloaded,
        rfl, rfl, fun m' hm' => ?_⟩
      cases m' with
      | kernel => exact hb hm'
      | communication => exact Or.inl hm'
  | communication =>
      refine ⟨s.loop, .run calls final, s.kernelLive, b, rfl, hended, hway, hloaded, rfl, rfl,
        fun m' hm' => ?_⟩
      cases m' with
      | kernel => exact Or.inl hm'
      | communication => exact hb hm'

/-- The ways a call of the flush thread can end: the thread moves on, its item is taken, or
the queue is full. -/
theorem makeCall_cases {hostTimeNs : Nat} {call : LoopCall} {calls : List LoopCall} {final : Bool}
    (hflush : s.flush = .run (call :: calls) final)
    (h : s.makeCall hostTimeNs calls final call = some s') :
    s.FlushMoves s' ∨
      (∃ item, s' = { ({ s with offered := s.offered + 1 }.accept item) with
        flush := .run calls final }) ∨
      s' = { s with offered := s.offered + 1, flush := .full calls final } := by
  have hkeep : s.FlushMoves { s with flush := .run calls final } :=
    flushMoves_keep (by simp [hflush]) (by rw [hflush]; rfl) (by rw [hflush]; rfl) rfl rfl
  unfold makeCall at h
  split at h
  · rename_i m running answer
    obtain rfl := Option.some.inj h
    exact Or.inl (flushMoves_setLive hflush fun hlive => Or.inl (by rw [hlive, Bool.true_or]))
  · -- A `stop` that raises leaves the monitor as it is.
    obtain rfl := Option.some.inj h
    exact Or.inl hkeep
  · rename_i m answer _
    split at h
    · cases h
    · rename_i hidle
      obtain rfl := Option.some.inj h
      exact Or.inl (flushMoves_setLive hflush fun _ => Or.inr (Bool.eq_false_iff.mpr hidle))
  · obtain rfl := Option.some.inj h
    exact Or.inl hkeep
  · -- An item that `put` has no room for is counted, as in a callback.
    dsimp only at h
    split at h
    · obtain rfl := Option.some.inj h
      exact Or.inr (Or.inl ⟨_, rfl⟩)
    · obtain rfl := Option.some.inj h
      exact Or.inr (Or.inr rfl)

/-- The ways the flush thread can go on: it moves on without touching the queue or a
counter, its item is taken, the queue is full, or it adds to the counter. -/
theorem flush_cases {round : Round} {hostTimeNs : Nat}
    (h : s.flushStep codec path round hostTimeNs = some s') :
    s.FlushMoves s' ∨
      (∃ call calls final item, s.flush = .run (call :: calls) final ∧
        s' = { ({ s with offered := s.offered + 1 }.accept item) with flush := .run calls final }) ∨
      (∃ call calls final, s.flush = .run (call :: calls) final ∧
        s' = { s with offered := s.offered + 1, flush := .full calls final }) ∨
      (∃ calls final, s.flush = .full calls final ∧
        s' = { s with dropped := s.dropped.load .flush, flush := .fullLoaded calls final }) ∨
      (∃ calls final, s.flush = .fullLoaded calls final ∧
        s' = { s with dropped := s.dropped.store .flush, flush := .run calls final }) := by
  unfold flushStep at h
  split at h
  · rename_i hflush
    refine Or.inl ?_
    split at h
    · -- The loop ends here, or its next round begins.
      obtain rfl := Option.some.inj h
      exact flushMoves_keep (by simp [hflush]) (by rw [hflush]; rfl) (by rw [hflush]; rfl) rfl rfl
    · obtain rfl := Option.some.inj h
      exact flushMoves_keep (by simp [hflush]) (by rw [hflush]; rfl) (by rw [hflush]; rfl) rfl rfl
  · rename_i final hflush
    obtain rfl := Option.some.inj h
    refine Or.inl (flushMoves_keep (by simp [hflush]) (by rw [hflush]; rfl) (by rw [hflush]; rfl)
      ?_ ?_)
    · -- The thread ends only after its last round.
      cases final <;> rfl
    · cases final <;> rfl
  · rename_i call calls final hflush
    rcases makeCall_cases hflush h with hmoves | ⟨item, heq⟩ | heq
    · exact Or.inl hmoves
    · exact Or.inr (Or.inl ⟨call, calls, final, item, hflush, heq⟩)
    · exact Or.inr (Or.inr (Or.inl ⟨call, calls, final, hflush, heq⟩))
  · rename_i calls final hflush
    exact Or.inr (Or.inr (Or.inr (Or.inl ⟨calls, final, hflush, (Option.some.inj h).symm⟩)))
  · rename_i calls final hflush
    exact Or.inr (Or.inr (Or.inr (Or.inr ⟨calls, final, hflush, (Option.some.inj h).symm⟩)))
  · cases h

/-- The ways the writer can go on. -/
theorem writer_cases (h : s.writerStep = some s') :
    (∃ writer', s' = { s with writer := writer' } ∧ s.writer ≠ .exited ∧ s.writer.hand = [] ∧
        writer'.hand = [] ∧ (writer' = .testEmpty → s.writerDone = true) ∧
        (writer' = .exited → s.writer = .testEmpty ∧ s.items = [])) ∨
      (∃ item items, s.writer = .get ∧ s.items = item :: items ∧
        s' = { s with items := items, writer := .write item }) ∨
      (∃ item, s.writer = .write item ∧
        s' = { s with lines := s.lines ++ [item], writer := .test }) := by
  unfold writerStep at h
  split at h
  · rename_i hwriter
    -- It leaves the loop only when `writer_done` is set.
    refine Or.inl ⟨_, (Option.some.inj h).symm, by simp [hwriter], by simp [hwriter, WriterPc.hand],
      ?_, ?_, ?_⟩ <;> split <;> simp_all [WriterPc.hand]
  · rename_i hwriter
    refine Or.inl ⟨_, (Option.some.inj h).symm, by simp [hwriter], by simp [hwriter, WriterPc.hand],
      ?_, ?_, ?_⟩ <;> split <;> simp_all [WriterPc.hand]
  · rename_i hwriter
    -- An empty queue lets it test again after the timeout.
    split at h
    · exact Or.inl ⟨_, (Option.some.inj h).symm, by simp [hwriter],
        by simp [hwriter, WriterPc.hand], rfl, by simp, by simp⟩
    · rename_i item items hitems
      exact Or.inr (Or.inl ⟨item, items, hwriter, hitems, (Option.some.inj h).symm⟩)
  · rename_i item hwriter
    exact Or.inr (Or.inr ⟨item, hwriter, (Option.some.inj h).symm⟩)
  · cases h

/-- The ways `stop` can go on. -/
theorem stop_cases (h : s.stopStep = some s') :
    (s.stop = .call ∧ s' = { s with stopRequested := true, stop := .joinFlush }) ∨
      (s.stop = .joinFlush ∧ s.flush = .ended ∧ s' = { s with stop := .setDone }) ∨
      (s.stop = .setDone ∧ s' = { s with writerDone := true, stop := .joinWriter }) ∨
      (s.stop = .joinWriter ∧ s.writer = .exited ∧ s' = { s with stop := .returned }) := by
  unfold stopStep at h
  split at h
  · rename_i hstop
    exact Or.inl ⟨hstop, (Option.some.inj h).symm⟩
  · rename_i hstop
    split at h
    · rename_i hended
      exact Or.inr (Or.inl ⟨hstop, hended, (Option.some.inj h).symm⟩)
    · cases h
  · rename_i hstop
    exact Or.inr (Or.inr (Or.inl ⟨hstop, (Option.some.inj h).symm⟩))
  · rename_i hstop
    split at h
    · rename_i hexited
      exact Or.inr (Or.inr (Or.inr ⟨hstop, hexited, (Option.some.inj h).symm⟩))
    · cases h
  · cases h

/-! ### The counters in a step -/

/-- A step as the counters see it: nothing, a load or a store by its thread. -/
inductive Turn (s : State ρ) (thread : Option Thread) (s' : State ρ) : Prop where
  | keep (free : ∀ t, thread = some t → s.loaded t = none)
      (loaded : s'.loaded = s.loaded) (tally : s'.tally = s.tally)
  | load (t : Thread) (c : Tally) (own : thread = some t) (free : s.loaded t = none)
      (loaded : s'.loaded = Function.update s.loaded t (some c))
      (tally : s'.tally = Function.update s.tally c ((s.tally c).load t))
  | store (t : Thread) (c : Tally) (own : thread = some t) (held : s.loaded t = some c)
      (loaded : s'.loaded = Function.update s.loaded t none)
      (tally : s'.tally = Function.update s.tally c ((s.tally c).store t))

/-- A step that changes `dropped` only. -/
theorem tally_dropped {c : Counter Thread} (hdropped : s'.dropped = c)
    (herrors : s'.callbackErrors = s.callbackErrors) :
    s'.tally = Function.update s.tally .dropped c := by
  funext c'
  cases c' with
  | dropped => exact hdropped
  | callbackErrors => exact herrors

/-- A step that changes `callback_errors` only. -/
theorem tally_callbackErrors {c : Counter Thread} (hdropped : s'.dropped = s.dropped)
    (herrors : s'.callbackErrors = c) :
    s'.tally = Function.update s.tally .callbackErrors c := by
  funext c'
  cases c' with
  | dropped => exact hdropped
  | callbackErrors => exact herrors

/-- A step of a delivery changes what this delivery has loaded. -/
theorem loaded_setDelivery {k : Nat} {d : Delivery ρ} (hd : s.deliveries[k]? = some d)
    (pc : DeliveryPc ρ) :
    (s.setDelivery k pc).loaded = Function.update s.loaded (.delivery k) pc.loaded := by
  funext t
  cases t with
  | flush => rfl
  | delivery j =>
      -- The other deliveries keep what they have loaded.
      show ((s.deliveries.modify k _)[j]?.bind fun d => d.pc.loaded) = _
      by_cases hj : j = k
      · subst hj
        rw [Function.update_self, List.getElem?_modify_eq, hd]
        rfl
      · rw [Function.update_of_ne (by simpa using hj), List.getElem?_modify_ne _ _ (Ne.symm hj)]
        rfl

/-- A step of the flush thread changes what this thread has loaded. -/
theorem loaded_flush (flush' : FlushPc) :
    ({ s with flush := flush' } : State ρ).loaded
      = Function.update s.loaded .flush flush'.loaded := by
  funext t
  cases t with
  | flush => rfl
  | delivery k => rfl

/-- A thread that has loaded nothing, before and after the step. -/
theorem Turn.idle {t : Thread} (hfree : s.loaded t = none)
    (hloaded : s'.loaded = Function.update s.loaded t none) (htally : s'.tally = s.tally) :
    Turn s (some t) s' := by
  refine .keep (fun u hu => ?_) ?_ htally
  · rwa [← Option.some.inj hu]
  · rw [hloaded, ← hfree, Function.update_eq_self]

/-- A step of a delivery is a turn of its thread. -/
theorem turn_delivery {k : Nat} (h : s.delivery k = some s') :
    Turn s (some (.delivery k)) s' := by
  obtain ⟨d, hd, h⟩ := delivery_cases h
  have hloaded : s.loaded (.delivery k) = d.pc.loaded := by
    show (s.deliveries[k]?.bind fun d => d.pc.loaded) = _
    rw [hd]
    rfl
  -- The accesses to the counters are those of the lines in the callback.
  rcases h with ⟨row, hpc, -, rfl⟩ | ⟨row, hpc, -, rfl⟩ | ⟨hpc, rfl⟩ | ⟨hpc, rfl⟩ |
    ⟨text, hpc, rfl⟩ | ⟨text, hpc, rfl⟩
  · rw [hpc] at hloaded
    exact .idle hloaded (loaded_setDelivery hd _) rfl
  · rw [hpc] at hloaded
    exact .idle hloaded (loaded_setDelivery hd _) rfl
  · rw [hpc] at hloaded
    exact .load _ .dropped rfl hloaded (loaded_setDelivery hd _) (tally_dropped rfl rfl)
  · rw [hpc] at hloaded
    exact .store _ .dropped rfl hloaded (loaded_setDelivery hd _) (tally_dropped rfl rfl)
  · rw [hpc] at hloaded
    exact .load _ .callbackErrors rfl hloaded (loaded_setDelivery hd _)
      (tally_callbackErrors rfl rfl)
  · rw [hpc] at hloaded
    exact .store _ .callbackErrors rfl hloaded (loaded_setDelivery hd _)
      (tally_callbackErrors rfl rfl)

/-- A step of the flush thread is a turn of it. -/
theorem turn_flush {round : Round} {hostTimeNs : Nat}
    (h : s.flushStep codec path round hostTimeNs = some s') : Turn s (some .flush) s' := by
  rcases flush_cases h with ⟨_, _, _, _, rfl, -, -, hfree, -, hloaded, -⟩ |
    ⟨_, _, _, _, hflush, rfl⟩ | ⟨_, _, _, hflush, rfl⟩ | ⟨_, _, hflush, rfl⟩ | ⟨_, _, hflush, rfl⟩
  · -- The thread only moves on, and holds no load across it.
    have hfree : s.loaded .flush = none := hfree
    refine .idle hfree ?_ rfl
    rw [← hloaded]
    exact loaded_flush _
  · have hfree : s.loaded .flush = none := by
      show s.flush.loaded = none
      rw [hflush]
      rfl
    exact .idle hfree (loaded_flush _) rfl
  · have hfree : s.loaded .flush = none := by
      show s.flush.loaded = none
      rw [hflush]
      rfl
    exact .idle hfree (loaded_flush _) rfl
  · have hfree : s.loaded .flush = none := by
      show s.flush.loaded = none
      rw [hflush]
      rfl
    exact .load _ .dropped rfl hfree (loaded_flush _) (tally_dropped rfl rfl)
  · have hheld : s.loaded .flush = some .dropped := by
      show s.flush.loaded = _
      rw [hflush]
      rfl
    exact .store _ .dropped rfl hheld (loaded_flush _) (tally_dropped rfl rfl)

/-- A callback that starts has loaded nothing. -/
theorem turn_deliver {m : Monitor} {row : Except String ρ} (h : s.deliver m row = some s') :
    Turn s none s' := by
  obtain ⟨-, d, -, -, hfree, rfl⟩ := deliver_cases h
  refine .keep (fun t ht => by cases ht) ?_ rfl
  funext t
  cases t with
  | flush => rfl
  | delivery j =>
      -- The new delivery comes last, so the others keep their numbers.
      show ((s.deliveries ++ [d])[j]?.bind fun d => d.pc.loaded) = _
      rw [List.getElem?_append]
      split
      · rfl
      · rename_i hj
        have hnone : s.loaded (.delivery j) = none := by
          show (s.deliveries[j]?.bind fun d => d.pc.loaded) = none
          rw [List.getElem?_eq_none (Nat.le_of_not_lt hj)]
          rfl
        rw [hnone]
        cases hk : [d][j - s.deliveries.length]? with
        | none => rfl
        | some d' =>
            obtain rfl : d' = d := by simpa using List.mem_of_getElem? hk
            exact hfree

/-- What any step does to the counters. -/
theorem turn_step {a : Action ρ} (h : s.step codec path a = some s') : Turn s a.thread? s' := by
  cases a with
  | deliver m row => exact turn_deliver h
  | delivery k => exact turn_delivery h
  | flush round hostTimeNs => exact turn_flush h
  | writer =>
      rcases writer_cases h with ⟨_, rfl, -⟩ | ⟨_, _, -, -, rfl⟩ | ⟨_, -, rfl⟩
      all_goals exact .keep (fun t ht => by cases ht) rfl rfl
  | stop =>
      rcases stop_cases h with ⟨-, rfl⟩ | ⟨-, -, rfl⟩ | ⟨-, rfl⟩ | ⟨-, -, rfl⟩
      all_goals exact .keep (fun t ht => by cases ht) rfl rfl

end State

end HangAnalyzer.Capture
