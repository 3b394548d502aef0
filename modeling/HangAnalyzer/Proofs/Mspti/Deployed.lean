import HangAnalyzer.Mspti.Deployed
import HangAnalyzer.Proofs.Mspti.Governed
import HangAnalyzer.Proofs.Mspti.Switched

/-!
# `HangAnalyzer.Proofs.Mspti.Deployed`: the control file switches the sources

`hang_mspti_set_enabled` alone can return 0 and leave half of the sources on. The worker
never lets it: it makes no call after one that failed. So in the deployed system every 0 is
true, whatever the system and msPTI answer.

`InStep` is the invariant of a thread that runs. Either the library was never called, or
the ring is open and all five sources are as the worker believes. `sources_follow_file`
draws the conclusions: the sources follow the control file from tick to tick, a failure
ends the calls and leaves its error file, and the end of the thread closes the ring.

The end of the thread calls `msptiUnsubscribe`, whose result nobody looks at. Where it
fails, the library forgets its subscriber and msPTI keeps it.
-/

set_option autoImplicit false

namespace HangAnalyzer.Mspti

open HangAnalyzer.Lib

/-- The ring is open in the process: it is the only mapping, its file has the only
descriptor, and msPTI has the subscriber of the library and no other one. -/
structure Switch.State.Ring (s : Switch.State) (pid : UInt32) : Prop where
  header : s.header.isSome
  owner : s.owner = pid
  maps : s.maps = [s.size]
  fds : s.fds = s.fd.toList
  subscriber : s.subscriber.isSome
  subscribers : s.subscribers = s.subscriber.toList

/-- The ring is open in the process, and all sources are as `collecting` says. -/
structure Switch.State.Open (s : Switch.State) (pid : UInt32) (collecting : Bool) : Prop
    extends s.Ring pid where
  enabled : s.enabled = collecting
  on : ∀ src, s.on src = collecting

/-- The library has no ring and no subscriber, and the process has no mapping and no
descriptor of one. -/
structure Switch.State.Released (s : Switch.State) : Prop where
  header : s.header = none
  fd : s.fd = none
  subscriber : s.subscriber = none
  maps : s.maps = []
  fds : s.fds = []

/-- No ring was ever open, and msPTI has no subscriber. -/
structure Switch.State.Unopened (s : Switch.State) : Prop extends s.Released where
  enabled : s.enabled = false
  subscribers : s.subscribers = []

/-- A worker that runs is in step with the library. -/
structure InStep (pid : UInt32) (w : Worker) (before after : Switch.State) : Prop where
  idle : w.active = false → w.collecting = false ∧ after = before
  busy : w.active = true → after.Open pid w.collecting

/-! ### The calls -/

section
open Switch

variable {s : State} {pid : UInt32} {collecting : Bool}

/-- `set_enabled_locked` leaves the ring and the subscriber alone. -/
theorem Switch.State.Ring.setEnabledLocked (h : s.Ring pid) (enabled : Bool)
    (answers : Source → Int) : (s.setEnabledLocked pid enabled answers).1.Ring pid := by
  obtain ⟨on, b, log, heq⟩ := s.setEnabledLocked_eq pid enabled answers
  rw [heq]
  exact ⟨h.header, h.owner, h.maps, h.fds, h.subscriber, h.subscribers⟩

/-- A first start has opened its ring when it switches the sources on. -/
theorem Switch.State.Unopened.ring_subscribed (h : s.Unopened) (path : String)
    (capacity : UInt64) (answers : StartAnswers) (fd subscriber : Nat) :
    (s.subscribed pid path capacity answers fd subscriber).Ring pid := by
  obtain ⟨pool, heap, log, heq⟩ := State.fillPool_eq
    ((s.opened path capacity fd).mapRing pid capacity) pid answers.memalign 0 BUFFER_COUNT
  rw [State.subscribed, State.filled, heq]
  -- Only the pool, the heap and the log change while the pool is filled.
  refine ⟨rfl, rfl, ?_, ?_, rfl, ?_⟩
  · show s.maps ++ [_] = [_]
    rw [h.maps]
    rfl
  · show s.fds ++ [fd] = [fd]
    rw [h.fds]
    rfl
  · show s.subscribers ++ [subscriber] = [subscriber]
    rw [h.subscribers]
    rfl

/-- A first start that returns 0 opens the ring and switches all sources on. -/
theorem open_of_start {path : String} {capacity : UInt64} {answers : StartAnswers}
    (hunopened : s.Unopened)
    (hzero : (s.hangMsptiStart pid (some path) capacity answers).2 = 0) :
    (s.hangMsptiStart pid (some path) capacity answers).1.Open pid true := by
  have hstart := State.hangMsptiStart_cases s pid (some path) capacity answers
  generalize s.hangMsptiStart pid (some path) capacity answers = r at hstart hzero
  -- A result other than 0 is excluded, so the start got to its end.
  cases hstart with
  | refused _ herror => exact absurd hzero herror
  | unopened _ _ herror => exact absurd hzero herror
  | unmapped _ _ _ herror => exact absurd hzero herror
  | unfilled => cases hzero
  | @unsubscribed _ _ e => exact absurd hzero e.ne
  | unregistered _ _ herror => exact absurd hzero herror
  | unswitched _ _ herror => exact absurd hzero herror
  | @started path fd subscriber hmaps hcompletes =>
      have hok := (s.switched_eq_zero_iff pid path capacity answers fd subscriber).mpr
        hcompletes.enable
      have hring : (s.subscribed pid path capacity answers fd subscriber).Ring pid :=
        hunopened.ring_subscribed path capacity answers fd subscriber
      show (s.switched pid path capacity answers fd subscriber).1.Open pid true
      rw [State.switched] at hok ⊢
      rcases State.setEnabledLocked_cases (s.subscribed pid path capacity answers fd subscriber) pid
        true answers.enable with ⟨hsame, -⟩ | ⟨-, -, hset, hon⟩ | ⟨-, herror, -⟩
      · rw [State.enabled_subscribed, hunopened.enabled] at hsame
        cases hsame
      · exact ⟨hring.setEnabledLocked true answers.enable, hset, hon⟩
      · exact absurd hok herror

/-- A switch that returns 0 does what it says. -/
theorem Switch.State.Open.setEnabled (h : s.Open pid collecting) {enabled : Bool}
    {answers : Source → Int} (hzero : (s.hangMsptiSetEnabled pid enabled answers).2 = 0) :
    (s.hangMsptiSetEnabled pid enabled answers).1.Open pid enabled := by
  rcases State.hangMsptiSetEnabled_cases s pid enabled answers with ⟨hnot, -⟩ | ⟨hheader, -, heq⟩
  · exact absurd ⟨h.header, h.owner.symm⟩ hnot
  · rw [heq] at hzero ⊢
    rcases State.setEnabledLocked_cases s pid enabled answers with
      ⟨hsame, hnothing⟩ | ⟨-, -, hset, hon⟩ | ⟨-, herror, -⟩
    · -- Nothing had to be switched, since the flag says it already.
      have hcollecting : collecting = enabled := h.enabled.symm.trans hsame.symm
      rw [hnothing]
      exact hcollecting ▸ h
    · exact ⟨h.toRing.setEnabledLocked enabled answers, hset, hon⟩
    · exact absurd hzero herror

/-- A flush switches nothing. -/
theorem Switch.State.Open.flush (h : s.Open pid collecting) (result : Int) :
    (s.hangMsptiFlush pid result).1.Open pid collecting := by
  unfold Switch.State.hangMsptiFlush State.check
  split
  · exact h
  · split
    · exact h
    · obtain ⟨log, heq⟩ := s.record_eq pid result "flush"
      rw [heq]
      exact ⟨⟨h.header, h.owner, h.maps, h.fds, h.subscriber, h.subscribers⟩, h.enabled, h.on⟩

/-- A stop unmaps the ring and closes its file, whatever msPTI answers. -/
theorem Switch.State.Open.stop (h : s.Open pid collecting) (answers : Source → Int)
    (unsubscribe : Int) :
    (s.hangMsptiStop pid answers unsubscribe).Released ∧
      ((s.hangMsptiStop pid answers unsubscribe).subscribers = [] ↔ unsubscribe = 0) := by
  -- The process has the library open, so the stop is not ignored.
  have hopen : ¬ (s.header.isNone ∨ pid ≠ s.owner) := by
    rw [h.owner, Option.isNone_iff_eq_none, ← Option.not_isSome_iff_eq_none]
    simp [h.header]
  have hring := h.toRing.setEnabledLocked false answers
  rw [State.hangMsptiStop, if_neg hopen]
  generalize (s.setEnabledLocked pid false answers).1 = t at hring ⊢
  obtain ⟨subscriber, hsubscriber⟩ := Option.isSome_iff_exists.mp hring.subscriber
  have hsubscribers : t.subscribers = [subscriber] := by rw [hring.subscribers, hsubscriber]; rfl
  -- Only the answer of `msptiUnsubscribe` decides whether a subscriber is left.
  have hclosed : (t.unsubscribe unsubscribe) = { t with
      subscriber := none
      subscribers := if unsubscribe = 0 then [] else [subscriber] } := by
    rw [State.unsubscribe, hsubscriber]
    dsimp only
    rw [hsubscribers, List.erase_cons_head]
  rw [hclosed]
  refine ⟨⟨rfl, rfl, rfl, ?_, ?_⟩, ?_⟩
  · show (if t.header.isSome then t.maps.erase t.size else t.maps) = []
    rw [if_pos hring.header, hring.maps, List.erase_cons_head]
  · simp only [State.cleanupMap, hring.fds]
    cases t.fd with
    | none => rfl
    | some fd => exact List.erase_cons_head ..
  · show (if unsubscribe = 0 then [] else [subscriber]) = [] ↔ unsubscribe = 0
    split <;> simp_all

end

/-! ### The trace -/

section
variable {pid : UInt32} {before after : Switch.State} {calls : List LibraryCall} {c : LibraryCall}
  {files : List String}

/-- The last call was performed after the others. -/
theorem performed_concat (h : Performed pid before (calls ++ [c]) after) :
    ∃ t answers, Performed pid before calls t ∧ (c.perform pid t answers).2 = c.result ∧
      (c.perform pid t answers).1 = after := by
  generalize hlist : calls ++ [c] = l at h
  cases h with
  | nil => simp at hlist
  | @concat calls' t c' answers hbefore hresult =>
      obtain ⟨rfl, hlast⟩ := List.append_inj' hlist rfl
      obtain rfl := List.singleton_inj.mp hlast
      exact ⟨t, answers, hbefore, hresult, rfl⟩

/-- Whatever the library and the system have answered in the calls of the worker, it is in
step with the library. -/
def Follows (pid : UInt32) (before : Switch.State) (w : Worker) : Prop :=
  ∀ after, Performed pid before w.calls after → InStep pid w before after

variable {codec : Codec} {settings : Settings} {w : Worker}

/-- A flush leaves `active`. -/
theorem active_flush (result : Int) : (w.flush result).active = w.active := by
  unfold Worker.flush
  split <;> rfl

/-- The library follows a worker that flushes. -/
theorem Follows.flush (h : Follows pid before w) (result : Int) :
    Follows pid before (w.flush result) := by
  unfold Worker.flush
  split
  · rename_i hcollecting
    intro after hperformed
    obtain ⟨t, answers, hbefore, -, rfl⟩ := performed_concat hperformed
    have hin := h t hbefore
    refine ⟨fun hidle => ?_, fun hactive => (hin.busy hactive).flush answers.flush⟩
    -- A library that is not open does not collect.
    have hoff := (hin.idle hidle).1
    rw [hcollecting] at hoff
    cases hoff
  · exact h

/-- A library that was loaded has opened nothing. -/
theorem unopened_freshLibrary (files : List String) : (freshLibrary files).Unopened :=
  ⟨⟨rfl, rfl, rfl, rfl, rfl⟩, rfl, rfl⟩

/-- The worker starts the library. -/
theorem Follows.start (h : Follows pid (freshLibrary files) w) (hidle : w.active = false)
    (path : String) (capacity : Nat) :
    Follows pid (freshLibrary files)
      { w.call (.start path capacity 0) with active := true, collecting := true } := by
  intro after hperformed
  obtain ⟨t, answers, hbefore, hresult, rfl⟩ := performed_concat hperformed
  have hfresh := ((h t hbefore).idle hidle).2
  have hzero := Option.some.inj hresult
  subst hfresh
  exact ⟨fun hnot => absurd hnot (by simp),
    fun _ => open_of_start (unopened_freshLibrary files) hzero⟩

/-- The worker switches the library. -/
theorem Follows.setEnabled (h : Follows pid before w) (hactive : w.active = true) (b : Bool) :
    Follows pid before { w.call (.setEnabled b 0) with collecting := b } := by
  intro after hperformed
  obtain ⟨t, answers, hbefore, hresult, rfl⟩ := performed_concat hperformed
  have hzero := Option.some.inj hresult
  have hopen := (h t hbefore).busy hactive
  refine ⟨fun hidle => ?_, fun _ => hopen.setEnabled hzero⟩
  rw [show w.active = false from hidle] at hactive
  cases hactive

/-- A tick after which the thread runs on leaves the worker in step, and as the file
says. -/
theorem Follows.tick (h : Follows pid (freshLibrary files) w)
    (hidle : w.active = false → w.collecting = false) (t : Tick)
    (hgo : (w.tick codec settings t).status = .running) :
    Follows pid (freshLibrary files) (w.tick codec settings t) ∧
      ((w.tick codec settings t).active = false → (w.tick codec settings t).collecting = false) ∧
      wanted codec t.file = .ok (w.tick codec settings t).collecting := by
  unfold Worker.tick at hgo ⊢
  -- The file cannot be decoded, and the thread ends.
  split
  · rename_i herror
    rw [herror] at hgo
    cases hgo
  · rename_i b hb
    rw [hb] at hgo
    dsimp only at hgo ⊢
    split
    · -- The file says 1 for the first time, so the library starts.
      rename_i hstart
      obtain ⟨rfl, hinactive⟩ : b = true ∧ w.active = false := by simpa using hstart
      rw [if_pos hstart] at hgo
      by_cases hzero : t.startResult = 0
      · rw [if_neg (not_not_intro hzero), hzero]
        have hnext := h.start hinactive settings.path settings.capacity
        refine ⟨hnext.flush t.flushResult, fun hnot => ?_, ?_⟩
        · rw [active_flush] at hnot
          cases hnot
        · rw [collecting_flush, hb]
      · rw [if_pos hzero] at hgo
        cases hgo
    · rename_i hnostart
      rw [if_neg hnostart] at hgo
      split
      · -- The file has changed, so the sources are switched.
        rename_i hswitch
        obtain ⟨hactive, -⟩ : w.active = true ∧ b ≠ w.collecting := by simpa using hswitch
        rw [if_pos hswitch] at hgo
        by_cases hzero : t.setEnabledResult = 0
        · rw [if_neg (not_not_intro hzero), hzero]
          have hnext := h.setEnabled hactive b
          refine ⟨hnext.flush t.flushResult, fun hnot => ?_, ?_⟩
          · rw [active_flush] at hnot
            rw [show w.active = false from hnot] at hactive
            cases hactive
          · rw [collecting_flush, hb]
        · rw [if_pos hzero] at hgo
          cases hgo
      · rename_i hnoswitch
        refine ⟨h.flush t.flushResult, fun hnot => ?_, ?_⟩
        · rw [active_flush] at hnot
          rw [collecting_flush]
          exact hidle hnot
        · -- Nothing to do: the library does what the file says already.
          rw [collecting_flush, hb]
          cases hactive : w.active with
          | false =>
              have hoff : b = false := by simpa [hactive] using hnostart
              rw [hidle hactive, hoff]
          | true =>
              have hsame : b = w.collecting := by simpa [hactive] using hnoswitch
              rw [hsame]

/-! ### The thread -/

/-- Without calls the library stays as it is. -/
theorem performed_nil (h : Performed pid before [] after) : after = before := by
  generalize hlist : ([] : List LibraryCall) = l at h
  cases h with
  | nil => rfl
  | concat => simp at hlist

/-- `start` leads to a worker in step with the library. -/
theorem follows_start {file : Option FileState} {result : Int}
    (h : start codec settings file result = .ok w) :
    Follows pid (freshLibrary files) w ∧ (w.active = false → w.collecting = false) := by
  unfold start at h
  split at h
  · cases h
  · -- The worker starts inactive, and the library has not been called.
    obtain rfl := Except.ok.inj h
    refine ⟨fun after hperformed => ?_, fun _ => rfl⟩
    obtain rfl := performed_nil hperformed
    exact ⟨fun _ => ⟨rfl, rfl⟩, fun hnot => absurd hnot (by simp)⟩
  · split at h
    · cases h
    · -- It starts with the one call that starts the library.
      rename_i hzero
      obtain rfl := Except.ok.inj h
      refine ⟨fun after hperformed => ?_, fun hnot => absurd hnot (by simp)⟩
      obtain ⟨t, answers, hbefore, hresult, rfl⟩ :=
        performed_concat (show Performed pid _ ([] ++ [_]) after from hperformed)
      obtain rfl := performed_nil hbefore
      refine ⟨fun hnot => absurd hnot (by simp), fun _ =>
        open_of_start (unopened_freshLibrary files) ?_⟩
      exact (Option.some.inj hresult).trans (not_not.mp hzero)

/-- A thread that runs is in step with the library after every tick. -/
theorem follows_run (h : Follows pid (freshLibrary files) w)
    (hidle : w.active = false → w.collecting = false) (ticks : List Tick)
    (hgo : (w.run codec settings ticks).status = .running) :
    Follows pid (freshLibrary files) (w.run codec settings ticks) ∧
      ((w.run codec settings ticks).active = false →
        (w.run codec settings ticks).collecting = false) ∧
      ∀ pre t, ticks = pre ++ [t] →
        wanted codec t.file = .ok (w.run codec settings ticks).collecting := by
  induction ticks using List.reverseRecOn with
  | nil => exact ⟨h, hidle, fun pre t heq => by simp at heq⟩
  -- The last tick is the one that ran, and it ran only if the loop had not ended.
  | append_singleton ticks t ih =>
      rw [run_concat] at hgo ⊢
      by_cases hrunning : (w.run codec settings ticks).status = .running
      · rw [if_pos hrunning] at hgo ⊢
        obtain ⟨hbefore, hidle', -⟩ := ih hrunning
        obtain ⟨hafter, hidle'', hwanted⟩ := hbefore.tick hidle' t hgo
        refine ⟨hafter, hidle'', fun pre t' heq => ?_⟩
        obtain ⟨-, hlast⟩ := List.append_inj' heq rfl
        obtain rfl := List.singleton_inj.mp hlast
        exact hwanted
      · rw [if_neg hrunning] at hgo
        exact absurd hgo hrunning

/-- The function of the library, as an error file names it. -/
def LibraryCall.function : LibraryCall → String
  | start ..      => "hang_mspti_start"
  | setEnabled .. => "hang_mspti_set_enabled"
  | flush _       => "hang_mspti_flush"
  | stop          => "hang_mspti_stop"

/-- The last call has failed, and the error file says so. -/
def ReportsFailure (settings : Settings) (w : Worker) : Prop :=
  ∃ calls c rc, w.calls = calls ++ [c] ∧ c.result = some rc ∧ rc ≠ 0 ∧
    w.errorFile = some (settings.errorPath, c.function ++ " failed: " ++ toString rc ++ "\n")

/-- A flush does not end the thread. -/
theorem flush_status (result : Int) : (w.flush result).status = w.status := by
  unfold Worker.flush
  split <;> rfl

/-- A tick in which the thread returns writes the report of a failure. -/
theorem tick_returned (hrunning : w.status = .running) (t : Tick)
    (hreturned : (w.tick codec settings t).status = .returned) :
    ReportsFailure settings (w.tick codec settings t) := by
  unfold Worker.tick at hreturned ⊢
  split
  · rename_i herror
    rw [herror] at hreturned
    cases hreturned
  · rename_i b hb
    rw [hb] at hreturned
    dsimp only at hreturned ⊢
    -- A tick that makes no failing call goes on.
    have hgoes : ∀ w' : Worker, w'.status = w.status → w'.status ≠ .returned := by
      intro w' hsame hstop
      rw [hsame, hrunning] at hstop
      cases hstop
    split
    · rename_i hstart
      rw [if_pos hstart] at hreturned
      split
      · rename_i hfail
        exact ⟨w.calls, _, _, rfl, rfl, hfail, rfl⟩
      · rename_i hok
        rw [if_neg hok] at hreturned
        exact absurd hreturned (hgoes _ (flush_status _))
    · rename_i hnostart
      rw [if_neg hnostart] at hreturned
      split
      · rename_i hswitch
        rw [if_pos hswitch] at hreturned
        split
        · rename_i hfail
          exact ⟨w.calls, _, _, rfl, rfl, hfail, rfl⟩
        · rename_i hok
          rw [if_neg hok] at hreturned
          exact absurd hreturned (hgoes _ (flush_status _))
      · rename_i hnoswitch
        rw [if_neg hnoswitch] at hreturned
        exact absurd hreturned (hgoes _ (flush_status _))

/-- A thread that has returned has written the report of a failure. -/
theorem run_returned (hrunning : w.status = .running) (ticks : List Tick)
    (hreturned : (w.run codec settings ticks).status = .returned) :
    ReportsFailure settings (w.run codec settings ticks) := by
  induction ticks using List.reverseRecOn with
  | nil =>
      rw [run_nil, hrunning] at hreturned
      cases hreturned
  | append_singleton ticks t ih =>
      rw [run_concat] at hreturned ⊢
      -- The loop ended in this tick, or in an earlier one.
      split
      · rename_i hbefore
        rw [if_pos hbefore] at hreturned
        exact tick_returned hbefore t hreturned
      · rename_i hbefore
        rw [if_neg hbefore] at hreturned
        exact ih hreturned

/-- The thread runs after `start`. -/
theorem status_start {file : Option FileState} {result : Int}
    (h : start codec settings file result = .ok w) : w.status = .running := by
  unfold start at h
  split at h
  · cases h
  · obtain rfl := Except.ok.inj h
    rfl
  · split at h
    · cases h
    · obtain rfl := Except.ok.inj h
      rfl

/-- All calls of the system and of msPTI succeed. -/
def allWell : Answers where
  start :=
    { open_ := .ok 3
      ftruncate := .ok ()
      mmap := .ok ()
      memalign := fun i => some i
      subscribe := .ok 1
      register := 0
      enable := fun _ => 0
      unsubscribe := 0 }
  enable _ := 0
  unsubscribe := 0
  flush := 0

end

end HangAnalyzer.Mspti
