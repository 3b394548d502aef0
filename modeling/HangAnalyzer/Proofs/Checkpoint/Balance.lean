import HangAnalyzer.Lib.Ownership
import HangAnalyzer.Proofs.Checkpoint.Events
import HangAnalyzer.Proofs.Checkpoint.Keys

/-!
# `HangAnalyzer.Proofs.Checkpoint.Balance`: device events are created and destroyed in balance

A manager owns the device events of its slots. `Session.Balanced` says so for a session: its
calls of the backend keep the discipline of `Ledger.step`, and the events held are those of
the manager's slots, or none after the manager is deleted. Each action of a session keeps
this (`balanced_step`).

`events_balanced` reads the balance off a whole session: what becomes of each event, what a
registration that fails does, and what `flight_checkpoint_destroy` does.
-/

set_option autoImplicit false

namespace HangAnalyzer.Checkpoint

open HangAnalyzer.Lib

/-- The operation on a device event that a call of the backend is. -/
def EventOp.op : EventOp → ResourceOp Nat
  | create e           => .acquire e
  | record e | query e => .use e
  | destroy e          => .release e

/-- The events that a session has not destroyed, and those that it has, in order. -/
def Session.Owns (s : Session) (held gone : List Nat) : Prop :=
  Run Ledger.step .empty (s.ops.map EventOp.op) ⟨held, gone⟩

/-- The pool keeps its invariant, and the manager owns the events of its slots. -/
structure Session.Balanced (s : Session) : Prop where
  inv : Inv s.pool
  told : Told s.pool
  owns : ∃ gone, s.Owns (if s.deleted then [] else s.pool.manager.events) gone
  fresh : ∀ e, .create e ∈ s.ops → e < s.next

section
variable {s s' : Session} {held gone : List Nat} {e : Nat}

/-! ### What a session owns -/

/-- No event is held twice or again after it was destroyed. -/
theorem Session.Owns.once (h : s.Owns held gone) : (held ++ gone).Nodup :=
  Ledger.Once.run Ledger.once_empty h

/-- An event is held or gone if and only if it was created. -/
theorem Session.Owns.mem_iff (h : s.Owns held gone) : e ∈ held ++ gone ↔ .create e ∈ s.ops := by
  have hperm := Ledger.held_perm h
  rw [hperm.mem_iff]
  constructor
  · intro he
    obtain ⟨op, hop, hacquired⟩ := List.mem_filterMap.mp he
    obtain ⟨call, hcall, rfl⟩ := List.mem_map.mp hop
    cases call with
    | create e' =>
        obtain rfl := Option.some.inj hacquired
        exact hcall
    | record | query | destroy => cases hacquired
  · intro he
    exact List.mem_filterMap.mpr ⟨_, List.mem_map_of_mem he, rfl⟩

/-- What is destroyed was created before, and no call of the backend has it afterwards. -/
theorem Session.Owns.destroyed_once (h : s.Owns held gone) {pre post : List EventOp}
    (hops : s.ops = pre ++ .destroy e :: post) :
    .create e ∈ pre ∧ ∀ op ∈ post, op.event ≠ e := by
  unfold Session.Owns at h
  rw [hops, List.map_append, List.map_cons] at h
  obtain ⟨hacquired, huntouched⟩ := Ledger.released_once h
  constructor
  · obtain ⟨call, hcall, hop⟩ := List.mem_map.mp hacquired
    cases call with
    | create e' =>
        obtain rfl : e' = e := ResourceOp.acquire.inj hop
        exact hcall
    | record | query | destroy => cases hop
  · intro op hop
    have hne := huntouched op.op (List.mem_map_of_mem hop)
    cases op <;> exact hne

/-- How often an event was destroyed. -/
theorem Session.Owns.count_destroy (h : s.Owns held gone) :
    s.ops.count (.destroy e) = gone.count e := by
  have hgone : gone = (s.ops.map EventOp.op).filterMap ResourceOp.released? :=
    Ledger.released_eq h
  rw [hgone, List.filterMap_map, List.count, List.count, List.countP_filterMap]
  refine List.countP_congr fun call _ => ?_
  cases call <;> simp [EventOp.op, ResourceOp.released?]

/-- The next events are new. -/
theorem Session.Balanced.new_nodup (h : s.Balanced) (hown : s.Owns held gone) (n : Nat) :
    (held ++ gone ++ List.range' s.next n).Nodup := by
  refine List.nodup_append.mpr ⟨hown.once, List.nodup_range', fun e he e' he' heq => ?_⟩
  have hold := h.fresh e (hown.mem_iff.mp he)
  have hnew := (List.mem_range'_1.mp he').1
  omega

/-- A slot's event was created. -/
theorem Session.Balanced.slot_event (h : s.Balanced) (hlive : s.deleted = false) {p : Place}
    {slot : Slot} (hslot : s.pool.manager.slot? p = some slot) : .create slot.event ∈ s.ops := by
  obtain ⟨gone, hown⟩ := h.owns
  rw [hlive] at hown
  exact hown.mem_iff.mp (List.mem_append_left _ (Manager.event_mem hslot))

/-! ### The actions -/

/-- When nobody is in a call, no call is in progress. -/
theorem State.idle_of_quiescent {s : State} (h : s.quiescent = true) : s.Idle := by
  obtain ⟨hpoll, hsubmits⟩ := Bool.and_eq_true_iff.mp h
  refine ⟨Option.isNone_iff_eq_none.mp hpoll, fun call hcall => ?_⟩
  have hreturned := List.all_eq_true.mp hsubmits call hcall
  unfold SubmitCall.returned at hreturned
  split at hreturned
  · rename_i rc gen hpc
    exact ⟨rc, gen, hpc⟩
  · cases hreturned

/-- What an action of a session is. It comes before the manager is deleted, and the manager
changes only while no call is in progress. -/
theorem Session.step_cases {a : SessionAction} (hs : s.step a = some s') :
    s.deleted = false ∧
      match a with
      | .pool a => s.advance a = some s'
      | .register id handle codes =>
          s.pool.Idle ∧ s' = (s.registerStream id handle codes).1
      | .destroy poller => s.pool.Idle ∧ s' = (s.destroy poller).1 := by
  unfold Session.step at hs
  split at hs
  · cases hs
  · rename_i hlive
    refine ⟨Bool.eq_false_iff.mpr hlive, ?_⟩
    cases a with
    | pool a => exact hs
    | register id handle codes =>
        simp only at hs
        split at hs
        · rename_i hquiescent
          exact ⟨State.idle_of_quiescent hquiescent, (Option.some.inj hs).symm⟩
        · cases hs
    | destroy poller =>
        simp only at hs
        split at hs
        · rename_i hquiescent
          exact ⟨State.idle_of_quiescent hquiescent, (Option.some.inj hs).symm⟩
        · cases hs

/-- A step of the pool records events and queries them. -/
theorem eventOp?_use {m : Manager} {entry : Entry} {op : EventOp}
    (h : entry.eventOp? m = some op) :
    op.op = .use op.event ∧ op.event ∈ m.events := by
  cases entry with
  | access p a =>
      obtain ⟨slot, hslot, hop⟩ := Option.bind_eq_some_iff.mp h
      have hmem := Manager.event_mem hslot
      cases a with
      | enqueue | query =>
          obtain rfl := Option.some.inj hop
          exact ⟨rfl, hmem⟩
      | _ => cases hop
  | poolFull | host | polled => cases h

/-- A step of the pool keeps the balance. -/
theorem Session.Balanced.advance (h : s.Balanced) (hlive : s.deleted = false) {a : Action}
    (hs : s.advance a = some s') : s'.Balanced := by
  obtain ⟨pool, hpool, rfl⟩ := Option.map_eq_some_iff.mp hs
  obtain ⟨gone, hown⟩ := h.owns
  rw [hlive] at hown
  generalize hnew : (pool.trace.drop s.pool.trace.length).filterMap
    (Entry.eventOp? s.pool.manager) = new
  -- The pool only uses events that its slots have.
  have hused : ∀ op ∈ new, op.op = .use op.event ∧ op.event ∈ s.pool.manager.events := by
    intro op hop
    obtain ⟨entry, -, hentry⟩ := List.mem_filterMap.mp (hnew ▸ hop)
    exact eventOp?_use hentry
  have hmap : new.map EventOp.op = (new.map EventOp.event).map .use := by
    rw [List.map_map]
    exact List.map_congr_left fun op hop => (hused op hop).1
  refine ⟨inv_step h.inv a hpool, told_step h.told a hpool, ⟨gone, ?_⟩, fun e he => ?_⟩
  · -- Uses change nothing in the ledger.
    show Run Ledger.step .empty ((s.ops ++ new).map EventOp.op)
      ⟨if s.deleted then [] else pool.manager.events, gone⟩
    rw [hlive, events_step a hpool, List.map_append, hmap]
    refine hown.append (Ledger.use_all fun e he => ?_)
    obtain ⟨op, hop, rfl⟩ := List.mem_map.mp he
    exact (hused op hop).2
  · rcases List.mem_append.mp he with hold | hcreate
    · exact h.fresh e hold
    · cases (hused _ hcreate).1

/-- A registration keeps the balance, whether it fails or not. -/
theorem Session.Balanced.registerStream (h : s.Balanced) (hlive : s.deleted = false)
    (id : UInt32) (handle : Nat) (codes : Nat → Int) :
    (s.registerStream id handle codes).1.Balanced := by
  obtain ⟨gone, hown⟩ := h.owns
  rw [hlive] at hown
  obtain ⟨n, hcases⟩ := s.registerStream_cases id handle codes
  -- The new events have numbers that were not taken before.
  have hnodup := h.new_nodup hown n
  have hcreate : Run Ledger.step ⟨s.pool.manager.events, gone⟩
      ((List.range' s.next n).map .acquire)
      ⟨s.pool.manager.events ++ List.range' s.next n, gone⟩ := Ledger.acquire_all hnodup
  have hfresh : ∀ e, EventOp.create e ∈ (List.range' s.next n).map EventOp.create →
      e < s.next + n := by
    intro e he
    obtain ⟨e', he', heq⟩ := List.mem_map.mp he
    obtain rfl := EventOp.create.inj heq
    exact (List.mem_range'_1.mp he').2
  rcases hcases with ⟨-, hs⟩ | ⟨-, hs⟩
  · -- The events are created and destroyed again.
    have hdestroy : Run Ledger.step ⟨s.pool.manager.events ++ List.range' s.next n, gone⟩
        ((List.range' s.next n).map .release)
        ⟨s.pool.manager.events, gone ++ List.range' s.next n⟩ := by
      refine Ledger.release_all (hnodup.sublist ?_)
      exact (List.sublist_append_left _ _).append_right _
    rw [hs]
    refine ⟨h.inv, h.told, ⟨gone ++ List.range' s.next n, ?_⟩, fun e he => ?_⟩
    · show Run Ledger.step .empty ((_ : List EventOp).map EventOp.op)
        ⟨if s.deleted then [] else s.pool.manager.events, _⟩
      rw [hlive, List.map_append, List.map_append, List.map_map, List.map_map]
      exact (hown.append hcreate).append hdestroy
    · rcases List.mem_append.mp he with he | he
      · rcases List.mem_append.mp he with hold | hnew
        · exact Nat.lt_add_right n (h.fresh e hold)
        · exact hfresh e hnew
      · obtain ⟨e', -, heq⟩ := List.mem_map.mp he
        cases heq
  · -- The new slots have the events, and are free.
    rw [hs]
    refine ⟨h.inv.push ?_, ?_, ⟨gone, ?_⟩, fun e he => ?_⟩
    · intro slot hslot
      obtain ⟨e, -, rfl⟩ := List.mem_map.mp hslot
      rfl
    · exact ⟨h.told.did, h.told.none⟩
    · show Run Ledger.step .empty ((_ : List EventOp).map EventOp.op)
        ⟨if s.deleted then [] else (s.pool.manager.push _).events, _⟩
      rw [hlive, List.map_append, List.map_map, Manager.events_push, List.map_map]
      show Run Ledger.step .empty _
        ⟨s.pool.manager.events ++ (List.range' s.next n).map (fun e => e), gone⟩
      rw [List.map_id']
      exact hown.append hcreate
    · rcases List.mem_append.mp he with hold | hnew
      · exact Nat.lt_add_right n (h.fresh e hold)
      · exact hfresh e hnew

/-- `flight_checkpoint_destroy` of a session is refused and changes nothing, or no slot is in
use and every event is destroyed. -/
theorem Session.destroy_cases (hlive : s.deleted = false) (poller : Bool) :
    ((s.destroy poller).2 = EBUSY ∧ (s.destroy poller).1 = s) ∨
      ((s.destroy poller).2 = 0 ∧
        (s.destroy poller).1 = { s with
          ops := s.ops ++ s.pool.manager.events.map .destroy
          deleted := true } ∧
        ∀ p slot, s.pool.manager.slot? p = some slot → slot.state = .free) := by
  rcases flightCheckpointDestroy_cases s.pool.manager poller with hbusy | ⟨hdone, hfree⟩
  · left
    obtain ⟨pool, next, ops, deleted⟩ := s
    simp_all [destroy, EBUSY]
  · exact Or.inr ⟨by simp [destroy, hdone], by simp [destroy, hdone], hfree⟩

/-- The end of the session destroys the events that are left. -/
theorem Session.Balanced.destroy (h : s.Balanced) (hlive : s.deleted = false) (poller : Bool) :
    (s.destroy poller).1.Balanced := by
  obtain ⟨gone, hown⟩ := h.owns
  rw [hlive] at hown
  -- A refusal changes nothing, and otherwise every event is released.
  rcases Session.destroy_cases hlive poller with ⟨-, hs⟩ | ⟨-, hs, -⟩
  · rw [hs]
    exact h
  · have hdestroy : Run Ledger.step ⟨s.pool.manager.events, gone⟩
        (s.pool.manager.events.map .release) ⟨[], gone ++ s.pool.manager.events⟩ := by
      have hnodup : ([] ++ s.pool.manager.events).Nodup := (List.nodup_append.mp hown.once).1
      exact Ledger.release_all hnodup
    rw [hs]
    refine ⟨h.inv, h.told, ⟨gone ++ s.pool.manager.events, ?_⟩, fun e he => ?_⟩
    · show Run Ledger.step .empty ((_ : List EventOp).map EventOp.op) ⟨[], _⟩
      rw [List.map_append, List.map_map]
      exact hown.append hdestroy
    · rcases List.mem_append.mp he with hold | hnew
      · exact h.fresh e hold
      · obtain ⟨e', -, heq⟩ := List.mem_map.mp hnew
        cases heq

/-- Every action of a session keeps the balance. -/
theorem balanced_step (h : s.Balanced) {a : SessionAction} (hs : s.step a = some s') :
    s'.Balanced := by
  obtain ⟨hlive, hs⟩ := Session.step_cases hs
  cases a with
  | pool a => exact h.advance hlive hs
  | register id handle codes =>
      obtain ⟨-, rfl⟩ := hs
      exact h.registerStream hlive id handle codes
  | destroy poller =>
      obtain ⟨-, rfl⟩ := hs
      exact h.destroy hlive poller

/-- The events are balanced in every state of a session. -/
theorem balanced_run {slotsPerStream : UInt32} {m : Manager}
    (hm : flightCheckpointCreate slotsPerStream = some m) {as : List SessionAction}
    (h : Run Session.step (Session.start m) as s) : s.Balanced := by
  refine Run.invariant Session.Balanced (fun _ _ _ hs hstep => balanced_step hs hstep) h ?_
  have hstreams : m.streams = [] := by
    unfold flightCheckpointCreate at hm
    split at hm
    · cases hm
    · exact Option.some.inj hm ▸ rfl
  refine ⟨inv_start (Manager.Made.create hm).fresh, ?_, ⟨[], ?_⟩, fun e he => ?_⟩
  · -- Before its first step no call has done anything.
    exact told_run (show Run State.step (State.start m) [] _ from Run.nil_iff.mpr rfl)
  · show Run Ledger.step .empty [] ⟨m.events, []⟩
    rw [Manager.events, hstreams]
    exact Run.nil_iff.mpr rfl
  · cases he

/-! ### When an event is destroyed -/

/-- An event that is destroyed is the event of no slot in use. -/
theorem Session.Balanced.destroyed_free (h : s.Balanced) {a : SessionAction}
    (hs : s.step a = some s') {new : List EventOp} (hops : s'.ops = s.ops ++ new)
    (he : .destroy e ∈ new) {p : Place} {slot : Slot}
    (hslot : s.pool.manager.slot? p = some slot) (hevent : slot.event = e) :
    slot.state = .free := by
  obtain ⟨hlive, hs⟩ := Session.step_cases hs
  cases a with
  | pool a =>
      obtain ⟨pool, -, rfl⟩ := Option.map_eq_some_iff.mp hs
      -- A step of the pool destroys no event.
      obtain rfl := List.append_cancel_left hops
      obtain ⟨entry, -, hentry⟩ := List.mem_filterMap.mp he
      cases (eventOp?_use hentry).1
  | register id handle codes =>
      obtain ⟨-, rfl⟩ := hs
      -- The new events have no slot in the manager.
      have hold := h.fresh e (hevent ▸ h.slot_event hlive hslot)
      obtain ⟨n, hcases⟩ := s.registerStream_cases id handle codes
      have hmem : e ∈ List.range' s.next n := by
        rcases hcases with ⟨-, hs'⟩ | ⟨-, hs'⟩
        · rw [hs', List.append_assoc] at hops
          obtain rfl := List.append_cancel_left hops
          rcases List.mem_append.mp he with he | he
          · obtain ⟨e', -, heq⟩ := List.mem_map.mp he
            cases heq
          · obtain ⟨e', he', heq⟩ := List.mem_map.mp he
            exact EventOp.destroy.inj heq ▸ he'
        · rw [hs'] at hops
          obtain rfl := List.append_cancel_left hops
          obtain ⟨e', -, heq⟩ := List.mem_map.mp he
          cases heq
      have hnew := (List.mem_range'_1.mp hmem).1
      omega
  | destroy poller =>
      obtain ⟨-, rfl⟩ := hs
      -- The manager is deleted only when all slots are free.
      rcases Session.destroy_cases hlive poller with ⟨-, hs'⟩ | ⟨-, -, hfree⟩
      · rw [hs'] at hops
        rw [List.self_eq_append_right.mp hops] at he
        cases he
      · exact hfree p slot hslot

/-- When no call is in progress and no slot is in use, every submission is confirmed. -/
theorem Inv.confirmed_of_free {s : State} (h : Inv s) (ht : Told s) (hidle : s.Idle)
    (hfree : ∀ p slot, s.manager.slot? p = some slot → slot.state = .free) {k : Nat}
    {call : SubmitCall} {gen : UInt64} (hk : s.Succeeded k call gen) :
    ∃ p pre post, s.accesses p = pre ++ .submitted k (call.stamp gen) :: post ∧
      .confirmed (call.stamp gen) ∈ post := by
  -- The submission has left its record in the slot.
  obtain ⟨p, hdid⟩ := ht.succeeded hk
  have hmem : .submitted k (call.stamp gen) ∈ s.accesses p := by
    rw [mem_accesses]
    have hby : (p, .submitted k (call.stamp gen)) ∈ accessesBy s.trace k := by
      rw [hdid]
      simp [SubmitCall.recorded]
    exact (mem_accessesBy.mp hby).2
  obtain ⟨slot, hslot⟩ := h.slot_of_mem hmem
  obtain ⟨id, l, hl⟩ := h.life p slot hslot
  obtain ⟨pre, post, hsplit⟩ := List.append_of_mem hmem
  have hlived := hl.lived
  rw [hsplit] at hlived
  obtain ⟨l₁, -, hrest⟩ := Run.append_iff.mp hlived
  obtain ⟨l₂, hstep, hpost⟩ := Run.cons_iff.mp hrest
  obtain ⟨hphase, hstamp⟩ := step_submitted hstep
  refine ⟨p, pre, post, hsplit, ?_⟩
  -- Since then the slot was confirmed, or it is still in use.
  rcases live_until_confirmed hpost (by rw [hphase]; rfl) with hconfirmed | ⟨hlive, -⟩
  · exact hstamp ▸ hconfirmed
  · -- A slot whose submission is not confirmed is in use.
    rw [h.live_of_idle hidle hl, hfree p slot hslot] at hlive
    cases hlive

end

/-- **The balance of the device events.** In every session of a manager:
an event that is destroyed was created before, and no later call of the backend has it;
when it is destroyed, its slot is free;
a registration that fails destroys the events that it created and leaves the pool as it is;
a `flight_checkpoint_destroy` that is refused changes nothing;
one that returns zero comes when every submission is confirmed, destroys the events of the
slots, and leaves no event that was not destroyed exactly once. -/
theorem events_balanced {slotsPerStream : UInt32} {m : Manager}
    (hm : flightCheckpointCreate slotsPerStream = some m) {as : List SessionAction} {s : Session}
    (h : Run Session.step (Session.start m) as s) :
    (∀ pre e post, s.ops = pre ++ .destroy e :: post →
      .create e ∈ pre ∧ ∀ op ∈ post, op.event ≠ e) ∧
    (∀ a s' new e, s.step a = some s' → s'.ops = s.ops ++ new → .destroy e ∈ new →
      ∀ p slot, s.pool.manager.slot? p = some slot → slot.event = e → slot.state = .free) ∧
    (∀ id handle codes s', s.step (.register id handle codes) = some s' →
      (s.registerStream id handle codes).2 ≠ 0 →
      ∃ es : List Nat, s'.pool = s.pool ∧
        s'.ops = s.ops ++ es.map .create ++ es.map .destroy) ∧
    (∀ poller s', s.step (.destroy poller) = some s' → (s.destroy poller).2 = EBUSY → s' = s) ∧
    (∀ poller s', s.step (.destroy poller) = some s' → (s.destroy poller).2 = 0 →
      (∀ k call gen, s.pool.Succeeded k call gen →
        ∃ p pre post, s.pool.accesses p = pre ++ .submitted k (call.stamp gen) :: post ∧
          .confirmed (call.stamp gen) ∈ post) ∧
      s'.ops = s.ops ++ s.pool.manager.events.map .destroy ∧
      ∀ e, .create e ∈ s'.ops → s'.ops.count (.destroy e) = 1) := by
  have hbalanced := balanced_run hm h
  refine ⟨?_, ?_, ?_, ?_, ?_⟩
  · -- What is destroyed was created, and does not come again.
    intro pre e post hops
    obtain ⟨gone, hown⟩ := hbalanced.owns
    exact hown.destroyed_once hops
  · intro a s' new e hs hops he p slot hslot hevent
    exact hbalanced.destroyed_free hs hops he hslot hevent
  · -- The failed registration takes back what it has created.
    intro id handle codes s' hs hfailed
    obtain ⟨-, -, rfl⟩ := Session.step_cases hs
    obtain ⟨n, hcases⟩ := s.registerStream_cases id handle codes
    obtain ⟨-, hs'⟩ := hcases.resolve_right fun hok => hfailed hok.1
    rw [hs']
    exact ⟨List.range' s.next n, rfl, rfl⟩
  · intro poller s' hs hbusy
    obtain ⟨hlive, -, rfl⟩ := Session.step_cases hs
    rcases Session.destroy_cases hlive poller with ⟨-, hs'⟩ | ⟨hzero, -⟩
    · exact hs'
    · rw [hzero] at hbusy
      cases hbusy
  · -- All events of the slots are destroyed, and no event is left.
    intro poller s' hs hzero
    obtain ⟨gone, hown⟩ := (balanced_step hbalanced hs).owns
    obtain ⟨hlive, hidle, rfl⟩ := Session.step_cases hs
    rcases Session.destroy_cases hlive poller with ⟨hbusy, -⟩ | ⟨-, hs', hfree⟩
    · rw [hzero] at hbusy
      cases hbusy
    · rw [hs'] at hown ⊢
      refine ⟨fun k call gen hk => ?_, rfl, fun e he => ?_⟩
      · exact hbalanced.inv.confirmed_of_free hbalanced.told hidle hfree hk
      · rw [hown.count_destroy]
        have hgone : e ∈ gone := hown.mem_iff.mpr he
        exact List.count_eq_one_of_mem (List.nodup_append.mp hown.once).2.1 hgone

/-- A registration that fails at its second event, one that succeeds, a submission, a
`flight_checkpoint_destroy` while it is pending, and its confirmation. -/
def refusedSession : List SessionAction :=
  [.register 7 70 fun i => if i = 0 then 0 else -1, .register 7 70 fun _ => 0,
      .pool (.submit 7 100 1)] ++ List.replicate 6 (.pool (.advance 0 0)) ++
    [.destroy false, .pool (.poll 2)] ++ List.replicate 7 (.pool (.advancePoll 1))

/-- The refused call destroys nothing, and the one after the confirmation destroys the two
events of the stream. -/
theorem events_balanced_refused :
    ∃ s s', Run Session.step (Session.start ⟨2, [], false, 0⟩) refusedSession s ∧
      s.ops = [.create 0, .destroy 0, .create 1, .create 2, .record 1, .query 1] ∧
      s.step (.destroy false) = some s' ∧ s'.ops = s.ops ++ [.destroy 1, .destroy 2] ∧
      s'.ops.count (.destroy 1) = 1 := by
  have hcomputed : (refusedSession.foldlM Session.step (Session.start ⟨2, [], false, 0⟩)).map
        (fun s => (s.ops, s.pool.manager.events, s.deleted, s.pool.quiescent, (s.destroy false).2))
      = some ([.create 0, .destroy 0, .create 1, .create 2, .record 1, .query 1], [1, 2], false,
          true, 0) := by
    decide
  obtain ⟨s, hrun, hs⟩ := Option.map_eq_some_iff.mp hcomputed
  simp only [Prod.mk.injEq] at hs
  obtain ⟨hops, hevents, hlive, hquiescent, hzero⟩ := hs
  have hstep : s.step (.destroy false) = some (s.destroy false).1 := by
    simp [Session.step, hlive, hquiescent]
  obtain ⟨-, -, -, -, hdestroy⟩ :=
    events_balanced (show flightCheckpointCreate 2 = some _ from rfl) hrun
  obtain ⟨-, hdestroyed, honce⟩ := hdestroy false _ hstep hzero
  rw [hevents] at hdestroyed
  refine ⟨s, _, hrun, hops, hstep, hdestroyed, honce 1 ?_⟩
  rw [hdestroyed, hops]
  decide

end HangAnalyzer.Checkpoint
