import HangAnalyzer.Checkpoint.Session
import HangAnalyzer.Proofs.Checkpoint.Coherent
import HangAnalyzer.Proofs.Checkpoint.LifeCycle

/-!
# `HangAnalyzer.Proofs.Checkpoint.Events`: the device events of a manager

Which events the slots of a manager have. The steps of the pool leave them alone
(`events_step`). A registration adds those that it made, all of them or none
(`registerStream_cases`), and a stream that is added while no call is in progress keeps the
invariant of the pool (`Inv.push`). `flight_checkpoint_destroy` gives up all of them or none
(`flightCheckpointDestroy_cases`).
-/

set_option autoImplicit false

namespace HangAnalyzer.Checkpoint

open HangAnalyzer.Lib

/-! ### The events of the slots -/

namespace Manager

variable {m : Manager} {p : Place} {slot : Slot}

/-- The event of a slot is one of the manager's. -/
theorem event_mem (h : m.slot? p = some slot) : slot.event ∈ m.events := by
  obtain ⟨stream, hstream, hslot⟩ := Option.bind_eq_some_iff.mp h
  refine List.mem_flatMap.mpr ⟨stream, List.mem_of_getElem? hstream, ?_⟩
  exact List.mem_map_of_mem (List.mem_of_getElem? hslot)

/-- A change of a slot that keeps its event. -/
theorem events_modifySlot (h : m.slot? p = some slot) {slot' : Slot}
    (hevent : slot'.event = slot.event) : (m.modifySlot p fun _ => slot').events = m.events := by
  obtain ⟨stream, hstream, hslot⟩ := Option.bind_eq_some_iff.mp h
  have hslots : (stream.slots.modify p.slot fun _ => slot').map Slot.event
      = stream.slots.map Slot.event := by
    -- The slot keeps its event, and the others are not touched.
    refine List.ext_getElem? fun j => ?_
    rw [List.getElem?_map, List.getElem?_map, List.getElem?_modify]
    by_cases hj : p.slot = j
    · subst hj
      simp [hslot, hevent]
    · simp [hj]
  have hstreams : (m.streams.modify p.stream fun stream =>
        { stream with slots := stream.slots.modify p.slot fun _ => slot' }).map
          (fun stream => stream.slots.map Slot.event)
      = m.streams.map fun stream => stream.slots.map Slot.event := by
    refine List.ext_getElem? fun i => ?_
    rw [List.getElem?_map, List.getElem?_map, List.getElem?_modify]
    by_cases hi : p.stream = i
    · subst hi
      simp [hstream, hslots]
    · simp [hi]
  show (List.modify _ _ _).flatMap _ = m.streams.flatMap _
  rw [List.flatMap_def, hstreams, ← List.flatMap_def]

/-- A change of a cursor leaves the events. -/
theorem events_bumpCursor (i : Nat) : (m.bumpCursor i).events = m.events := by
  have hstreams : (m.bumpCursor i).streams.map (fun stream => stream.slots.map Slot.event)
      = m.streams.map fun stream => stream.slots.map Slot.event := by
    refine map_modify_of_eq (fun stream => ?_) m.streams i
    rfl
  rw [events, List.flatMap_def, hstreams, ← List.flatMap_def, ← events]

end Manager

/-! ### The steps of the pool -/

/-- No step of the pool changes the events. -/
theorem events_step {s s' : State} (a : Action) (hs : s.step a = some s') :
    s'.manager.events = s.manager.events := by
  rcases State.manager_step a hs with ⟨i, hm⟩ | ⟨p, slot, slot', hslot, hevent, hm⟩ |
    ⟨flag, cursor, hm⟩
  · rw [hm, Manager.events_bumpCursor]
  · rw [hm, Manager.events_modifySlot hslot hevent]
  · rw [hm]
    rfl

/-! ### Registration -/

section
variable {create : Nat → Except Int Nat} {count : Nat} {events es : List Nat} {rc : Int}

/-- A loop that ends well has the events that it made. -/
theorem createEvents_ok (h : createEvents create count events = .ok es) :
    es = events ++ createdEvents create count events.length := by
  induction count generalizing events with
  | zero =>
      obtain rfl := Except.ok.inj h
      exact (List.append_nil _).symm
  | succ count ih =>
      cases hevent : create events.length with
      -- The event is added, and the loop goes on.
      | ok event =>
          simp only [createEvents, hevent] at h
          simp only [createdEvents, hevent]
          have hrest := ih h
          rw [List.length_append, List.length_singleton, List.append_assoc] at hrest
          exact hrest
      -- The loop ends at the first error.
      | error rc =>
          simp only [createEvents, hevent, reduceCtorEq] at h

/-- A loop that ends with an error gives back the events that it made. -/
theorem createEvents_error (h : createEvents create count events = .error (rc, es)) :
    es = events ++ createdEvents create count events.length := by
  induction count generalizing events with
  | zero => cases h
  | succ count ih =>
      cases hevent : create events.length with
      | ok event =>
          simp only [createEvents, hevent] at h
          simp only [createdEvents, hevent]
          have hrest := ih h
          rw [List.length_append, List.length_singleton, List.append_assoc] at hrest
          exact hrest
      -- The error comes with the events created so far.
      | error rc' =>
          simp only [createEvents, hevent] at h
          simp only [createdEvents, hevent]
          rw [List.append_nil]
          exact (Prod.mk.inj (Except.error.inj h)).2.symm

end

/-- The events of a session have the next numbers. -/
theorem createdEvents_create (s : Session) (codes : Nat → Int) (count i : Nat) :
    ∃ n, createdEvents (s.create codes) count i = List.range' (s.next + i) n := by
  induction count generalizing i with
  | zero => exact ⟨0, rfl⟩
  | succ count ih =>
      rw [createdEvents, Session.create]
      -- The next number is taken if the backend gives an event.
      by_cases hcode : codes i = 0
      · obtain ⟨n, hn⟩ := ih (i + 1)
        refine ⟨n + 1, ?_⟩
        simp only [if_pos hcode]
        rw [hn, List.range'_succ, Nat.add_assoc]
      · refine ⟨0, ?_⟩
        simp only [if_neg hcode]
        rfl

/-- The code of an error is not zero. -/
theorem errorCode_ne_zero (rc : Int) : errorCode rc ≠ 0 := by
  unfold errorCode
  split
  · omega
  · decide

/-- A manager with one more stream. -/
def Manager.push (m : Manager) (stream : Stream) : Manager :=
  { m with streams := m.streams ++ [stream] }

/-- A registration fails and destroys the events that it made, or it adds a stream of new
slots with these events. -/
theorem Session.registerStream_cases (s : Session) (id : UInt32) (handle : Nat)
    (codes : Nat → Int) :
    ∃ n, let es := List.range' s.next n
      ((s.registerStream id handle codes).2 ≠ 0 ∧
        (s.registerStream id handle codes).1 = { s with
          next := s.next + n
          ops := s.ops ++ es.map .create ++ es.map .destroy }) ∨
      ((s.registerStream id handle codes).2 = 0 ∧
        (s.registerStream id handle codes).1 = { s with
          pool := { s.pool with
            manager := s.pool.manager.push ⟨id, handle, es.map Slot.new, 0⟩ }
          next := s.next + n
          ops := s.ops ++ es.map .create }) := by
  -- The stream has its slots already, so nothing is created.
  by_cases hfound : (s.pool.manager.findStream id).isSome
  · refine ⟨0, Or.inl ?_⟩
    simp [registerStream, flightCheckpointRegisterStream, hfound, EEXIST]
  · obtain ⟨n, hn⟩ := createdEvents_create s codes s.pool.manager.slotsPerStream.toNat 0
    refine ⟨n, ?_⟩
    -- The registration succeeds only if all its events are created.
    cases hevents : createEvents (s.create codes) s.pool.manager.slotsPerStream.toNat [] with
    | ok es =>
        have hes : es = List.range' s.next n := (createEvents_ok hevents).trans hn
        right
        simp [registerStream, flightCheckpointRegisterStream, hfound, hevents, hn, hes,
          Manager.push]
    | error err =>
        obtain ⟨rc, es⟩ := err
        have hes : es = List.range' s.next n := (createEvents_error hevents).trans hn
        left
        simp [registerStream, flightCheckpointRegisterStream, hfound, hevents, hn, hes,
          errorCode_ne_zero]

/-! ### A new stream -/

section
variable (m : Manager) (stream : Stream)

/-- A new stream adds the events of its slots. -/
theorem Manager.events_push : (m.push stream).events = m.events ++ stream.slots.map Slot.event := by
  simp [events, push]

/-- A slot of the new manager is an old one, or one of the new stream at a new place. -/
theorem Manager.slot?_push (p : Place) :
    (p.stream < m.streams.length ∧ (m.push stream).slot? p = m.slot? p ∧
        (m.push stream).streamId? p.stream = m.streamId? p.stream) ∨
      (m.slot? p = none ∧ ∀ slot, (m.push stream).slot? p = some slot →
        slot ∈ stream.slots ∧ (m.push stream).streamId? p.stream = some stream.id) := by
  -- The place is in an old stream, or in the new one.
  by_cases hp : p.stream < m.streams.length
  · refine Or.inl ⟨hp, ?_, ?_⟩
    · rw [slot?, slot?, push, List.getElem?_append_left hp]
    · rw [streamId?, streamId?, push, List.getElem?_append_left hp]
  · refine Or.inr ⟨?_, fun slot hslot => ?_⟩
    · rw [slot?, List.getElem?_eq_none (Nat.le_of_not_lt hp)]
      rfl
    · rw [slot?, push, List.getElem?_append_right (Nat.le_of_not_lt hp)] at hslot
      obtain ⟨stream', hstream, hmem⟩ := Option.bind_eq_some_iff.mp hslot
      obtain rfl := List.mem_singleton.mp (List.mem_of_getElem? hstream)
      refine ⟨List.mem_of_getElem? hmem, ?_⟩
      rw [streamId?, push, List.getElem?_append_right (Nat.le_of_not_lt hp), hstream]
      rfl

end

/-- A new stream of new slots keeps the invariant of the pool. -/
theorem Inv.push {s : State} (h : Inv s) {stream : Stream}
    (hnew : ∀ slot ∈ stream.slots, slot = Slot.new slot.event) :
    Inv { s with manager := s.manager.push stream } := by
  have hlife : ∀ {p id slot l}, HasLife s p id slot l →
      HasLife { s with manager := s.manager.push stream } p id slot l := by
    intro p id slot l hl
    rcases s.manager.slot?_push stream p with
      ⟨-, hslot, hid⟩ | ⟨hnone, -⟩
    · have hcongr : HasLife { s with manager := s.manager.push stream } p id slot l
          ↔ HasLife s p id slot l := hasLife_congr hslot hid rfl
      exact hcongr.mpr hl
    · rw [hl.slot_eq] at hnone
      cases hnone
  -- A slot after the registration has its old life, or none yet.
  have hcases : ∀ {p id slot l}, HasLife { s with manager := s.manager.push stream } p id slot l →
      HasLife s p id slot l ∨ l = .init := by
    intro p id slot l hl
    rcases s.manager.slot?_push stream p with
      ⟨-, hslot, hid⟩ | ⟨hnone, -⟩
    · have hcongr : HasLife { s with manager := s.manager.push stream } p id slot l
          ↔ HasLife s p id slot l := hasLife_congr hslot hid rfl
      exact Or.inl (hcongr.mp hl)
    · have hlived : Lived id (s.accesses p) l := hl.lived
      rw [h.absent p hnone] at hlived
      exact Or.inr (Run.nil_iff.mp hlived).symm
  constructor
  case life =>
    intro p slot hp
    rcases s.manager.slot?_push stream p with ⟨-, hslot, -⟩ | ⟨hnone, hpush⟩
    · obtain ⟨id, l, hl⟩ := h.life p slot (hslot ▸ hp)
      exact ⟨id, l, hlife hl⟩
    · obtain ⟨hmem, hid⟩ := hpush slot hp
      refine ⟨stream.id, .init, hp, hid, ?_, hnew slot hmem ▸ agree_new _⟩
      show Lived stream.id (s.accesses p) .init
      rw [h.absent p hnone]
      exact Run.nil_iff.mpr rfl
  case absent =>
    intro p hp
    rcases s.manager.slot?_push stream p with ⟨-, hslot, -⟩ | ⟨hnone, -⟩
    · exact h.absent p (hslot ▸ hp)
    · exact h.absent p hnone
  case stream =>
    intro k call hk
    obtain ⟨stream', hstream, hid⟩ := Option.map_eq_some_iff.mp (h.stream k call hk)
    show ((s.manager.streams ++ [stream])[call.stream]?).map Stream.id = _
    rw [List.getElem?_append_left (List.getElem?_eq_some_iff.mp hstream).1, hstream, ← hid]
    rfl
  case submit =>
    intro k call p hk hp
    obtain ⟨slot, l, hl, hholds⟩ := h.submit k call p hk hp
    exact ⟨slot, l, hlife hl, hholds⟩
  case holder =>
    intro p id slot l k hl hk
    rcases hcases hl with hold | rfl
    · exact h.holder p id slot l k hold hk
    · cases hk
  case poll =>
    intro call p hcall hp
    obtain ⟨id, slot, l, hl, hholds⟩ := h.poll call p hcall hp
    exact ⟨id, slot, l, hlife hl, hholds⟩
  case polled =>
    intro p id slot l hl hpolled
    rcases hcases hl with hold | rfl
    · exact h.polled p id slot l hold hpolled
    · cases hpolled
  case flag => exact h.flag

/-! ### The end -/

/-- `flight_checkpoint_destroy` is refused and destroys nothing, or no slot is in use and it
destroys every event. -/
theorem flightCheckpointDestroy_cases (m : Manager) (poller : Bool) :
    flightCheckpointDestroy m poller = (EBUSY, []) ∨
      flightCheckpointDestroy m poller = (0, m.events) ∧
        ∀ p slot, m.slot? p = some slot → slot.state = .free := by
  unfold flightCheckpointDestroy
  split
  · exact Or.inl rfl
  · -- No slot is in use, and the events are those of all slots.
    rename_i hfree
    refine Or.inr ⟨rfl, fun p slot hp => ?_⟩
    obtain ⟨stream, hstream, hslot⟩ := Option.bind_eq_some_iff.mp hp
    by_contra hstate
    exact hfree (Or.inr ⟨stream, List.mem_of_getElem? hstream, slot, List.mem_of_getElem? hslot,
      hstate⟩)

end HangAnalyzer.Checkpoint
