import HangAnalyzer.Proofs.Checkpoint.Refines

/-!
# `HangAnalyzer.Proofs.Checkpoint.Coherent`: what the calls leave alone

`Coherent` is what holds of the calls in progress whatever the slots of the manager were at
the start: a submit call holds a reserved slot and no other call holds it, and the poll call
holds a slot that is being queried.

So a pending slot stays pending until the poll call takes it. `Quiet` says this of every
step that is not a step of the poll call (`quiet_step`).
-/

set_option autoImplicit false

namespace HangAnalyzer.Checkpoint

open HangAnalyzer.Lib

/-- The slot at a place is in a state. -/
def State.At (s : State) (p : Place) (st : SlotState) : Prop :=
  ∃ slot, s.manager.slot? p = some slot ∧ slot.state = st

/-- The calls in progress hold the slots they work on. -/
structure Coherent (s : State) : Prop where
  polling : s.poll.isSome → s.manager.polling = true
  held : ∀ (k : Nat) (call : SubmitCall) p, s.submits[k]? = some call → call.place = some p →
    s.At p .reserved
  alone : ∀ (k j : Nat) (call call' : SubmitCall) p, s.submits[k]? = some call →
    s.submits[j]? = some call' → call.place = some p → call'.place = some p → k = j
  queried : ∀ (call : PollCall) p, s.poll = some call → call.place = some p → s.At p .querying

/-- The places whose `backend.query` a trace shows, in order. -/
def queries (trace : List Entry) : List Place :=
  trace.filterMap fun
    | .access p (.query _) => some p
    | _                    => none

/-- The number of `DEVICE_CONFIRMED` records of a trace. -/
def confirmations (trace : List Entry) : Nat :=
  trace.countP fun
    | .access _ (.confirmed _) => true
    | _                        => false

/-- A step that the poll call does not notice. -/
structure Quiet (s s' : State) : Prop where
  poll : s'.poll = s.poll
  cursor : s'.manager.pollCursor = s.manager.pollCursor
  trace : ∃ es, s'.trace = s.trace ++ es ∧ queries es = [] ∧ confirmations es = 0
  pending : ∀ p, s.At p .pending → s'.At p .pending

/-- The queries of a trace, one part after the other. -/
theorem queries_append (t₁ t₂ : List Entry) : queries (t₁ ++ t₂) = queries t₁ ++ queries t₂ :=
  List.filterMap_append

/-- The confirmations of both parts are counted. -/
theorem confirmations_append (t₁ t₂ : List Entry) :
    confirmations (t₁ ++ t₂) = confirmations t₁ + confirmations t₂ :=
  List.countP_append

/-! ### The state of a slot -/

section
variable {s s' : State} {p q : Place} {st : SlotState}

/-- A slot has one state. -/
theorem State.At.unique (h : s.At p st) {st' : SlotState} (h' : s.At p st') : st = st' := by
  obtain ⟨slot, hslot, rfl⟩ := h
  obtain ⟨slot', hslot', rfl⟩ := h'
  rw [Option.some.inj (hslot.symm.trans hslot')]

/-- A step that leaves the slot leaves its state. -/
theorem State.at_congr (h : s'.manager.slot? p = s.manager.slot? p) : s'.At p st ↔ s.At p st := by
  rw [At, h, ← At]

/-- An access changes the state of its own slot only. -/
theorem State.at_access_of_ne (h : q ≠ p) (slot : Slot) (a : Access) :
    (s.access p slot a).At q st ↔ s.At q st := by
  refine at_congr ?_
  show (s.manager.modifySlot p _).slot? q = _
  rw [Manager.slot?_modifySlot, if_neg h]

/-- After an access the slot has the state that was written. -/
theorem State.at_access {slot : Slot} (h : s.manager.slot? p = some slot) (slot' : Slot)
    (a : Access) : (s.access p slot' a).At p slot'.state := by
  refine ⟨slot', ?_, rfl⟩
  show (s.manager.modifySlot p _).slot? p = _
  rw [Manager.slot?_modifySlot, if_pos rfl, h, Option.map_some]

end

/-! ### The slots of a manager -/

/-- The same streams with as many slots. -/
structure SameSlots (m m' : Manager) : Prop where
  slotsPerStream : m'.slotsPerStream = m.slotsPerStream
  streams : m'.streams.map (fun stream => stream.slots.length)
    = m.streams.map fun stream => stream.slots.length

/-- A manager has its own slots. -/
theorem SameSlots.refl (m : Manager) : SameSlots m m := ⟨rfl, rfl⟩

/-- What has the same slots over two steps has them over both. -/
theorem SameSlots.trans {m m' m'' : Manager} (h : SameSlots m m') (h' : SameSlots m' m'') :
    SameSlots m m'' :=
  ⟨h'.slotsPerStream.trans h.slotsPerStream, h'.streams.trans h.streams⟩

/-- The number of all slots is the same. -/
theorem SameSlots.total {m m' : Manager} (h : SameSlots m m') : m'.total = m.total := by
  have hlen := congrArg List.length h.streams
  rw [List.length_map, List.length_map] at hlen
  rw [Manager.total, hlen, h.slotsPerStream, ← Manager.total]

/-- A change of one element that `g` does not see. -/
theorem map_modify_of_eq {α β : Type} {f : α → α} {g : α → β} (h : ∀ a, g (f a) = g a)
    (l : List α) (i : Nat) : (l.modify i f).map g = l.map g := by
  refine List.ext_getElem? fun j => ?_
  rw [List.getElem?_map, List.getElem?_map, List.getElem?_modify]
  cases l[j]? with
  | none => rfl
  | some a =>
      by_cases hij : i = j
      · simp [hij, h]
      · simp [hij]

/-- A change of a slot adds none. -/
theorem sameSlots_modifySlot (m : Manager) (p : Place) (f : Slot → Slot) :
    SameSlots m (m.modifySlot p f) := by
  refine ⟨rfl, map_modify_of_eq (fun stream => ?_) m.streams p.stream⟩
  exact List.length_modify _ _ _

/-- A change of a cursor adds no slot. -/
theorem sameSlots_bumpCursor (m : Manager) (i : Nat) : SameSlots m (m.bumpCursor i) := by
  refine ⟨rfl, map_modify_of_eq (fun stream => ?_) m.streams i⟩
  rfl

/-- No step of a submit or poll call adds a slot. -/
theorem sameSlots_step {s s' : State} (a : Action) (hs : s.step a = some s') :
    SameSlots s.manager s'.manager := by
  rcases State.manager_step a hs with ⟨i, hm⟩ | ⟨p, slot, slot', -, -, hm⟩ | ⟨flag, cursor, hm⟩
  · exact hm ▸ sameSlots_bumpCursor _ _
  · exact hm ▸ sameSlots_modifySlot _ _ _
  · exact hm ▸ ⟨rfl, rfl⟩

/-- The slots of a run are those of its start. -/
theorem sameSlots_run {s s' : State} {as : List Action} (h : Run State.step s as s') :
    SameSlots s.manager s'.manager :=
  Run.invariant (fun x => SameSlots s.manager x.manager)
    (fun _ a _ hx hs => hx.trans (sameSlots_step a hs)) h (.refl _)

/-- Every stream of the manager has `slots_per_stream` slots. -/
def Manager.Shaped (m : Manager) : Prop :=
  ∀ stream ∈ m.streams, stream.slots.length = m.slotsPerStream.toNat

/-- The streams stay as long as they were. -/
theorem SameSlots.shaped {m m' : Manager} (h : SameSlots m m') (hm : m.Shaped) :
    m'.Shaped := by
  intro stream hstream
  have hmem := List.mem_map_of_mem (f := fun stream : Stream => stream.slots.length) hstream
  rw [h.streams] at hmem
  obtain ⟨stream₀, hstream₀, hlen⟩ := List.mem_map.mp hmem
  rw [h.slotsPerStream, ← hm stream₀ hstream₀]
  exact hlen.symm

/-- As many events as were asked for. -/
theorem length_createEvents {create : Nat → Except Int Nat} {count : Nat} {events es : List Nat}
    (h : createEvents create count events = .ok es) : es.length = events.length + count := by
  induction count generalizing events with
  | zero =>
      obtain rfl := Except.ok.inj h
      rfl
  | succ count ih =>
      cases hevent : create events.length with
      -- One more event, and one fewer to create.
      | ok event =>
          simp only [createEvents, hevent] at h
          rw [ih h, List.length_append, List.length_singleton]
          omega
      | error rc => simp only [createEvents, hevent, reduceCtorEq] at h

/-- A new stream has as many slots as the others. -/
theorem Manager.Shaped.register {m : Manager} (h : m.Shaped) (streamId : UInt32) (handle : Nat)
    (create : Nat → Except Int Nat) :
    (flightCheckpointRegisterStream m streamId handle create).1.Shaped := by
  unfold flightCheckpointRegisterStream
  split
  · exact h
  · split
    · rename_i events hevents
      intro stream hstream
      -- The new stream has an event for each slot.
      rcases List.mem_append.mp hstream with hold | hnew
      · exact h stream hold
      · rw [List.mem_singleton.mp hnew]
        show (events.map Slot.new).length = m.slotsPerStream.toNat
        rw [List.length_map, length_createEvents hevents, List.length_nil, Nat.zero_add]
    · exact h

/-- A slot has a position in the poll order, and the position leads to it. -/
theorem Manager.Shaped.place {m : Manager} (h : m.Shaped) {p : Place} {slot : Slot}
    (hslot : m.slot? p = some slot) : ∃ flat < m.total, m.placeOf flat = p := by
  obtain ⟨stream, hstream, hslot⟩ := Option.bind_eq_some_iff.mp hslot
  have hi := (List.getElem?_eq_some_iff.mp hstream).1
  have hj := (List.getElem?_eq_some_iff.mp hslot).1
  rw [h stream (List.mem_of_getElem? hstream)] at hj
  -- The streams come one after the other, with the same number of slots each.
  refine ⟨m.slotsPerStream.toNat * p.stream + p.slot, ?_, ?_⟩
  · have hle : m.slotsPerStream.toNat * (p.stream + 1)
        ≤ m.slotsPerStream.toNat * m.streams.length := Nat.mul_le_mul_left _ hi
    rw [Nat.mul_succ] at hle
    rw [Manager.total, Nat.mul_comm m.streams.length]
    omega
  · rw [Manager.placeOf, Nat.mul_add_div (by omega), Nat.div_eq_of_lt hj, Nat.add_zero,
      Nat.mul_add_mod, Nat.mod_eq_of_lt hj]

/-- A submit call keeps its slot in the state it has, until it gives it up. -/
theorem SubmitCall.hold_state {k : Nat} {call : SubmitCall} {slot slot' : Slot} {rc : Int}
    {a : Access} {pc : SubmitPc} (h : call.hold k slot rc = some (slot', a, pc)) :
    slot'.state = slot.state ∧ ({ call with pc } : SubmitCall).place = call.place ∨
      ({ call with pc } : SubmitCall).place = none := by
  cases hold_cases h with
  | number hpc | fill hpc | enqueue hpc | refuse hpc | report hpc =>
      refine .inl ⟨rfl, ?_⟩
      simp only [place, hpc]
  | release | publish => exact .inr rfl

/-- A submit call asks no query and confirms nothing. -/
theorem SubmitCall.hold_quiet {k : Nat} {call : SubmitCall} {slot slot' : Slot} {rc : Int}
    {a : Access} {pc : SubmitPc} (h : call.hold k slot rc = some (slot', a, pc)) (p : Place) :
    queries [.access p a] = [] ∧ confirmations [.access p a] = 0 := by
  cases hold_cases h <;> exact ⟨rfl, rfl⟩

/-- The poll call keeps its slot in the state it has, until it gives it up. -/
theorem PollCall.hold_state {id : UInt32} {call call' : PollCall} {slot slot' : Slot} {rc : Int}
    {a : Option Access} (h : call.hold id slot rc = some (slot', a, call')) :
    slot'.state = slot.state ∧ call'.place = call.place ∨ call'.place = none := by
  cases hold_cases h with
  | load hpc | ready hpc | unready hpc | confirm hpc | again hpc =>
      refine .inl ⟨rfl, ?_⟩
      simp only [place, hpc]
  | @observe p mark gen _ hpc =>
      refine .inl ⟨?_, ?_⟩
      · cases mark <;> rfl
      · simp only [place, hpc]
  | release | withdraw => exact .inr rfl

/-! ### Every step keeps the calls coherent -/

section
variable {s s' : State} {k : Nat} {rc : Int}

/-- A step that changes no slot, and no place of a call. -/
theorem Coherent.idle (h : Coherent s) (hpolling : s'.manager.polling = s.manager.polling)
    (hslot : ∀ p, s'.manager.slot? p = s.manager.slot? p) (hpoll : s'.poll = s.poll)
    (hplaces : ∀ (k : Nat) (call : SubmitCall) p, s'.submits[k]? = some call →
      call.place = some p → ∃ call₀ : SubmitCall, s.submits[k]? = some call₀ ∧
        call₀.place = some p) : Coherent s' where
  polling := by
    rw [hpoll, hpolling]
    exact h.polling
  -- A call holds what it held before.
  held k call p hk hp := by
    obtain ⟨call₀, hk₀, hp₀⟩ := hplaces k call p hk hp
    exact (State.at_congr (hslot p)).mpr (h.held k call₀ p hk₀ hp₀)
  alone k j call call' p hk hj hp hp' := by
    obtain ⟨call₀, hk₀, hp₀⟩ := hplaces k call p hk hp
    obtain ⟨call₁, hj₁, hp₁⟩ := hplaces j call' p hj hp'
    exact h.alone k j call₀ call₁ p hk₀ hj₁ hp₀ hp₁
  queried call p hcall hp := by
    rw [hpoll] at hcall
    exact (State.at_congr (hslot p)).mpr (h.queried call p hcall hp)

/-- A submit call that gives up its place, or never had one. -/
theorem placed_set {k : Nat} (call' : SubmitCall) (hplace : call'.place = none) (j : Nat)
    (c : SubmitCall) (p : Place) (hj : (s.submits.set k call')[j]? = some c)
    (hp : c.place = some p) : ∃ c₀ : SubmitCall, s.submits[j]? = some c₀ ∧ c₀.place = some p := by
  rcases getElem?_set_cases hj with ⟨rfl, rfl⟩ | ⟨-, hj⟩
  · rw [hplace] at hp
    cases hp
  · exact ⟨c, hj, hp⟩

/-- A submit call that reserves the slot at `p`, or holds it and makes a step there. -/
theorem Coherent.submit_access (h : Coherent s) {call' : SubmitCall} {p : Place}
    {slot slot' : Slot} {a : Access} (hslot : s.manager.slot? p = some slot)
    (hother : ∀ (j : Nat) (c : SubmitCall), j ≠ k → s.submits[j]? = some c → c.place ≠ some p)
    (hpoll : ∀ c : PollCall, s.poll = some c → c.place ≠ some p)
    (hplace : call'.place = none ∨ call'.place = some p ∧ slot'.state = .reserved) :
    Coherent ((s.access p slot' a).setSubmit k call') := by
  -- The calls after the step: this one, or one that was there before.
  have hsubmits (j : Nat) (c : SubmitCall)
      (hj : ((s.access p slot' a).setSubmit k call').submits[j]? = some c) :
      (j = k ∧ c = call') ∨ (j ≠ k ∧ s.submits[j]? = some c) :=
    getElem?_set_cases hj
  have hself (q : Place) (hq : call'.place = some q) : q = p ∧ slot'.state = .reserved := by
    rcases hplace with hnone | ⟨hsome, hstate⟩
    · rw [hnone] at hq
      cases hq
    · exact ⟨Option.some.inj (hq.symm.trans hsome), hstate⟩
  refine ⟨h.polling, ?_, ?_, ?_⟩
  · intro j c q hj hq
    rcases hsubmits j c hj with ⟨rfl, rfl⟩ | ⟨hjk, hj⟩
    · obtain ⟨rfl, hstate⟩ := hself q hq
      have hat := State.at_access hslot slot' a
      rwa [hstate] at hat
    · have hqp : q ≠ p := fun heq => hother j c hjk hj (heq ▸ hq)
      exact (State.at_access_of_ne hqp slot' a).mpr (h.held j c q hj hq)
  · intro j i c c' q hj hi hq hq'
    rcases hsubmits j c hj with ⟨hjk, hc⟩ | ⟨hjk, hj⟩
    · rcases hsubmits i c' hi with ⟨hik, -⟩ | ⟨hik, hi⟩
      · rw [hjk, hik]
      · rw [hc] at hq
        rw [(hself q hq).1] at hq'
        exact absurd hq' (hother i c' hik hi)
    · rcases hsubmits i c' hi with ⟨hik, hc'⟩ | ⟨hik, hi⟩
      · rw [hc'] at hq'
        rw [(hself q hq').1] at hq
        exact absurd hq (hother j c hjk hj)
      · exact h.alone j i c c' q hj hi hq hq'
  · intro c q hc hq
    have hqp : q ≠ p := fun heq => hpoll c hc (heq ▸ hq)
    exact (State.at_access_of_ne hqp slot' a).mpr (h.queried c q hc hq)

/-- The poll call takes the slot at `p`, or holds it and makes a step there. -/
theorem Coherent.poll_access (h : Coherent s) {call call' : PollCall} {p : Place}
    {slot slot' : Slot} {a : Access} (hcall : s.poll = some call)
    (hslot : s.manager.slot? p = some slot)
    (hother : ∀ (j : Nat) (c : SubmitCall), s.submits[j]? = some c → c.place ≠ some p)
    (hplace : call'.place = none ∨ call'.place = some p ∧ slot'.state = .querying) :
    Coherent ((s.access p slot' a).setPoll (some call')) := by
  refine ⟨fun _ => h.polling (by rw [hcall]; rfl), ?_, h.alone, ?_⟩
  · -- No submit call is at the slot of the poll call.
    intro j c q hj hq
    have hqp : q ≠ p := fun heq => hother j c hj (heq ▸ hq)
    exact (State.at_access_of_ne hqp slot' a).mpr (h.held j c q hj hq)
  · intro c q hc hq
    obtain rfl := Option.some.inj hc
    rcases hplace with hnone | ⟨hsome, hstate⟩
    · rw [hnone] at hq
      cases hq
    · obtain rfl := Option.some.inj (hq.symm.trans hsome)
      have hat := State.at_access hslot slot' a
      rwa [hstate] at hat

/-- A slot in another state than `reserved` is not held by a submit call. -/
theorem Coherent.not_held (h : Coherent s) {p : Place} {st : SlotState} (hat : s.At p st)
    (hst : st ≠ .reserved) {j : Nat} {c : SubmitCall} (hj : s.submits[j]? = some c) :
    c.place ≠ some p :=
  fun hp => hst (hat.unique (h.held j c p hj hp))

/-- A slot in another state than `querying` is not held by the poll call. -/
theorem Coherent.not_queried (h : Coherent s) {p : Place} {st : SlotState} (hat : s.At p st)
    (hst : st ≠ .querying) {c : PollCall} (hc : s.poll = some c) : c.place ≠ some p :=
  fun hp => hst (hat.unique (h.queried c p hc hp))

/-- A step of a submit call keeps the calls coherent. The call holds its slot alone, so the
slots of the others are as they were. -/
theorem coherent_advance (h : Coherent s) (hs : s.advance k rc = some s') : Coherent s' := by
  cases State.advance_cases hs with
  -- The slot was free, so no call held it.
  | @reserve _ _ call start n slot hk hpc hslot hfree =>
      have hat : s.At (s.candidate call start n) .free := ⟨slot, hslot, hfree⟩
      exact h.submit_access hslot (fun j c _ hj => h.not_held hat (by decide) hj)
        (fun c hc => h.not_queried hat (by decide) hc) (.inr ⟨rfl, rfl⟩)
  | skip | full => exact h.idle rfl (fun _ => rfl) rfl (placed_set _ rfl)
  -- The call holds the slot alone.
  | @hold _ _ call p slot _ _ _ hk hp hslot hhold =>
      have hat := h.held k call p hk hp
      refine h.submit_access hslot
        (fun j c hjk hj hcp => hjk (h.alone j k c call p hj hk hcp hp))
        (fun c hc => h.not_queried hat (by decide) hc) ?_
      rcases SubmitCall.hold_state hhold with ⟨hstate, hplace⟩ | hnone
      · exact .inr ⟨hplace.trans hp, hstate.trans (State.At.unique ⟨slot, hslot, rfl⟩ hat)⟩
      · exact .inl hnone

/-- A step of the poll call keeps the calls coherent. -/
theorem coherent_advancePoll (h : Coherent s) (hs : s.advancePoll rc = some s') :
    Coherent s' := by
  cases State.advancePoll_cases hs with
  -- A slot that is pending is held by no submit call.
  | @acquire _ call slot hcall hpc hslot hpending =>
      have hat : s.At (s.target call) .pending := ⟨slot, hslot, hpending⟩
      exact h.poll_access hcall hslot (fun j c hj => h.not_held hat (by decide) hj)
        (.inr ⟨rfl, rfl⟩)
  -- The poll call goes on with no slot.
  | pass hcall =>
      refine ⟨fun _ => h.polling (by rw [hcall]; rfl), h.held, h.alone, fun c q hc hq => ?_⟩
      obtain rfl := Option.some.inj hc
      cases hq
  -- The poll call has ended.
  | finish =>
      refine ⟨fun hsome => ?_, h.held, h.alone, fun c q hc hq => ?_⟩
      · cases hsome
      · cases hc
  | @pollHold _ call _ p _ slot _ _ hcall hp hslot _ hhold =>
      have hat := h.queried call p hcall hp
      refine h.poll_access hcall hslot (fun j c hj => h.not_held hat (by decide) hj) ?_
      rcases PollCall.hold_state hhold with ⟨hstate, hplace⟩ | hnone
      · exact .inr ⟨hplace.trans hp, hstate.trans (State.At.unique ⟨slot, hslot, rfl⟩ hat)⟩
      · exact .inl hnone
  -- The call keeps its slot, or it has left it.
  | @pollQuiet _ call _ _ _ _ _ hcall _ _ _ hhold =>
      refine ⟨fun _ => h.polling (by rw [hcall]; rfl), h.held, h.alone, fun c q hc hq => ?_⟩
      obtain rfl := Option.some.inj hc
      rcases PollCall.hold_state hhold with ⟨-, hplace⟩ | hnone
      · exact h.queried call q hcall (hplace ▸ hq)
      · rw [hnone] at hq
        cases hq

/-- Every step keeps the calls coherent. -/
theorem coherent_step (h : Coherent s) (a : Action) (hs : s.step a = some s') : Coherent s' := by
  cases State.step_cases hs with
  | refused => exact h
  | submit =>
      refine h.idle rfl (fun p => Manager.slot?_bumpCursor _ _ _) rfl fun j c p hj hp => ?_
      rcases getElem?_concat_cases hj with hold | ⟨-, rfl⟩
      · exact ⟨c, hold, hp⟩
      · -- The new call holds no slot yet.
        cases hp
  | reserve | skip | full | hold => exact coherent_advance h hs
  | pollRefused | host => exact h.idle rfl (fun _ => rfl) rfl fun j c p hj hp => ⟨c, hj, hp⟩
  -- The new poll call has no slot yet.
  | poll =>
      refine ⟨fun _ => rfl, h.held, h.alone, fun c q hc hq => ?_⟩
      obtain rfl := Option.some.inj hc
      cases hq
  | acquire | pass | finish | pollHold | pollQuiet => exact coherent_advancePoll h hs

/-- A manager with no call in progress, whatever its slots are. -/
theorem coherent_start (m : Manager) : Coherent (State.start m) where
  polling h := by cases h
  held k call p hk := by simp [State.start] at hk
  alone k j call call' p hk := by simp [State.start] at hk
  queried call p h := by cases h

/-- The calls of a run are coherent. -/
theorem coherent_run {m : Manager} {as : List Action}
    (h : Run State.step (State.start m) as s) : Coherent s :=
  Run.invariant Coherent (fun _ a _ hc hs => coherent_step hc a hs) h (coherent_start m)

/-! ### Steps that the poll call does not notice -/

/-- A step that leaves the slots, the poll call and its cursor is quiet. -/
theorem Quiet.of_same (hmanager : ∀ p, s'.manager.slot? p = s.manager.slot? p)
    (hcursor : s'.manager.pollCursor = s.manager.pollCursor) (hpoll : s'.poll = s.poll)
    (htrace : ∃ es, s'.trace = s.trace ++ es ∧ queries es = [] ∧ confirmations es = 0) :
    Quiet s s' :=
  ⟨hpoll, hcursor, htrace, fun p hp => (State.at_congr (hmanager p)).mpr hp⟩

/-- A submit call takes no pending slot and leaves the poll call alone. -/
theorem quiet_advance (h : Coherent s) (hs : s.advance k rc = some s') : Quiet s s' := by
  cases State.advance_cases hs with
  -- A slot that is pending is not the one reserved here.
  | @reserve _ _ call start n slot _ _ hslot hfree =>
      refine ⟨rfl, rfl, ⟨_, rfl, rfl, rfl⟩, fun q hq => ?_⟩
      have hqp : q ≠ s.candidate call start n := by
        rintro rfl
        cases hq.unique ⟨slot, hslot, hfree⟩
      exact (State.at_access_of_ne hqp _ (.reserve k)).mpr hq
  | skip => exact .of_same (fun _ => rfl) rfl rfl ⟨[], (List.append_nil _).symm, rfl, rfl⟩
  | full => exact .of_same (fun _ => rfl) rfl rfl ⟨_, rfl, rfl, rfl⟩
  -- The slot is held by the call, so it is not pending.
  | @hold _ _ call p _ slot' x _ hk hp _ hhold =>
      obtain ⟨hqueries, hconfirmations⟩ := SubmitCall.hold_quiet hhold p
      refine ⟨rfl, rfl, ⟨_, rfl, hqueries, hconfirmations⟩, fun q hq => ?_⟩
      have hqp : q ≠ p := by
        rintro rfl
        cases hq.unique (h.held k call q hk hp)
      exact (State.at_access_of_ne hqp slot' x).mpr hq

/-- A step is one of the poll call, the start of a poll call that scans, or quiet. -/
theorem quiet_step (h : Coherent s) (a : Action) (hs : s.step a = some s') :
    (∃ rc, a = .advancePoll rc) ∨
      (∃ budget, a = .poll budget ∧ s.poll = none ∧ s'.poll.isSome) ∨ Quiet s s' := by
  cases State.step_cases hs with
  | submit =>
      exact .inr (.inr (.of_same (fun _ => Manager.slot?_bumpCursor _ _ _) rfl rfl
        ⟨[], (List.append_nil _).symm, rfl, rfl⟩))
  | refused =>
      exact .inr (.inr (.of_same (fun _ => rfl) rfl rfl ⟨[], (List.append_nil _).symm, rfl, rfl⟩))
  | reserve | skip | full | hold => exact .inr (.inr (quiet_advance h hs))
  | pollRefused | host => exact .inr (.inr (.of_same (fun _ => rfl) rfl rfl ⟨_, rfl, rfl, rfl⟩))
  -- The lock was free, so no poll call was in progress.
  | @poll budget hgo =>
      refine .inr (.inl ⟨budget, rfl, ?_, rfl⟩)
      cases hpoll : s.poll with
      | none => rfl
      | some call => exact absurd (.inr (.inl (h.polling (by rw [hpoll]; rfl)))) hgo
  | acquire | pass | finish | pollHold | pollQuiet => exact .inl ⟨_, rfl⟩

end

end HangAnalyzer.Checkpoint
