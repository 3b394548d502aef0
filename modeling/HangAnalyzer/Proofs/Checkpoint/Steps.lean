import HangAnalyzer.Checkpoint.Life

/-!
# `HangAnalyzer.Proofs.Checkpoint.Steps`: what one step of the pool can do

`State.Step` lists everything a step of the pool can do, `SubmitCall.Step` and
`PollCall.Step` what a call does at the slot that it holds, and `Life.Step` what can happen to
a slot. Each comes with a `_cases` lemma, and these are all that later proofs use of the step
functions. The other lemmas say how the slots, the stream ids and the accesses of a place
change.
-/

set_option autoImplicit false

namespace HangAnalyzer.Checkpoint

open HangAnalyzer.Lib
open HangAnalyzer.Recorder (Call)

/-! ### The steps of a life -/

namespace Life

/-- What an access does to a slot, with one constructor for each way. -/
inductive Step (id : UInt32) (l : Life) : Access → Life → Prop where
  -- The submit call, from the exchange with `RESERVED` to the store of `PENDING`.
  | reserve {k : Nat} (hphase : l.phase = .free) :
      Step id l (.reserve k) { l with phase := .reserved k }
  | number {k : Nat} (hphase : l.phase = .reserved k) :
      Step id l (.number k)
        { l with generation := l.generation + 1, phase := .numbered k, seen := fun _ => false }
  | fill {k : Nat} {seq checkpoint : UInt64} (hphase : l.phase = .numbered k) :
      Step id l (.fill k seq checkpoint)
        { l with submittedSeq := seq, checkpointId := checkpoint, phase := .filled k }
  | enqueue {k : Nat} (hphase : l.phase = .filled k) :
      Step id l (.enqueue k 0) { l with phase := .queued k }
  | refuse {k : Nat} {rc : Int} (hphase : l.phase = .filled k) (hrc : rc ≠ 0) :
      Step id l (.enqueue k rc) { l with phase := .failed k }
  | submit {k : Nat} (hphase : l.phase = .queued k) :
      Step id l (.submitted k (l.stamp id)) { l with phase := .submitted k }
  | publish {k : Nat} (hphase : l.phase = .submitted k) :
      Step id l (.publish k) { l with phase := .pending k }
  -- The poll call, from the exchange with `QUERYING` on.
  | acquire {k : Nat} (hphase : l.phase = .pending k) :
      Step id l .acquire { l with phase := .querying k }
  | load {k : Nat} (hphase : l.phase = .querying k) : Step id l .load l
  | query {k : Nat} {rc : Int} (hphase : l.phase = .querying k) : Step id l (.query rc) l
  | observe {k : Nat} {mark : Mark} (hphase : l.phase = .querying k) (hnew : l.seen mark = false) :
      Step id l (.observed mark (l.stamp id)) { l with seen := Function.update l.seen mark true }
  | withdraw {k : Nat} (hphase : l.phase = .querying k) :
      Step id l .withdraw { l with phase := .pending k }
  | confirm {k : Nat} (hphase : l.phase = .querying k) :
      Step id l (.confirmed (l.stamp id)) { l with phase := .confirmed k }
  -- The slot is free again: the event was not recorded, or it was reported as complete.
  | giveUp {k : Nat} (hphase : l.phase = .failed k) : Step id l .release { l with phase := .free }
  | release {k : Nat} (hphase : l.phase = .confirmed k) :
      Step id l .release { l with phase := .free }

/-- Every access that the life allows is one of the list. -/
theorem step_cases {id : UInt32} {l l' : Life} {a : Access} (h : l.step id a = some l') :
    Step id l a l' := by
  unfold step at h
  split at h
  case h_1 k hphase =>
      obtain rfl := Option.some.inj h
      exact .reserve hphase
  -- A step of a submit call also checks that this call holds the slot.
  case h_2 j k hphase =>
      split at h
      · rename_i heq
        obtain rfl := heq
        obtain rfl := Option.some.inj h
        exact .number hphase
      · cases h
  case h_3 j k seq checkpoint hphase =>
      split at h
      · rename_i heq
        obtain rfl := heq
        obtain rfl := Option.some.inj h
        exact .fill hphase
      · cases h
  case h_4 j k rc hphase =>
      split at h
      · rename_i heq
        obtain rfl := heq
        obtain rfl := Option.some.inj h
        by_cases hrc : rc = 0
        · subst hrc
          exact .enqueue hphase
        · rw [if_neg hrc]
          exact .refuse hphase hrc
      · cases h
  case h_5 j k stamp hphase =>
      split at h
      · rename_i heq
        obtain ⟨rfl, rfl⟩ := heq
        obtain rfl := Option.some.inj h
        exact .submit hphase
      · cases h
  case h_6 j k hphase =>
      split at h
      · rename_i heq
        obtain rfl := heq
        obtain rfl := Option.some.inj h
        exact .publish hphase
      · cases h
  case h_7 k hphase =>
      obtain rfl := Option.some.inj h
      exact .acquire hphase
  case h_8 k hphase =>
      obtain rfl := Option.some.inj h
      exact .load hphase
  case h_9 k rc hphase =>
      obtain rfl := Option.some.inj h
      exact .query hphase
  -- A mark is made once in a generation.
  case h_10 k mark stamp hphase =>
      split at h
      · rename_i heq
        obtain ⟨rfl, hnew⟩ := heq
        obtain rfl := Option.some.inj h
        exact .observe hphase hnew
      · cases h
  case h_11 k hphase =>
      obtain rfl := Option.some.inj h
      exact .withdraw hphase
  case h_12 k stamp hphase =>
      split at h
      · rename_i heq
        obtain rfl := heq
        obtain rfl := Option.some.inj h
        exact .confirm hphase
      · cases h
  case h_13 k hphase =>
      obtain rfl := Option.some.inj h
      exact .giveUp hphase
  case h_14 k hphase =>
      obtain rfl := Option.some.inj h
      exact .release hphase
  case h_15 => cases h

/-- Every access of the list is one that the life allows. -/
theorem Step.step_eq {id : UInt32} {l l' : Life} {a : Access} (h : Step id l a l') :
    l.step id a = some l' := by
  cases h with
  | reserve hphase | number hphase | fill hphase | enqueue hphase | submit hphase | publish hphase
  | acquire hphase | load hphase | query hphase | withdraw hphase | confirm hphase | giveUp hphase
  | release hphase => simp [step, hphase]
  | refuse hphase hrc => simp [step, hphase, hrc]
  | observe hphase hnew => simp [step, hphase, hnew]

end Life

/-! ### The steps of a call at the slot it holds -/

/-- What submit call `k` does at the slot it holds: the answer of `backend.record`, the slot
after the step, what the call does and its next step. -/
inductive SubmitCall.Step (k : Nat) (call : SubmitCall) (slot : Slot) :
    Int → Slot → Access → SubmitPc → Prop where
  | number {i : Nat} {rc : Int} (hpc : call.pc = .number i) :
      Step k call slot rc { slot with generation := slot.generation + 1 } (.number k)
        (.fill i (slot.generation + 1))
  | fill {i : Nat} {gen : UInt64} {rc : Int} (hpc : call.pc = .fill i gen) :
      Step k call slot rc
        { slot with submittedSeq := call.submittedSeq, checkpointId := call.checkpointId }
        (.fill k call.submittedSeq call.checkpointId) (.enqueue i gen)
  | enqueue {i : Nat} {gen : UInt64} (hpc : call.pc = .enqueue i gen) :
      Step k call slot 0 slot (.enqueue k 0) (.report i gen)
  | refuse {i : Nat} {gen : UInt64} {rc : Int} (hpc : call.pc = .enqueue i gen) (hrc : rc ≠ 0) :
      Step k call slot rc slot (.enqueue k rc) (.release i rc)
  | release {i : Nat} {rc₀ rc : Int} (hpc : call.pc = .release i rc₀) :
      Step k call slot rc { slot with state := .free } .release (.done (errorCode rc₀) none)
  | report {i : Nat} {gen : UInt64} {rc : Int} (hpc : call.pc = .report i gen) :
      Step k call slot rc slot (.submitted k (call.stamp gen)) (.publish i gen)
  | publish {i : Nat} {gen : UInt64} {rc : Int} (hpc : call.pc = .publish i gen) :
      Step k call slot rc { slot with state := .pending } (.publish k) (.done 0 (some gen))

/-- Every step of a submit call at its slot is one of the list. -/
theorem SubmitCall.hold_cases {k : Nat} {call : SubmitCall} {slot slot' : Slot} {rc : Int}
    {a : Access} {pc : SubmitPc} (h : call.hold k slot rc = some (slot', a, pc)) :
    SubmitCall.Step k call slot rc slot' a pc := by
  unfold hold at h
  cases hpc : call.pc with
  | scan | done =>
      rw [hpc] at h
      cases h
  -- The pool does one access of the slot in each step.
  | number i =>
      rw [hpc] at h
      cases h
      exact .number hpc
  | fill i gen =>
      rw [hpc] at h
      cases h
      exact .fill hpc
  | enqueue i gen =>
      rw [hpc] at h
      cases h
      -- The backend takes the marker, or refuses it.
      by_cases hrc : rc = 0
      · subst hrc
        exact .enqueue hpc
      · rw [if_neg hrc]
        exact .refuse hpc hrc
  | release i rc₀ =>
      rw [hpc] at h
      cases h
      exact .release hpc
  | report i gen =>
      rw [hpc] at h
      cases h
      exact .report hpc
  | publish i gen =>
      rw [hpc] at h
      cases h
      exact .publish hpc

/-- What the poll call does at the slot it holds, in the stream `id`: the answer of
`backend.query`, the slot after the step, what the call does and the call after it. -/
inductive PollCall.Step (id : UInt32) (call : PollCall) (slot : Slot) :
    Int → Slot → Option Access → PollCall → Prop where
  | load {p : Place} {rc : Int} (hpc : call.pc = .load p) :
      Step id call slot rc slot (some .load) { call with pc := .query p slot.generation }
  | ready {p : Place} {gen : UInt64} (hpc : call.pc = .query p gen) :
      Step id call slot 1 slot (some (.query 1)) { call with pc := .confirm p gen }
  | unready {p : Place} {gen : UInt64} {rc : Int} {mark : Mark} (hpc : call.pc = .query p gen)
      (hrc : rc ≠ 1) (hmark : mark = if rc = 0 then .notReady else .queryError) :
      Step id call slot rc slot (some (.query rc)) { call with pc := .observe p mark gen }
  | confirm {p : Place} {gen : UInt64} {rc : Int} (hpc : call.pc = .confirm p gen) :
      Step id call slot rc slot (some (.confirmed (PollCall.stamp id slot gen)))
        { call with pc := .release p }
  | release {p : Place} {rc : Int} (hpc : call.pc = .release p) :
      Step id call slot rc { slot with state := .free } (some .release)
        { call.next with completed := call.completed + 1 }
  | observe {p : Place} {mark : Mark} {gen : UInt64} {rc : Int}
      (hpc : call.pc = .observe p mark gen) (hnew : slot.reported mark ≠ gen) :
      Step id call slot rc (slot.setReported mark gen)
        (some (.observed mark (PollCall.stamp id slot gen))) { call with pc := .withdraw p }
  | again {p : Place} {mark : Mark} {gen : UInt64} {rc : Int}
      (hpc : call.pc = .observe p mark gen) (hold : slot.reported mark = gen) :
      Step id call slot rc slot none { call with pc := .withdraw p }
  | withdraw {p : Place} {rc : Int} (hpc : call.pc = .withdraw p) :
      Step id call slot rc { slot with state := .pending } (some .withdraw) call.next

/-- Every step of the poll call at its slot is one of the list. -/
theorem PollCall.hold_cases {id : UInt32} {call call' : PollCall} {slot slot' : Slot} {rc : Int}
    {a : Option Access} (h : call.hold id slot rc = some (slot', a, call')) :
    PollCall.Step id call slot rc slot' a call' := by
  unfold hold at h
  cases hpc : call.pc with
  | scan =>
      rw [hpc] at h
      cases h
  | load p =>
      rw [hpc] at h
      cases h
      exact .load hpc
  | query p gen =>
      rw [hpc] at h
      cases h
      unfold answer
      -- The answer decides how the call goes on.
      by_cases hrc : rc = 1
      · subst hrc
        exact .ready hpc
      · rw [if_neg hrc]
        by_cases hzero : rc = 0
        · rw [if_pos hzero]
          exact .unready hpc hrc (if_pos hzero).symm
        · rw [if_neg hzero]
          exact .unready hpc hrc (if_neg hzero).symm
  | confirm p gen =>
      rw [hpc] at h
      cases h
      exact .confirm hpc
  | release p =>
      rw [hpc] at h
      cases h
      exact .release hpc
  | observe p mark gen =>
      rw [hpc] at h
      simp only at h
      -- A mark is written once for each generation.
      split at h
      · rename_i hnew
        cases h
        exact .observe hpc hnew
      · rename_i hold
        cases h
        exact .again hpc (not_not.mp hold)
  | withdraw p =>
      rw [hpc] at h
      cases h
      exact .withdraw hpc

/-! ### Slots and streams of a manager -/

namespace Manager

variable (m : Manager) (p q : Place) (f : Slot → Slot)

/-- A change of a slot reaches no other slot. -/
theorem slot?_modifySlot :
    (m.modifySlot p f).slot? q = if q = p then (m.slot? q).map f else m.slot? q := by
  obtain ⟨i, j⟩ := p
  obtain ⟨i', j'⟩ := q
  simp only [slot?, modifySlot, List.getElem?_modify, Place.mk.injEq]
  by_cases hi : i = i'
  · subst hi
    by_cases hj : j = j'
    · subst hj
      cases hstream : m.streams[i]? <;> simp
    · cases hstream : m.streams[i]? <;> simp [hj, Ne.symm hj]
  · cases hstream : m.streams[i']? <;> simp [hi, Ne.symm hi]

/-- A change of a slot leaves the ids of the streams. -/
@[simp] theorem streamId?_modifySlot (i : Nat) :
    (m.modifySlot p f).streamId? i = m.streamId? i := by
  simp only [streamId?, modifySlot, List.getElem?_modify]
  by_cases hi : p.stream = i
  · subst hi
    cases hstream : m.streams[p.stream]? <;> simp
  · simp [hi]

/-- A change of a slot leaves the length of the streams. -/
@[simp] theorem slotsPerStream_modifySlot :
    (m.modifySlot p f).slotsPerStream = m.slotsPerStream := rfl

/-- A change of a slot leaves the flag of the polls. -/
@[simp] theorem polling_modifySlot : (m.modifySlot p f).polling = m.polling := rfl

/-- A change of a cursor leaves the slots. -/
@[simp] theorem slot?_bumpCursor (i : Nat) : (m.bumpCursor i).slot? q = m.slot? q := by
  simp only [slot?, bumpCursor, List.getElem?_modify]
  by_cases hi : i = q.stream
  · subst hi
    cases hstream : m.streams[q.stream]? <;> simp
  · simp [hi]

/-- A change of a cursor leaves the ids of the streams. -/
@[simp] theorem streamId?_bumpCursor (i j : Nat) :
    (m.bumpCursor i).streamId? j = m.streamId? j := by
  simp only [streamId?, bumpCursor, List.getElem?_modify]
  by_cases hi : i = j
  · subst hi
    cases hstream : m.streams[i]? <;> simp
  · simp [hi]

/-- A change of a cursor leaves the flag of the polls. -/
@[simp] theorem polling_bumpCursor (i : Nat) : (m.bumpCursor i).polling = m.polling := rfl

/-- The stream that is found has the id. -/
theorem streamId?_of_findStream {m : Manager} {id : UInt32} {i : Nat}
    (h : m.findStream id = some i) : m.streamId? i = some id := by
  obtain ⟨hlt, hid, -⟩ := List.findIdx?_eq_some_iff_getElem.mp h
  rw [streamId?, List.getElem?_eq_getElem hlt, Option.map_some, of_decide_eq_true hid]

end Manager

/-! ### The steps of the pool -/

namespace State

variable {s s' : State}

/-- What an action does to the pool, with one constructor for each way. -/
inductive Step (s : State) : Action → State → Prop where
  -- The two calls of the host. A refused call changes nothing.
  | refused {id : UInt32} {seq checkpoint : UInt64} : Step s (.submit id seq checkpoint) s
  | submit {id : UInt32} {seq checkpoint : UInt64} {i : Nat} {start : UInt32}
      (hfound : s.manager.findStream id = some i) :
      Step s (.submit id seq checkpoint) { s with
        manager := s.manager.bumpCursor i
        submits := s.submits ++ [⟨id, seq, checkpoint, i, .scan start 0⟩] }
  -- A step of the submit call `k`: it scans for a slot or goes on at the slot it holds.
  | reserve {k : Nat} {rc : Int} {call : SubmitCall} {start : UInt32} {n : Nat} {slot : Slot}
      (hk : s.submits[k]? = some call) (hpc : call.pc = .scan start n)
      (hslot : s.manager.slot? (s.candidate call start n) = some slot)
      (hfree : slot.state = .free) :
      Step s (.advance k rc)
        ((s.access (s.candidate call start n) { slot with state := .reserved }
          (.reserve k)).setSubmit k { call with pc := .number (s.candidate call start n).slot })
  | skip {k : Nat} {rc : Int} {call : SubmitCall} {start : UInt32} {n : Nat}
      (hk : s.submits[k]? = some call) (hpc : call.pc = .scan start n) :
      Step s (.advance k rc) (s.setSubmit k { call with pc := .scan start (n + 1) })
  | full {k : Nat} {rc : Int} {call : SubmitCall} {start : UInt32} {n : Nat}
      (hk : s.submits[k]? = some call) (hpc : call.pc = .scan start n) :
      Step s (.advance k rc) { s with
        submits := s.submits.set k { call with pc := .done EAGAIN none }
        trace := s.trace ++ [.poolFull (call.stamp 0)] }
  | hold {k : Nat} {rc : Int} {call : SubmitCall} {p : Place} {slot slot' : Slot} {x : Access}
      {pc : SubmitPc} (hk : s.submits[k]? = some call) (hp : call.place = some p)
      (hslot : s.manager.slot? p = some slot) (hhold : call.hold k slot rc = some (slot', x, pc)) :
      Step s (.advance k rc) ((s.access p slot' x).setSubmit k { call with pc })
  | pollRefused {budget : UInt32} :
      Step s (.poll budget) { s with trace := s.trace ++ [.polled 0] }
  | poll {budget : UInt32}
      (hgo : ¬ (budget = 0 ∨ s.manager.polling = true ∨ s.manager.total = 0)) :
      Step s (.poll budget) { s with
        manager := { s.manager with
          polling := true
          pollCursor := s.manager.pollCursor + budget.toUInt64 }
        poll := some ⟨budget, s.manager.pollCursor, 0, 0, 0, .scan⟩ }
  -- A step of the poll call. `pollQuiet` is the one at a slot that writes no record.
  | acquire {rc : Int} {call : PollCall} {slot : Slot} (hcall : s.poll = some call)
      (hpc : call.pc = .scan) (hslot : s.manager.slot? (s.target call) = some slot)
      (hpending : slot.state = .pending) :
      Step s (.advancePoll rc)
        ((s.access (s.target call) { slot with state := .querying } .acquire).setPoll
          (some { call with checked := call.checked + 1, pc := .load (s.target call) }))
  | pass {rc : Int} {call : PollCall} (hcall : s.poll = some call) (hpc : call.pc = .scan) :
      Step s (.advancePoll rc) (s.setPoll (some call.next))
  | finish {rc : Int} {call : PollCall} (hcall : s.poll = some call) (hpc : call.pc = .scan) :
      Step s (.advancePoll rc) { s with
        manager := { s.manager with polling := false }
        poll := none
        trace := s.trace ++ [.polled call.completed] }
  | pollHold {rc : Int} {call call' : PollCall} {p : Place} {id : UInt32} {slot slot' : Slot}
      {x : Access} (hcall : s.poll = some call) (hp : call.place = some p)
      (hslot : s.manager.slot? p = some slot) (hid : s.manager.streamId? p.stream = some id)
      (hhold : call.hold id slot rc = some (slot', some x, call')) :
      Step s (.advancePoll rc) ((s.access p slot' x).setPoll (some call'))
  | pollQuiet {rc : Int} {call call' : PollCall} {p : Place} {id : UInt32} {slot slot' : Slot}
      (hcall : s.poll = some call) (hp : call.place = some p)
      (hslot : s.manager.slot? p = some slot) (hid : s.manager.streamId? p.stream = some id)
      (hhold : call.hold id slot rc = some (slot', none, call')) :
      Step s (.advancePoll rc) (s.setPoll (some call'))
  | host {c : Call} : Step s (.host c) { s with trace := s.trace ++ [.host c] }

/-- A submit call starts, or an error is returned. -/
theorem submit_cases {id : UInt32} {seq checkpoint : UInt64}
    (h : s.step (.submit id seq checkpoint) = some s') : Step s (.submit id seq checkpoint) s' := by
  simp only [step, submit] at h
  -- The number 0 is refused, and a stream that is not registered as well.
  by_cases hseq : seq = 0
  · rw [if_pos hseq] at h
    exact Option.some.inj h ▸ .refused
  · rw [if_neg hseq] at h
    cases hfound : s.manager.findStream id with
    | none =>
        rw [hfound] at h
        exact Option.some.inj h ▸ .refused
    | some i =>
        rw [hfound] at h
        exact Option.some.inj h ▸ .submit hfound

/-- A submit call reserves a free slot, passes over another one, gives up at the end of the
scan, or goes on with the slot it holds. -/
theorem advance_cases {k : Nat} {rc : Int} (h : s.advance k rc = some s') :
    Step s (.advance k rc) s' := by
  obtain ⟨call, hk, h⟩ := Option.bind_eq_some_iff.mp h
  -- The call is looking for a slot.
  split at h
  · rename_i start n hpc
    split at h
    · obtain ⟨slot, hslot, h⟩ := Option.map_eq_some_iff.mp h
      split at h
      · rename_i hfree
        exact h ▸ .reserve hk hpc hslot hfree
      · exact h ▸ .skip hk hpc
    · exact Option.some.inj h ▸ .full hk hpc
  · -- The call is at its slot.
    obtain ⟨p, hp, h⟩ := Option.bind_eq_some_iff.mp h
    obtain ⟨slot, hslot, h⟩ := Option.bind_eq_some_iff.mp h
    obtain ⟨⟨slot', x, pc⟩, hhold, h⟩ := Option.map_eq_some_iff.mp h
    exact h ▸ .hold hk hp hslot hhold

/-- The poll call takes a pending slot, passes over another one, returns, or goes on with the
slot it holds. -/
theorem advancePoll_cases {rc : Int} (h : s.advancePoll rc = some s') :
    Step s (.advancePoll rc) s' := by
  obtain ⟨call, hcall, h⟩ := Option.bind_eq_some_iff.mp h
  -- The call is looking for a slot that is pending.
  split at h
  · rename_i hpc
    split at h
    · obtain ⟨slot, hslot, h⟩ := Option.map_eq_some_iff.mp h
      split at h
      · rename_i hpending
        exact h ▸ .acquire hcall hpc hslot hpending
      · exact h ▸ .pass hcall hpc
    · exact Option.some.inj h ▸ .finish hcall hpc
  · -- The call has taken a slot.
    obtain ⟨p, hp, h⟩ := Option.bind_eq_some_iff.mp h
    obtain ⟨slot, hslot, h⟩ := Option.bind_eq_some_iff.mp h
    obtain ⟨id, hid, h⟩ := Option.bind_eq_some_iff.mp h
    obtain ⟨⟨slot', x, call'⟩, hhold, h⟩ := Option.map_eq_some_iff.mp h
    cases x with
    | some x => exact h ▸ .pollHold hcall hp hslot hid hhold
    | none => exact h ▸ .pollQuiet hcall hp hslot hid hhold

/-- Every step of the pool is one of the list. -/
theorem step_cases {a : Action} (h : s.step a = some s') : Step s a s' := by
  cases a with
  | submit id seq checkpoint => exact submit_cases h
  | advance k rc => exact advance_cases h
  | poll budget =>
      obtain rfl := Option.some.inj h
      unfold startPoll
      split
      · exact .pollRefused
      · rename_i hgo
        exact .poll hgo
  | advancePoll rc => exact advancePoll_cases h
  | host c => exact Option.some.inj h ▸ .host

/-! ### The trace -/

/-- An access is added at its place and nowhere else. -/
theorem accesses_access (p q : Place) (slot : Slot) (a : Access) :
    (s.access p slot a).accesses q = if p = q then s.accesses q ++ [a] else s.accesses q := by
  simp only [accesses, accessesAt, access, List.filterMap_append]
  split <;> simp_all

end State

/-! ### The steps of everybody -/

/-- A submit call leaves the event of its slot. -/
theorem SubmitCall.hold_event {k : Nat} {call : SubmitCall} {slot slot' : Slot} {rc : Int}
    {a : Access} {pc : SubmitPc} (h : call.hold k slot rc = some (slot', a, pc)) :
    slot'.event = slot.event := by
  cases hold_cases h <;> rfl

/-- The poll call leaves the event of its slot. -/
theorem PollCall.hold_event {id : UInt32} {call call' : PollCall} {slot slot' : Slot} {rc : Int}
    {a : Option Access} (h : call.hold id slot rc = some (slot', a, call')) :
    slot'.event = slot.event := by
  cases hold_cases h with
  | @observe p mark => cases mark <;> rfl
  | load | ready | unready | confirm | release | again | withdraw => rfl

namespace State

variable {s s' : State}

/-- The ways a step can change the manager: it starts a submit call, changes the words of a
slot, or starts or ends a poll call. -/
theorem manager_step (a : Action) (hs : s.step a = some s') :
    (∃ i, s'.manager = s.manager.bumpCursor i) ∨
      (∃ p slot slot', s.manager.slot? p = some slot ∧ slot'.event = slot.event ∧
        s'.manager = s.manager.modifySlot p fun _ => slot') ∨
      ∃ flag cursor, s'.manager = { s.manager with polling := flag, pollCursor := cursor } := by
  have hsame : ∃ flag cursor,
      s.manager = { s.manager with polling := flag, pollCursor := cursor } :=
    ⟨s.manager.polling, s.manager.pollCursor, rfl⟩
  cases step_cases hs with
  | @submit _ _ _ i => exact Or.inl ⟨i, rfl⟩
  | @reserve _ _ _ _ _ slot _ _ hslot =>
      exact Or.inr (Or.inl ⟨_, slot, { slot with state := .reserved }, hslot, rfl, rfl⟩)
  | @acquire _ _ slot _ _ hslot =>
      exact Or.inr (Or.inl ⟨_, slot, { slot with state := .querying }, hslot, rfl, rfl⟩)
  | hold _ _ hslot hhold =>
      exact Or.inr (Or.inl ⟨_, _, _, hslot, SubmitCall.hold_event hhold, rfl⟩)
  | pollHold _ _ hslot _ hhold =>
      exact Or.inr (Or.inl ⟨_, _, _, hslot, PollCall.hold_event hhold, rfl⟩)
  | poll => exact Or.inr (Or.inr ⟨_, _, rfl⟩)
  | finish => exact Or.inr (Or.inr ⟨false, s.manager.pollCursor, rfl⟩)
  | refused | skip | full | pollRefused | pass | pollQuiet | host => exact Or.inr (Or.inr hsame)

/-- No step takes anything out of the trace. -/
theorem trace_grows {a : Action} (hs : s.step a = some s') : ∃ es, s'.trace = s.trace ++ es := by
  cases step_cases hs with
  | refused | submit | skip | poll | pass | pollQuiet => exact ⟨[], (List.append_nil _).symm⟩
  | reserve | full | hold | pollRefused | acquire | finish | pollHold | host => exact ⟨_, rfl⟩

end State

end HangAnalyzer.Checkpoint
