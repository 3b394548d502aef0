import Mathlib.Algebra.BigOperators.Group.Finset.Piecewise
import Mathlib.Algebra.BigOperators.Intervals
import HangAnalyzer.Proofs.Checkpoint.Chronicle
import HangAnalyzer.Proofs.Checkpoint.Refines

/-!
# `HangAnalyzer.Proofs.Checkpoint.LifeCycle`: the life cycle of a pool slot

`life_cycle` reads the lives of the slots off the trace of the pool, for every run of
any number of calls. It says what the records of each generation of each slot are, that
nothing is enqueued between a submission and its confirmation, and that the slots in
use are the submissions that are not confirmed, whenever no call is in progress.
-/

set_option autoImplicit false

namespace HangAnalyzer.Checkpoint

open HangAnalyzer.Lib

/-! ### Managers -/

/-- A manager that `flight_checkpoint_create` returned, with any number of registered
streams. -/
inductive Manager.Made : Manager → Prop where
  | create {slotsPerStream : UInt32} {m : Manager}
      (h : flightCheckpointCreate slotsPerStream = some m) : Made m
  | register {m : Manager} (streamId : UInt32) (handle : Nat) (create : Nat → Except Int Nat)
      (h : Made m) : Made (flightCheckpointRegisterStream m streamId handle create).1

/-- A new stream has new slots. -/
theorem Manager.Fresh.register {m : Manager} (h : m.Fresh) (streamId : UInt32) (handle : Nat)
    (create : Nat → Except Int Nat) :
    (flightCheckpointRegisterStream m streamId handle create).1.Fresh := by
  unfold flightCheckpointRegisterStream
  split
  · exact h
  · split
    · rename_i events hevents
      -- A slot is one of an old stream, or one of the new stream.
      have hslot : ∀ p slot, Manager.slot? { m with streams := m.streams ++
            [⟨streamId, handle, events.map Slot.new, 0⟩] } p = some slot →
          m.slot? p = some slot ∨ slot ∈ events.map Slot.new := by
        intro p slot hp
        obtain ⟨stream, hstream, hp⟩ := Option.bind_eq_some_iff.mp hp
        rcases getElem?_concat_cases hstream with hold | ⟨-, rfl⟩
        · exact Or.inl (Option.bind_eq_some_iff.mpr ⟨stream, hold, hp⟩)
        · exact Or.inr (List.mem_of_getElem? hp)
      refine ⟨h.1, fun p slot hp => ?_, fun p slot hp => ?_⟩
      · rcases hslot p slot hp with hold | hnew
        · exact h.2.1 p slot hold
        · obtain ⟨event, -, rfl⟩ := List.mem_map.mp hnew
          rfl
      · obtain ⟨stream, hstream, -⟩ := Option.bind_eq_some_iff.mp hp
        exact ⟨stream.id, by rw [Manager.streamId?, hstream]; rfl⟩
    · exact h

/-- The streams that were registered have new slots. -/
theorem Manager.Made.fresh {m : Manager} (h : m.Made) : m.Fresh := by
  induction h with
  | create h =>
      unfold flightCheckpointCreate at h
      split at h
      · cases h
      · obtain rfl := Option.some.inj h
        refine ⟨rfl, ?_, ?_⟩
        · intro p slot hp
          cases hp
        · intro p slot hp
          cases hp
  | register streamId handle create _ ih => exact ih.register streamId handle create

/-! ### The accesses of a stream -/

/-- The accesses at the slots of the stream at a position. -/
def accessesOf (trace : List Entry) (i : Nat) : List Access :=
  trace.filterMap fun
    | .access p a => if p.stream = i then some a else none
    | _           => none

/-- The accesses of a stream are those of its slots. -/
theorem countP_accessesOf (f : Access → Bool) (i n : Nat) (trace : List Entry)
    (h : ∀ j, n ≤ j → accessesAt trace ⟨i, j⟩ = []) :
    (accessesOf trace i).countP f
      = ∑ j ∈ Finset.range n, (accessesAt trace ⟨i, j⟩).countP f := by
  induction trace with
  | nil => simp [accessesOf, accessesAt]
  | cons e trace ih =>
      cases e with
      | access p a =>
          have hat : ∀ j, accessesAt (.access p a :: trace) ⟨i, j⟩
              = if p = ⟨i, j⟩ then a :: accessesAt trace ⟨i, j⟩ else accessesAt trace ⟨i, j⟩ := by
            intro j
            by_cases hp : p = ⟨i, j⟩ <;> simp [accessesAt, hp]
          have hrest : ∀ j, n ≤ j → accessesAt trace ⟨i, j⟩ = [] := by
            intro j hj
            have hnil := h j hj
            rw [hat] at hnil
            split at hnil
            · cases hnil
            · exact hnil
          have hcount : ∀ j, (accessesAt (.access p a :: trace) ⟨i, j⟩).countP f
              = (accessesAt trace ⟨i, j⟩).countP f
                + if p = ⟨i, j⟩ then (if f a then 1 else 0) else 0 := by
            intro j
            rw [hat]
            split
            · rw [List.countP_cons]
            · rfl
          -- The new access counts in the sum where its own slot is, if that is a slot of the
          -- stream.
          simp only [hcount]
          rw [Finset.sum_add_distrib, ← ih hrest]
          by_cases hi : p.stream = i
          · -- The slot is one of the stream's.
            have hlt : p.slot < n := by
              by_contra hge
              have hnil := h p.slot (Nat.le_of_not_lt hge)
              rw [hat, if_pos (by rw [← hi])] at hnil
              cases hnil
            have hone : ∑ j ∈ Finset.range n, (if p = ⟨i, j⟩ then (if f a then 1 else 0) else 0)
                = if f a then 1 else 0 := by
              rw [Finset.sum_eq_single p.slot]
              · rw [if_pos (by rw [← hi])]
              · intro j _ hne
                rw [if_neg fun heq => hne (congrArg Place.slot heq).symm]
              · intro hout
                exact absurd (Finset.mem_range.mpr hlt) hout
            rw [hone, ← List.countP_cons]
            simp [accessesOf, hi]
          · have hzero : ∑ j ∈ Finset.range n, (if p = ⟨i, j⟩ then (if f a then 1 else 0) else 0)
                = 0 := by
              refine Finset.sum_eq_zero fun j _ => ?_
              rw [if_neg fun heq => hi (congrArg Place.stream heq)]
            rw [hzero, Nat.add_zero]
            simp [accessesOf, hi]
      | poolFull | host | polled =>
          have hrest := ih h
          exact hrest

/-- The slots in use, one by one. -/
theorem countP_eq_sum {α : Type} (f : α → Bool) (l : List α) :
    l.countP f = ∑ j ∈ Finset.range l.length, if (l[j]?.any f) then 1 else 0 := by
  induction l using List.reverseRecOn with
  | nil => rfl
  | append_singleton l x ih =>
      rw [List.countP_append, List.length_append, List.length_singleton, Finset.sum_range_succ,
        List.getElem?_concat_length, ih, List.countP_singleton]
      congr 1
      refine Finset.sum_congr rfl fun j hj => ?_
      rw [List.getElem?_append_left (Finset.mem_range.mp hj)]

/-! ### The life cycle -/

/-- No submit or poll call is in progress. -/
def State.Idle (s : State) : Prop :=
  s.poll = none ∧ ∀ call ∈ s.submits, ∃ rc gen, call.pc = .done rc gen

/-- What the generation `g` of a slot has left so far. Either `backend.record` was not
called, or it failed and there is no record. Or it succeeded and its call is about to
report it. Or the records are those of one submission with one stamp: submitted, then
each mark at most once and in any order, and then the confirmation or nothing. -/
def State.Cycle (s : State) (p : Place) (id : UInt32) (g : Nat) : Prop :=
  let rcs := answers g (s.accesses p)
  let rs := records g (s.accesses p)
  (rcs = [] ∧ rs = []) ∨ (∃ rc, rc ≠ 0 ∧ rcs = [rc] ∧ rs = []) ∨
    (rcs = [0] ∧ rs = [] ∧ ∃ call ∈ s.submits, ∃ gen, call.stream = p.stream ∧
      call.pc = .report p.slot gen) ∨
    (rcs = [0] ∧ ∃ (stamp : Stamp) (marks : List Mark), stamp.stream = id ∧
      stamp.generation = UInt64.ofNat g ∧ marks.Nodup ∧
      (rs = stamp.history marks ∨ rs = stamp.history marks ++ [stamp.confirmation]))

section
variable {s : State} {p : Place} {id : UInt32} {slot : Slot} {l : Life}

/-- A call that holds a slot whose event is enqueued is about to report it. -/
theorem SubmitCall.Holds.report {k : Nat} {call : SubmitCall} (h : call.Holds k l)
    (hplace : call.place = some p) (hphase : l.phase = .queued k) :
    call.stream = p.stream ∧ ∃ gen, call.pc = .report p.slot gen := by
  obtain ⟨streamId, seq, checkpoint, stream, pc⟩ := call
  cases pc with
  | scan | done => cases hplace
  | report i gen =>
      obtain rfl : (⟨stream, i⟩ : Place) = p := Option.some.inj hplace
      exact ⟨rfl, gen, rfl⟩
  | number | release => cases hphase.symm.trans h
  | fill | enqueue | publish => cases hphase.symm.trans h.1

/-- A generation that is over has gone through its cycle. -/
theorem Over.cycle {g : Nat} (h : Over id g (answers g (s.accesses p)) (records g (s.accesses p))) :
    s.Cycle p id g := by
  unfold State.Cycle
  generalize answers g (s.accesses p) = rcs at h
  generalize records g (s.accesses p) = rs at h
  cases h with
  | unused => exact Or.inl ⟨rfl, rfl⟩
  | failed g rc hrc => exact Or.inr (Or.inl ⟨rc, hrc, rfl, rfl⟩)
  | confirmed g stamp marks hstream hgeneration honce =>
      exact Or.inr (Or.inr (Or.inr ⟨rfl, stamp, marks, hstream, hgeneration, honce, Or.inr rfl⟩))

/-- Every generation of a slot of the pool goes through the cycle. -/
theorem Inv.cycle (h : Inv s) (hl : HasLife s p id slot l) (g : Nat) : s.Cycle p id g := by
  have hchronicle := chronicle_lived hl.lived
  rcases Nat.lt_trichotomy g l.generation with hlt | rfl | hgt
  · exact (hchronicle.past g hlt).cycle
  · have hpresent := hchronicle.present
    unfold Present at hpresent
    split at hpresent
    case h_1 | h_2 => exact hpresent.cycle
    case h_3 | h_4 => exact Or.inl ⟨hpresent.1, hpresent.2.1⟩
    case h_5 => exact Or.inr (Or.inl hpresent)
    case h_6 k hphase =>
        -- The call that holds the slot has the record before it.
        obtain ⟨call, hk, hplace⟩ := h.holder p id slot l k hl (by rw [hphase]; rfl)
        obtain ⟨slot', l', hl', hholds⟩ := h.submit k call p hk hplace
        obtain ⟨-, -, rfl⟩ := hl.unique hl'
        obtain ⟨hstream, gen, hpc⟩ := hholds.report hplace hphase
        exact Or.inr (Or.inr (Or.inl ⟨hpresent.1, hpresent.2.1, call, List.mem_of_getElem? hk, gen,
          hstream, hpc⟩))
    case h_7 | h_8 | h_9 =>
        obtain ⟨hrcs, marks, honce, -, hrs⟩ := hpresent
        exact Or.inr (Or.inr (Or.inr ⟨hrcs, l.stamp id, marks, rfl, rfl, honce, Or.inl hrs⟩))
    case h_10 =>
        obtain ⟨hrcs, marks, honce, hrs⟩ := hpresent
        exact Or.inr (Or.inr (Or.inr ⟨hrcs, l.stamp id, marks, rfl, rfl, honce, Or.inr hrs⟩))
  · have hnone := hchronicle.future g hgt
    exact Or.inl ⟨by rw [answers, hnone]; rfl, by rw [records, hnone]; rfl⟩

/-- When no call is in progress, the slots in use are those with a submission that is not
confirmed. -/
theorem Inv.live_of_idle (h : Inv s) (hidle : s.Idle) (hl : HasLife s p id slot l) :
    l.phase.live = decide (slot.state ≠ .free) := by
  -- No submit call is under way, so none holds the slot.
  have hholder : l.phase.holder = none := by
    cases hk : l.phase.holder with
    | none => rfl
    | some k =>
        obtain ⟨call, hcall, hplace⟩ := h.holder p id slot l k hl hk
        obtain ⟨rc, gen, hpc⟩ := hidle.2 call (List.mem_of_getElem? hcall)
        rw [SubmitCall.place, hpc] at hplace
        cases hplace
  -- No poll call is under way either.
  have hpolled : l.phase.polled = false := by
    cases hk : l.phase.polled with
    | false => rfl
    | true =>
        obtain ⟨call, hcall, -⟩ := h.polled p id slot l hl hk
        rw [hidle.1] at hcall
        cases hcall
  -- What is left is a slot that is free or pending.
  rw [hl.agree.state]
  cases hphase : l.phase <;> rw [hphase] at hholder hpolled
  case free | pending => rfl
  all_goals first | cases hholder; done | cases hpolled

/-- When no call is in progress, the slots of a stream in use are its submissions that are
not confirmed. -/
theorem Inv.in_use (h : Inv s) (hidle : s.Idle) {i : Nat} {stream : Stream}
    (hstream : s.manager.streams[i]? = some stream) :
    stream.slots.countP (fun slot => slot.state ≠ .free)
        + (accessesOf s.trace i).countP Access.isConfirmed
      = (accessesOf s.trace i).countP Access.isSubmitted := by
  -- The slots of the stream are the places with its index.
  have hslot : ∀ j, s.manager.slot? ⟨i, j⟩ = stream.slots[j]? := by
    intro j
    rw [Manager.slot?, hstream]
    rfl
  have habsent : ∀ j, stream.slots.length ≤ j → accessesAt s.trace ⟨i, j⟩ = [] := by
    intro j hj
    exact h.absent ⟨i, j⟩ (by rw [hslot, List.getElem?_eq_none hj])
  rw [countP_accessesOf _ i _ s.trace habsent, countP_accessesOf _ i _ s.trace habsent,
    countP_eq_sum, ← Finset.sum_add_distrib]
  -- The equation holds slot by slot.
  refine Finset.sum_congr rfl fun j hj => ?_
  have hj := Finset.mem_range.mp hj
  obtain ⟨id, l, hl⟩ := h.life ⟨i, j⟩ stream.slots[j] (by rw [hslot, List.getElem?_eq_getElem hj])
  have hcount := submitted_count hl.lived
  rw [h.live_of_idle hidle hl] at hcount
  rw [List.getElem?_eq_getElem hj, Option.any_some]
  show _ = (s.accesses ⟨i, j⟩).countP Access.isSubmitted
  rw [hcount, Nat.add_comm]
  rfl

end

/-- **The life cycle of a slot.** In every state of every run of submit and poll calls,
for every slot: each of its generations goes through the cycle of `State.Cycle`, and
between the record of a submission and the next `backend.record` on its event lies the
record of the confirmation. When no call is in progress, the slots of a stream that are
not free are its submissions that are not confirmed. -/
theorem life_cycle {m : Manager} (hm : m.Made) {as : List Action} {s : State}
    (h : Run State.step (State.start m) as s) :
    (∀ p slot, s.manager.slot? p = some slot →
      ∃ id, s.manager.streamId? p.stream = some id ∧ (∀ g, s.Cycle p id g) ∧
        ∀ (pre mid post : List Access) (k j : Nat) (stamp : Stamp) (rc : Int),
          s.accesses p = pre ++ .submitted k stamp :: (mid ++ .enqueue j rc :: post) →
          .confirmed stamp ∈ mid) ∧
      (s.Idle → ∀ (i : Nat) (stream : Stream), s.manager.streams[i]? = some stream →
        stream.slots.countP (fun slot => slot.state ≠ .free)
            + (accessesOf s.trace i).countP Access.isConfirmed
          = (accessesOf s.trace i).countP Access.isSubmitted) := by
  have hinv := inv_run hm.fresh h
  refine ⟨fun p slot hslot => ?_, fun hidle i stream hstream => hinv.in_use hidle hstream⟩
  obtain ⟨id, l, hl⟩ := hinv.life p slot hslot
  refine ⟨id, hl.stream_eq, hinv.cycle hl, fun pre mid post k j stamp rc haccesses => ?_⟩
  have hlived := hl.lived
  rw [haccesses] at hlived
  exact confirmed_between hlived

/-- A manager with one stream of one slot. -/
def oneSlot : Manager :=
  (flightCheckpointRegisterStream ⟨1, [], false, 0⟩ 7 70 fun i => .ok i).1

/-- A submission that is polled twice, first not ready and then complete. It leaves three
records: it was submitted, it was not ready and it was confirmed. -/
theorem life_cycle_once :
    ∃ s, Run State.step (State.start oneSlot)
        ([Action.submit 7 100 1] ++ List.replicate 6 (Action.advance 0 0) ++
          [Action.poll 1] ++ List.replicate 6 (Action.advancePoll 0) ++
          [Action.poll 1] ++ List.replicate 6 (Action.advancePoll 1)) s ∧
      s.trace.filterMap Entry.record? = [⟨FL_CHECKPOINT, 7, 1, 100, 1, FL_CHECKPOINT_SUBMITTED⟩,
        ⟨FL_CHECKPOINT, 7, 1, 100, 1, FL_CHECKPOINT_NOT_READY⟩,
        ⟨FL_DEVICE_CONFIRMED, 7, 1, 100, 1, 0⟩] ∧
      s.Idle ∧ s.Cycle ⟨0, 0⟩ 7 1 ∧
      (accessesOf s.trace 0).countP Access.isConfirmed
        = (accessesOf s.trace 0).countP Access.isSubmitted := by
  -- The manager is made by one `create` and one `register`.
  have hmade : oneSlot.Made := .register 7 70 _
    (.create (show flightCheckpointCreate 1 = some _ from rfl))
  have hcomputed : (([Action.submit 7 100 1] ++ List.replicate 6 (Action.advance 0 0) ++
      [Action.poll 1] ++
      List.replicate 6 (Action.advancePoll 0) ++ [Action.poll 1] ++
      List.replicate 6 (Action.advancePoll 1)).foldlM State.step (State.start oneSlot)).map
        (fun s => (s.trace.filterMap Entry.record?, s.submits.map SubmitCall.pc, s.poll,
          s.manager.streams.map fun stream => (stream.id, stream.slots.map Slot.state)))
      = some ([⟨23, 7, 1, 100, 1, 1⟩, ⟨23, 7, 1, 100, 1, 8⟩, ⟨24, 7, 1, 100, 1, 0⟩],
          [.done 0 (some 1)], none, [(7, [.free])]) := by
    rfl
  obtain ⟨s, hrun, hs⟩ := Option.map_eq_some_iff.mp hcomputed
  simp only [Prod.mk.injEq] at hs
  obtain ⟨hrecords, hsubmits, hpoll, hstreams⟩ := hs
  have hidle : s.Idle := by
    refine ⟨hpoll, fun call hcall => ⟨0, some 1, ?_⟩⟩
    have hpc := List.mem_map_of_mem (f := SubmitCall.pc) hcall
    rw [hsubmits] at hpc
    exact List.mem_singleton.mp hpc
  obtain ⟨stream, hmanager, hstream⟩ := List.map_eq_singleton_iff.mp hstreams
  obtain ⟨hid, hslots⟩ := Prod.mk.inj hstream
  obtain ⟨slot, hslot, hfree⟩ := List.map_eq_singleton_iff.mp hslots
  have hget : s.manager.slot? ⟨0, 0⟩ = some slot := by
    rw [Manager.slot?, hmanager]
    show stream.slots[0]? = some slot
    rw [hslot]
    rfl
  have hstreamId : s.manager.streamId? 0 = some 7 := by
    rw [Manager.streamId?, hmanager, ← hid]
    rfl
  obtain ⟨hslots, hcount⟩ := life_cycle hmade hrun
  obtain ⟨id, hid', hcycle, -⟩ := hslots ⟨0, 0⟩ slot hget
  obtain rfl := Option.some.inj (hid'.symm.trans hstreamId)
  -- With no slot in use, the confirmations are as many as the submissions.
  have hused := hcount hidle 0 stream (by rw [hmanager]; rfl)
  rw [hslot, List.countP_singleton, hfree] at hused
  exact ⟨s, hrun, hrecords, hidle, hcycle 1, by simpa using hused⟩

end HangAnalyzer.Checkpoint
