import HangAnalyzer.Checkpoint.Poller
import HangAnalyzer.Proofs.Checkpoint.Balance
import HangAnalyzer.Proofs.Checkpoint.Fairness

/-!
# `HangAnalyzer.Proofs.Checkpoint.WaitFree`: no call of the pool waits for another one

A submit call makes at most `slotsPerStream + 6` steps, and a poll call at most six for each
slot and six more, whatever the other callers do meanwhile (`submit_wait_free`,
`poll_wait_free`). Until a call returns its next step is possible: there is no state in
which a call has to wait until somebody else has done something.

The rank of a call bounds the steps that it has still to make. Its own steps lower the rank,
and the steps of the others leave it as it is.
-/

set_option autoImplicit false

namespace HangAnalyzer.Checkpoint

open HangAnalyzer.Lib

/-! ### The shape of a manager -/

/-- A session has a well-shaped pool with the invariant of the pool, and nobody is in a call
of a deleted manager. -/
structure Session.Sound (slotsPerStream : UInt32) (s : Session) : Prop where
  balanced : s.Balanced
  shaped : s.pool.manager.Shaped
  slots : s.pool.manager.slotsPerStream = slotsPerStream
  deleted : s.deleted = true → s.pool.quiescent = true

section
variable {slotsPerStream : UInt32} {s s' : Session} {as : List SessionAction}

/-- Every step of a session keeps it sound. -/
theorem Session.Sound.step (h : s.Sound slotsPerStream) {a : SessionAction}
    (hs : s.step a = some s') : s'.Sound slotsPerStream := by
  have hbalanced := balanced_step h.balanced hs
  unfold Session.step at hs
  split at hs
  case isTrue => cases hs
  case isFalse hlive =>
    cases a with
    | pool a =>
        obtain ⟨pool, hpool, rfl⟩ := Option.map_eq_some_iff.mp hs
        have hsame := sameSlots_step a hpool
        exact ⟨hbalanced, hsame.shaped h.shaped, hsame.slotsPerStream.trans h.slots,
          fun hdeleted => absurd hdeleted hlive⟩
    | register id handle codes =>
        simp only at hs
        split at hs
        case isTrue =>
          obtain rfl := Option.some.inj hs
          refine ⟨hbalanced, h.shaped.register id handle _, ?_, fun hdeleted => ?_⟩
          · rw [← h.slots]
            show (flightCheckpointRegisterStream s.pool.manager id handle
              (s.create codes)).1.slotsPerStream = s.pool.manager.slotsPerStream
            unfold flightCheckpointRegisterStream
            split
            · rfl
            · split <;> rfl
          · exact absurd hdeleted hlive
        case isFalse => cases hs
    | destroy poller =>
        simp only at hs
        split at hs
        case isTrue hquiescent =>
          obtain rfl := Option.some.inj hs
          exact ⟨hbalanced, h.shaped, h.slots, fun _ => hquiescent⟩
        case isFalse => cases hs

/-- A session is sound at its start. -/
theorem session_sound_start {m : Manager} (hm : flightCheckpointCreate slotsPerStream = some m) :
    (Session.start m).Sound slotsPerStream := by
  have hbalanced := balanced_run hm (Run.nil_iff.mpr rfl : Run Session.step (Session.start m) [] _)
  unfold flightCheckpointCreate at hm
  split at hm
  · cases hm
  · obtain rfl := Option.some.inj hm
    exact ⟨hbalanced, by simp [Session.start, State.start, Manager.Shaped], rfl, fun _ => rfl⟩

/-- A session is sound in every state of a run. -/
theorem session_sound {m : Manager} (hm : flightCheckpointCreate slotsPerStream = some m)
    (h : Run Session.step (Session.start m) as s) : s.Sound slotsPerStream :=
  Run.invariant (Session.Sound slotsPerStream) (fun _ _ _ hs hstep => hs.step hstep) h
    (session_sound_start hm)

end

/-! ### Submit calls -/

/-- The action is a step of submit call `k`. -/
def Action.advances (k : Nat) : Action → Bool
  | advance j _ => j = k
  | _           => false

/-- The steps that a call has still to make. -/
def SubmitCall.rank (slots : Nat) (call : SubmitCall) : Nat :=
  match call.pc with
  | .scan _ n => slots - n + 6
  | pc        => pc.left

/-- The steps that submit call `k` has still to make, or will have to when it starts. -/
def State.submitRank (k : Nat) (s : State) : Nat :=
  (s.submits[k]?.map (SubmitCall.rank s.manager.slotsPerStream.toNat)).getD
    (s.manager.slotsPerStream.toNat + 6)

section
variable {s s' : State} {k : Nat} {rc : Int} {call call' : SubmitCall}

/-- The rank of a call that has started is its own. -/
theorem submitRank_eq (hk : s.submits[k]? = some call) :
    s.submitRank k = call.rank s.manager.slotsPerStream.toNat := by
  rw [State.submitRank, hk]
  rfl

/-- A call that has not started has all its steps before it. -/
theorem submitRank_none (hk : s.submits[k]? = none) :
    s.submitRank k = s.manager.slotsPerStream.toNat + 6 := by
  rw [State.submitRank, hk]
  rfl

/-- The rank of a call that holds a slot depends on where it is, not on the number of
slots. -/
theorem rank_of_place {p : Place} (hp : call.place = some p) (slots : Nat) :
    call.rank slots = call.pc.left := by
  unfold SubmitCall.place at hp
  unfold SubmitCall.rank
  cases hpc : call.pc with
  | scan => simp [hpc] at hp
  | _ => rfl

/-- What the call's own step makes of it. -/
theorem advance_rank (hk : s.submits[k]? = some call) (hs : s.advance k rc = some s') :
    ∃ call', s'.submits = s.submits.set k call' ∧
      s'.manager.slotsPerStream = s.manager.slotsPerStream ∧
      call'.rank s.manager.slotsPerStream.toNat < call.rank s.manager.slotsPerStream.toNat := by
  obtain ⟨call₁, hk₁, h⟩ := Option.bind_eq_some_iff.mp hs
  obtain rfl := Option.some.inj (hk.symm.trans hk₁)
  -- While it searches, a step goes on to the next slot or takes this one.
  split at h
  case h_1 start n hpc =>
    have hrank : call.rank s.manager.slotsPerStream.toNat
        = s.manager.slotsPerStream.toNat - n + 6 := by rw [SubmitCall.rank, hpc]
    rw [hrank]
    split at h
    case isTrue hn =>
      obtain ⟨slot, -, h⟩ := Option.map_eq_some_iff.mp h
      split at h
      case isTrue =>
        obtain rfl := h
        exact ⟨_, rfl, rfl, show 5 < _ by omega⟩
      case isFalse =>
        obtain rfl := h
        refine ⟨_, rfl, rfl, ?_⟩
        show s.manager.slotsPerStream.toNat - (n + 1) + 6 < _
        omega
    case isFalse =>
      obtain rfl := Option.some.inj h
      exact ⟨_, rfl, rfl, show 0 < _ by omega⟩
  -- At its slot, each step leads to the next place in the code or back to the caller.
  case h_2 =>
    obtain ⟨p, hp, h⟩ := Option.bind_eq_some_iff.mp h
    obtain ⟨slot, -, h⟩ := Option.bind_eq_some_iff.mp h
    obtain ⟨⟨slot', a, pc⟩, hhold, rfl⟩ := Option.map_eq_some_iff.mp h
    obtain ⟨slot₁, a₁, pc₁, hhold₁, hleft, hnext⟩ := call.hold_left hp k slot rc
    obtain ⟨rfl, rfl, rfl⟩ : slot₁ = slot' ∧ a₁ = a ∧ pc₁ = pc := by
      simpa using hhold₁.symm.trans hhold
    refine ⟨_, rfl, rfl, ?_⟩
    rw [rank_of_place hp]
    -- After its slot it holds the same one, or it has returned.
    rcases hnext with hp' | ⟨rc', gen, rfl⟩
    · rw [rank_of_place hp']
      exact hleft
    · exact hleft

/-- A step that leaves the call and the length of the streams leaves its rank. -/
theorem submitRank_congr (hsubmits : s'.submits[k]? = s.submits[k]?)
    (hslots : s'.manager.slotsPerStream = s.manager.slotsPerStream) :
    s'.submitRank k = s.submitRank k := by
  rw [State.submitRank, State.submitRank, hsubmits, hslots]

/-- Every step keeps the rank of a call, or is its own and lowers it. -/
theorem submitRank_step {a : Action} (hs : s.step a = some s') :
    s'.submitRank k + (if a.advances k then 1 else 0) ≤ s.submitRank k := by
  have hslots := (sameSlots_step a hs).slotsPerStream
  cases a with
  | submit id seq checkpoint =>
      show s'.submitRank k ≤ s.submitRank k
      cases State.step_cases hs with
      | refused => exact le_rfl
      | @submit _ _ _ i start hfound =>
          rcases Nat.lt_trichotomy k s.submits.length with hlt | rfl | hgt
          · exact (submitRank_congr (List.getElem?_append_left hlt) hslots).le
          · -- The new call is call `k`.
            rw [submitRank_eq List.getElem?_concat_length,
              submitRank_none (List.getElem?_eq_none le_rfl)]
            exact le_rfl
          · -- Call `k` has still not been made.
            rw [submitRank_none (List.getElem?_eq_none (by simp; omega)),
              submitRank_none (List.getElem?_eq_none hgt.le)]
            exact le_rfl
  | advance j rc =>
      obtain ⟨call, hj, -⟩ := Option.bind_eq_some_iff.mp (show s.advance j rc = some s' from hs)
      obtain ⟨call', hsubmits, -, hlower⟩ := advance_rank hj hs
      -- A step of call `k` itself, and then one of another call.
      by_cases hjk : j = k
      · subst hjk
        have hnew : s'.submits[j]? = some call' := by
          rw [hsubmits]
          exact List.getElem?_set_self (List.getElem?_eq_some_iff.mp hj).1
        rw [submitRank_eq hj, submitRank_eq hnew, hslots, if_pos (by simp [Action.advances])]
        omega
      · have hother : s'.submits[k]? = s.submits[k]? := by
          rw [hsubmits, List.getElem?_set_ne hjk]
        rw [submitRank_congr hother hslots, if_neg (by simp [Action.advances, hjk])]
        exact le_rfl
  | poll budget =>
      have hsubmits : s'.submits = s.submits := by
        cases State.step_cases hs <;> rfl
      exact (submitRank_congr (by rw [hsubmits]) hslots).le
  | advancePoll rc =>
      have hsubmits : s'.submits = s.submits := by
        cases State.step_cases hs <;> rfl
      exact (submitRank_congr (by rw [hsubmits]) hslots).le
  | host c =>
      obtain rfl := Option.some.inj hs
      exact le_rfl

/-- A stream of a call has the slots that a manager of this shape has. -/
theorem Inv.slot_of_stream (h : Inv s) (hshaped : s.manager.Shaped)
    (hk : s.submits[k]? = some call) {j : Nat} (hj : j < s.manager.slotsPerStream.toNat) :
    ∃ slot, s.manager.slot? ⟨call.stream, j⟩ = some slot := by
  obtain ⟨stream, hstream, -⟩ := Option.map_eq_some_iff.mp (h.stream k call hk)
  have hlt : j < stream.slots.length := by
    rw [hshaped stream (List.mem_of_getElem? hstream)]
    exact hj
  exact ⟨stream.slots[j], Option.bind_eq_some_iff.mpr
    ⟨stream, hstream, List.getElem?_eq_getElem hlt⟩⟩

/-- The next step of a call that has not returned is possible, whatever the backend answers. -/
theorem advance_enabled (h : Inv s) (hshaped : s.manager.Shaped) (hk : s.submits[k]? = some call)
    (hgo : call.returned = false) (rc : Int) : ∃ s', s.advance k rc = some s' := by
  -- A call that still searches finds its slot, for the stream has them all.
  cases hpc : call.pc with
  | scan start n =>
      simp only [State.advance, hk, Option.bind_some, hpc]
      split
      case isTrue hn =>
        obtain ⟨slot, hslot⟩ := h.slot_of_stream hshaped hk
          (j := (s.candidate call start n).slot) (by
            show ((start + UInt32.ofNat n) % s.manager.slotsPerStream).toNat < _
            rw [UInt32.toNat_mod]
            exact Nat.mod_lt _ (by omega))
        exact ⟨_, Option.map_eq_some_iff.mpr ⟨slot, hslot, rfl⟩⟩
      case isFalse => exact ⟨_, rfl⟩
  | done rc' gen => simp [SubmitCall.returned, hpc] at hgo
  -- A call that has its slot knows what the slot went through, so it is there.
  | number | fill | enqueue | release | report | publish =>
      have hplace : ∃ p, call.place = some p := by
        rw [SubmitCall.place, hpc]
        exact ⟨_, rfl⟩
      obtain ⟨p, hp⟩ := hplace
      obtain ⟨slot, l, hl, -⟩ := h.submit k call p hk hp
      obtain ⟨slot', a, pc, hhold, -, -⟩ := call.hold_left hp k slot rc
      simp only [State.advance, hk, Option.bind_some, hpc]
      rw [hp, Option.bind_some, hl.slot_eq, Option.bind_some, hhold]
      exact ⟨_, rfl⟩

end

/-! ### Poll calls -/

/-- The steps that a poll call has still to make at its slot. -/
def PollPc.left : PollPc → Nat
  | scan => 6
  | load _ => 5
  | query .. => 4
  | confirm .. => 3
  | observe .. => 3
  | release _ => 2
  | withdraw _ => 2

/-- The steps that a poll call over `total` slots has still to make. -/
def PollCall.rank (total : Nat) (call : PollCall) : Nat :=
  (total - call.offset) * 6 + call.pc.left

/-- The steps that the poll call in progress has still to make. -/
def State.pollRank (s : State) : Nat := (s.poll.map (PollCall.rank s.manager.total)).getD 0

/-- The poll call in progress is at a slot, or it has none left. -/
def State.PollWithin (s : State) : Prop :=
  ∀ call, s.poll = some call → call.offset + call.pc.holding ≤ s.manager.total

section
variable {s s' : State} {rc : Int} {call call' : PollCall} {total : Nat}

/-- A step at a slot lowers the rank. -/
theorem hold_rank {id : UInt32} {slot slot' : Slot} {a : Option Access}
    (h : PollCall.Step id call slot rc slot' a call')
    (hwithin : call.offset + call.pc.holding ≤ total) :
    call'.offset + call'.pc.holding ≤ total ∧ call'.rank total < call.rank total := by
  cases h with
  -- Within the slot only the place in the code changes.
  | load hpc | ready hpc | unready hpc | confirm hpc | observe hpc | again hpc =>
      rw [hpc] at hwithin
      refine ⟨hwithin, ?_⟩
      rw [PollCall.rank, PollCall.rank, hpc]
      exact Nat.add_lt_add_left (by simp [PollPc.left]) _
  -- The last step at a slot goes on to the next slot, which is worth six steps.
  | release hpc | withdraw hpc =>
      rw [hpc] at hwithin
      have hlt : call.offset + 1 ≤ total := hwithin
      refine ⟨hlt, ?_⟩
      rw [PollCall.rank, PollCall.rank, hpc]
      show (total - (call.offset + 1)) * 6 + 6 < (total - call.offset) * 6 + 2
      omega

/-- Its own step ends the poll call, or lowers its rank. -/
theorem advancePoll_rank (hcall : s.poll = some call) (hs : s.advancePoll rc = some s')
    (hwithin : call.offset + call.pc.holding ≤ s.manager.total) :
    s'.poll = none ∨ ∃ call', s'.poll = some call' ∧
      call'.offset + call'.pc.holding ≤ s.manager.total ∧
      call'.rank s.manager.total < call.rank s.manager.total := by
  -- The scan looks at a slot or ends the call, and the other steps are at a slot.
  by_cases hpc : call.pc = .scan
  · have hrank : call.rank s.manager.total = (s.manager.total - call.offset) * 6 + 6 := by
      rw [PollCall.rank, hpc]
      rfl
    rw [hrank]
    rcases advancePoll_scan hcall hpc hs with ⟨slot, hlt, -, -, -, rfl⟩ | ⟨hlt, -, rfl⟩ | ⟨-, rfl⟩
    · refine .inr ⟨_, rfl, hlt, ?_⟩
      show (s.manager.total - call.offset) * 6 + 5 < _
      omega
    · refine .inr ⟨_, rfl, hlt, ?_⟩
      show (s.manager.total - (call.offset + 1)) * 6 + 6 < _
      omega
    · exact .inl rfl
  · cases State.advancePoll_cases hs with
    | acquire hcall' hscan | pass hcall' hscan | finish hcall' hscan =>
        obtain rfl := Option.some.inj (hcall.symm.trans hcall')
        exact absurd hscan hpc
    | pollHold hcall' hp hslot hid hhold | pollQuiet hcall' hp hslot hid hhold =>
        obtain rfl := Option.some.inj (hcall.symm.trans hcall')
        exact .inr ⟨_, rfl, hold_rank (PollCall.hold_cases hhold) hwithin⟩

/-- A position in the poll order is that of a slot. -/
theorem Manager.Shaped.slot_of_flat {m : Manager} (h : m.Shaped) {flat : Nat}
    (hflat : flat < m.total) : ∃ slot, m.slot? (m.placeOf flat) = some slot := by
  have hpos : 0 < m.slotsPerStream.toNat :=
    Nat.pos_of_ne_zero fun hzero => by simp [Manager.total, hzero] at hflat
  have hstream : flat / m.slotsPerStream.toNat < m.streams.length :=
    (Nat.div_lt_iff_lt_mul hpos).mpr hflat
  have hslot : flat % m.slotsPerStream.toNat
      < (m.streams[flat / m.slotsPerStream.toNat]).slots.length := by
    rw [h _ (List.getElem_mem hstream)]
    exact Nat.mod_lt _ hpos
  exact ⟨_, Option.bind_eq_some_iff.mpr
    ⟨_, List.getElem?_eq_getElem hstream, List.getElem?_eq_getElem hslot⟩⟩

/-- The next step of the poll call is possible, whatever the backend answers. -/
theorem advancePoll_enabled (h : Inv s) (hshaped : s.manager.Shaped) (hcall : s.poll = some call)
    (rc : Int) : ∃ s', s.advancePoll rc = some s' := by
  cases hpc : call.pc with
  -- The slot at the cursor is one of the pool.
  | scan =>
      simp only [State.advancePoll, hcall, Option.bind_some, hpc]
      split
      case isTrue hgo =>
        have hlt : (call.start + UInt64.ofNat call.offset).toNat % s.manager.total
            < s.manager.total := Nat.mod_lt _ (by omega)
        obtain ⟨slot, hslot⟩ := hshaped.slot_of_flat hlt
        exact ⟨_, Option.map_eq_some_iff.mpr ⟨slot, hslot, rfl⟩⟩
      case isFalse => exact ⟨_, rfl⟩
  -- The slot the call is at has a life, so it is there.
  | load p | query p _ | confirm p _ | release p | observe p _ _ | withdraw p =>
      have hp : call.place = some p := by rw [PollCall.place, hpc]
      obtain ⟨id, slot, l, hl, -⟩ := h.poll call p hcall hp
      have hhold : ∃ x, call.hold id slot rc = some x := by
        simp only [PollCall.hold, hpc]
        first
          | exact ⟨_, rfl⟩
          | exact ⟨_, (apply_ite some _ _ _).symm⟩
      obtain ⟨x, hx⟩ := hhold
      simp only [State.advancePoll, hcall, Option.bind_some, hpc]
      rw [hp, Option.bind_some, hl.slot_eq, Option.bind_some, hl.stream_eq, Option.bind_some, hx]
      exact ⟨_, rfl⟩

/-- A step that leaves the poll call and the slots leaves its rank. -/
theorem pollRank_of_same (hpoll : s'.poll = s.poll) (htotal : s'.manager.total = s.manager.total) :
    s'.pollRank = s.pollRank ∧ (s.PollWithin → s'.PollWithin) := by
  rw [State.pollRank, State.pollRank, State.PollWithin, State.PollWithin, hpoll, htotal]
  exact ⟨rfl, id⟩

/-- The poll call in progress goes on by its own steps only. -/
theorem poll_eq {a : Action} (h : Inv s) (hgo : s.poll.isSome) (ha : a.isAdvancePoll = false)
    (hs : s.step a = some s') : s'.poll = s.poll := by
  cases State.step_cases hs with
  | poll hfree => exact absurd (.inr (.inl (h.flag.trans hgo))) hfree
  | acquire | pass | finish | pollHold | pollQuiet => cases ha
  | _ => rfl

/-- While a poll call is in progress, every step keeps its rank, or is its own and lowers it. -/
theorem pollRank_step {a : Action} (h : Inv s) (hwithin : s.PollWithin) (hgo : s.poll.isSome)
    (hs : s.step a = some s') :
    s'.PollWithin ∧ s'.pollRank + (if a.isAdvancePoll then 1 else 0) ≤ s.pollRank := by
  have htotal := (sameSlots_step a hs).total
  cases a with
  | advancePoll rc =>
      obtain ⟨call, hcall⟩ := Option.isSome_iff_exists.mp hgo
      have hrank : s.pollRank = call.rank s.manager.total := by
        rw [State.pollRank, hcall]
        rfl
      show _ ∧ s'.pollRank + 1 ≤ s.pollRank
      rw [hrank, State.pollRank, State.PollWithin, htotal]
      -- The call has ended, or it is closer to its end.
      rcases advancePoll_rank hcall hs (hwithin call hcall) with hnone | ⟨call', hcall', hin, hlt⟩
      · rw [hnone]
        refine ⟨by simp, ?_⟩
        show 0 + 1 ≤ call.rank s.manager.total
        have hleft : 0 < call.pc.left := by cases call.pc <;> simp [PollPc.left]
        rw [PollCall.rank]
        omega
      · rw [hcall']
        exact ⟨fun call hcall => Option.some.inj hcall ▸ hin, hlt⟩
  | submit | advance | poll | host =>
      obtain ⟨hrank, hkeep⟩ := pollRank_of_same (poll_eq h hgo rfl hs) htotal
      exact ⟨hkeep hwithin, hrank.le⟩

/-- A step outside a poll call leaves none, or starts one that has all its steps to make. -/
theorem pollWithin_step {a : Action} (h : Inv s) (hwithin : s.PollWithin)
    (hs : s.step a = some s') : s'.PollWithin := by
  cases hpoll : s.poll with
  | some call => exact (pollRank_step h hwithin (by rw [hpoll]; rfl) hs).1
  | none =>
      -- Only a new call can be in progress now, and it is at its first slot.
      cases State.step_cases hs with
      | poll => exact fun call hcall => Option.some.inj hcall ▸ Nat.zero_le _
      | acquire hcall | pass hcall | finish hcall | pollHold hcall | pollQuiet hcall =>
          rw [hpoll] at hcall
          cases hcall
      | _ => exact fun call hcall => absurd (hpoll.symm.trans hcall) (by simp)

/-- The rank of a poll call is at most that of one that starts. -/
theorem pollRank_le (s : State) : s.pollRank ≤ s.manager.total * 6 + 6 := by
  cases hpoll : s.poll with
  | none =>
      rw [State.pollRank, hpoll]
      exact Nat.zero_le _
  | some call =>
      have hleft : call.pc.left ≤ 6 := by cases call.pc <;> simp [PollPc.left]
      rw [State.pollRank, hpoll]
      show (s.manager.total - call.offset) * 6 + call.pc.left ≤ _
      omega

end

/-! ### Calls of a session -/

/-- The action is a step of submit call `k`. -/
def SessionAction.advances (k : Nat) : SessionAction → Bool
  | pool a => a.advances k
  | _      => false

/-- The action is a step of the poll call in progress. -/
def SessionAction.isAdvancePoll : SessionAction → Bool
  | pool a => a.isAdvancePoll
  | _      => false

section
variable {slotsPerStream : UInt32} {m : Manager} {s s' : Session} {as bs : List SessionAction}

/-- No step of a session raises the rank of a submit call, and its own steps lower it. -/
theorem Session.submitRank_step {k : Nat} {a : SessionAction} (hs : s.step a = some s') :
    s'.pool.submitRank k + (if a.advances k then 1 else 0) ≤ s.pool.submitRank k := by
  obtain ⟨-, hs⟩ := Session.step_cases hs
  cases a with
  | pool a =>
      obtain ⟨pool, hpool, rfl⟩ := Option.map_eq_some_iff.mp hs
      exact Checkpoint.submitRank_step hpool
  | register id handle codes =>
      obtain ⟨-, rfl⟩ := hs
      obtain ⟨n, ⟨-, hs'⟩ | ⟨-, hs'⟩⟩ := s.registerStream_cases id handle codes
      · rw [hs']
        exact le_rfl
      · rw [hs']
        exact (submitRank_congr rfl rfl).le
  | destroy poller =>
      obtain ⟨-, rfl⟩ := hs
      exact le_rfl

/-- **A submit call is wait-free**: in every run of a session, submit call `k` makes at most
`slotsPerStream + 6` steps, whatever the others do between them, and as long as it has not
returned its next step is possible. -/
theorem submit_wait_free (hm : flightCheckpointCreate slotsPerStream = some m)
    (h : Run Session.step (Session.start m) as s) (k : Nat) :
    as.countP (SessionAction.advances k) ≤ slotsPerStream.toNat + 6 ∧
      ∀ call, s.pool.submits[k]? = some call → call.returned = false →
        ∀ rc, ∃ s', s.step (.pool (.advance k rc)) = some s' := by
  have hsound := session_sound hm h
  constructor
  · -- The rank starts at what the call may take, and each of its steps lowers it.
    have hcount := Run.countP_add_rank_le (P := fun _ _ _ => True) (SessionAction.advances k)
      (fun s => s.pool.submitRank k) (fun _ => True) (fun _ _ _ _ _ _ => trivial)
      (fun s a s' _ hs _ => Session.submitRank_step hs) (fun _ _ _ _ _ _ _ _ => trivial) h trivial
    have hstart : (Session.start m).pool.submitRank k = slotsPerStream.toNat + 6 := by
      rw [← (session_sound_start hm).slots]
      exact submitRank_none rfl
    omega
  · intro call hk hgo rc
    obtain ⟨pool, hpool⟩ :=
      advance_enabled hsound.balanced.inv hsound.shaped hk hgo rc
    -- A deleted manager has no call in progress.
    have hlive : ¬ s.deleted = true := by
      intro hdeleted
      obtain ⟨-, hall⟩ := Bool.and_eq_true_iff.mp (hsound.deleted hdeleted)
      have hreturned := List.all_eq_true.mp hall call (List.mem_of_getElem? hk)
      rw [hgo] at hreturned
      cases hreturned
    exact ⟨_, by
      rw [Session.step, if_neg hlive]
      exact Option.map_eq_some_iff.mpr ⟨pool, hpool, rfl⟩⟩

/-- A call that reserves its slot while a second one starts. -/
theorem submit_wait_free_two :
    ∃ m s, flightCheckpointCreate 1 = some m ∧
      Run Session.step (Session.start m)
        [.register 7 0 fun _ => 0, .pool (.submit 7 100 1), .pool (.advance 0 0),
          .pool (.submit 7 101 2), .pool (.advance 0 0)] s ∧
      ∀ rc, ∃ s', s.step (.pool (.advance 0 rc)) = some s' := by
  have hrun : Run Session.step (Session.start ⟨1, [], false, 0⟩)
      [.register 7 0 fun _ => 0, .pool (.submit 7 100 1), .pool (.advance 0 0),
        .pool (.submit 7 101 2), .pool (.advance 0 0)] _ := rfl
  have hcreate : flightCheckpointCreate 1 = some ⟨1, [], false, 0⟩ := rfl
  exact ⟨_, _, hcreate, hrun, (submit_wait_free hcreate hrun 0).2 _ rfl rfl⟩

/-- Before the step a poll call is in progress. -/
def Session.InPoll (s : Session) (_ : SessionAction) (_ : Session) : Prop :=
  s.pool.poll.isSome = true

/-- The poll call stays within the slots. -/
theorem Session.pollWithin_step (h : s.Sound slotsPerStream) (hwithin : s.pool.PollWithin)
    {a : SessionAction} (hs : s.step a = some s') : s'.pool.PollWithin := by
  obtain ⟨-, hs⟩ := Session.step_cases hs
  cases a with
  | pool a =>
      obtain ⟨pool, hpool, rfl⟩ := Option.map_eq_some_iff.mp hs
      exact Checkpoint.pollWithin_step h.balanced.inv hwithin hpool
  | register id handle codes =>
      obtain ⟨hidle, rfl⟩ := hs
      intro call hcall
      exact absurd (hidle.1.symm.trans hcall) (by simp)
  | destroy poller =>
      obtain ⟨-, rfl⟩ := hs
      exact hwithin

/-- No step of a session raises the rank of the poll call that is in progress, and its own
steps lower it. -/
theorem Session.pollRank_step (h : s.Sound slotsPerStream) (hwithin : s.pool.PollWithin)
    {a : SessionAction} (hs : s.step a = some s') (hin : s.InPoll a s') :
    s'.pool.pollRank + (if a.isAdvancePoll then 1 else 0) ≤ s.pool.pollRank := by
  obtain ⟨-, hs⟩ := Session.step_cases hs
  cases a with
  | pool a =>
      obtain ⟨pool, hpool, rfl⟩ := Option.map_eq_some_iff.mp hs
      exact (Checkpoint.pollRank_step h.balanced.inv hwithin hin hpool).2
  | register id handle codes =>
      obtain ⟨hidle, -⟩ := hs
      rw [Session.InPoll, hidle.1] at hin
      cases hin
  | destroy poller =>
      obtain ⟨hidle, -⟩ := hs
      rw [Session.InPoll, hidle.1] at hin
      cases hin

/-- In every state of a run the session is sound and the poll call within the slots. -/
theorem session_within (hm : flightCheckpointCreate slotsPerStream = some m)
    (h : Run Session.step (Session.start m) as s) :
    s.Sound slotsPerStream ∧ s.pool.PollWithin := by
  refine Run.invariant (fun s : Session => s.Sound slotsPerStream ∧ s.pool.PollWithin)
    (fun s a s' hs hstep => ⟨hs.1.step hstep, Session.pollWithin_step hs.1 hs.2 hstep⟩) h ?_
  exact ⟨session_sound_start hm,
    fun call hcall => absurd hcall (by simp [Session.start, State.start])⟩

/-- The next step of the poll call is possible as long as it is in progress. -/
theorem Session.advancePoll_enabled (h : s.Sound slotsPerStream) (hgo : s.pool.poll.isSome)
    (rc : Int) : s.deleted = false ∧ ∃ s', s.advance (.advancePoll rc) = some s' := by
  obtain ⟨call, hcall⟩ := Option.isSome_iff_exists.mp hgo
  obtain ⟨pool, hpool⟩ := Checkpoint.advancePoll_enabled h.balanced.inv h.shaped hcall rc
  refine ⟨Bool.eq_false_iff.mpr fun hdeleted => ?_, _,
    Option.map_eq_some_iff.mpr ⟨pool, hpool, rfl⟩⟩
  obtain ⟨hnone, -⟩ := Bool.and_eq_true_iff.mp (h.deleted hdeleted)
  rw [hcall] at hnone
  cases hnone

/-- **A poll call is wait-free**: from any state that a session reaches, the poll call in
progress makes at most six steps for each slot and six more before it returns, whatever the
others do between them, and until then its next step is possible. -/
theorem poll_wait_free (hm : flightCheckpointCreate slotsPerStream = some m)
    (hbefore : Run Session.step (Session.start m) bs s) (h : Run Session.step s as s')
    (hin : Run.Along Session.step Session.InPoll s as) :
    as.countP SessionAction.isAdvancePoll ≤ s.pool.manager.total * 6 + 6 ∧
      (s'.pool.poll.isSome → ∀ rc, ∃ s'', s'.step (.pool (.advancePoll rc)) = some s'') := by
  have hs := session_within hm hbefore
  constructor
  · have hcount := Run.countP_add_rank_le SessionAction.isAdvancePoll (fun s => s.pool.pollRank)
      (fun s => s.Sound slotsPerStream ∧ s.pool.PollWithin)
      (fun s a s' hs hstep _ => ⟨hs.1.step hstep, Session.pollWithin_step hs.1 hs.2 hstep⟩)
      (fun s a s' hs hstep hP => Session.pollRank_step hs.1 hs.2 hstep hP) hin h hs
    have hle := pollRank_le s.pool
    omega
  · intro hgo rc
    have hsound := session_sound hm (hbefore.append h)
    obtain ⟨hlive, s'', hs''⟩ := Session.advancePoll_enabled hsound hgo rc
    refine ⟨s'', ?_⟩
    rw [Session.step, if_neg (by simp [hlive])]
    exact hs''

/-- A poll call over one slot, which a submit call reserves meanwhile. -/
theorem poll_wait_free_one :
    ∃ m s s', flightCheckpointCreate 1 = some m ∧
      Run Session.step (Session.start m)
        [.register 7 0 fun _ => 0, .pool (.submit 7 100 1), .pool (.poll 8)] s ∧
      Run Session.step s [.pool (.advance 0 0), .pool (.advancePoll 0)] s' ∧
      ∀ rc, ∃ s'', s'.step (.pool (.advancePoll rc)) = some s'' := by
  have hbefore : Run Session.step (Session.start ⟨1, [], false, 0⟩)
      [.register 7 0 fun _ => 0, .pool (.submit 7 100 1), .pool (.poll 8)] _ := rfl
  have hcreate : flightCheckpointCreate 1 = some ⟨1, [], false, 0⟩ := rfl
  have hwaits := @poll_wait_free 1 _ _ _ [.pool (.advance 0 0), .pool (.advancePoll 0)] _ hcreate
    hbefore rfl
  refine ⟨_, _, _, hcreate, hbefore, rfl, (hwaits ?_).2 rfl⟩
  refine Run.along_cons_iff.mpr fun t ht => ⟨rfl,
    Run.along_cons_iff.mpr fun u hu => ⟨?_, Run.along_nil⟩⟩
  obtain rfl := Option.some.inj ht
  rfl

end

end HangAnalyzer.Checkpoint
