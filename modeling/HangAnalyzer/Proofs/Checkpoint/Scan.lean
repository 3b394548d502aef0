import Mathlib.Data.List.Nodup
import Mathlib.Data.List.Perm.Subperm
import Mathlib.Data.Nat.ModEq
import HangAnalyzer.Proofs.Checkpoint.Steps

/-!
# `HangAnalyzer.Proofs.Checkpoint.Scan`: which slots a submit call tries

The scan of `flight_checkpoint_submit` starts at the cursor of the stream, which
counts modulo `2 ^ 32`. The sum of the cursor and the loop variable wraps there
too, and the positions before and after the wrap fit together only if the
number of slots divides `2 ^ 32` (`scanOrder_perm_iff`). Otherwise some slots are
tried twice and others not at all, and a free one among these is missed
(`free_slot_missed`).

`finish_scan` follows the scan of a call that runs on its own. It is an induction
on the slots that are still to be tried.
-/

set_option autoImplicit false

namespace HangAnalyzer.Checkpoint

open HangAnalyzer.Lib

/-! ### The order of the scan -/

/-- The scan does not wrap, or the wrap is a multiple of the number of slots. -/
def Seamless (slotsPerStream start : UInt32) : Prop :=
  start.toNat + slotsPerStream.toNat ≤ 2 ^ 32 ∨ slotsPerStream.toNat ∣ 2 ^ 32

/-- The position at which the scan is after `n` slots. -/
theorem toNat_position (slotsPerStream start : UInt32) {n : Nat} (hn : n < 2 ^ 32) :
    ((start + UInt32.ofNat n) % slotsPerStream).toNat
      = (start.toNat + n) % 2 ^ 32 % slotsPerStream.toNat := by
  rw [UInt32.toNat_mod, UInt32.toNat_add, UInt32.toNat_ofNat_of_lt' hn]

/-- In a seamless scan the positions are distinct. `word` is the number of values of the
type in which the sum wraps. -/
theorem position_inj {word slots start : Nat} (hseamless : start + slots ≤ word ∨ slots ∣ word)
    {n n' : Nat} (hn : n < slots) (hn' : n' < slots)
    (h : (start + n) % word % slots = (start + n') % word % slots) : n = n' := by
  have hmod : ∀ j < slots, (start + j) % word % slots = (start + j) % slots := by
    intro j hj
    rcases hseamless with hle | hdvd
    · rw [Nat.mod_eq_of_lt (show start + j < word by omega)]
    · rw [Nat.mod_mod_of_dvd _ hdvd]
  rw [hmod n hn, hmod n' hn'] at h
  have hcancel : n ≡ n' [MOD slots] := Nat.ModEq.add_left_cancel' start h
  exact hcancel.eq_of_lt_of_lt hn hn'

/-- In a scan with a seam two positions agree. -/
theorem position_collides {slots start : Nat} (hstart : start < 2 ^ 32) (hslots : slots ≤ 2 ^ 32)
    (hwrap : 2 ^ 32 < start + slots) (hdvd : ¬ slots ∣ 2 ^ 32) :
    ∃ n n', n < n' ∧ n' < slots ∧
      (start + n) % 2 ^ 32 % slots = (start + n') % 2 ^ 32 % slots := by
  -- The wrap comes after `before` slots, at a position that is `rest` off.
  obtain ⟨before, hbefore⟩ : ∃ before, start + before = 2 ^ 32 := ⟨2 ^ 32 - start, by omega⟩
  have hpos : 0 < slots := by omega
  have hrest : 0 < 2 ^ 32 % slots := Nat.pos_of_ne_zero fun h => hdvd (Nat.dvd_of_mod_eq_zero h)
  have hlt := Nat.mod_lt (2 ^ 32) hpos
  have hdiv := Nat.div_add_mod (2 ^ 32) slots
  generalize 2 ^ 32 % slots = rest at hrest hlt hdiv
  generalize 2 ^ 32 / slots = rounds at hdiv
  by_cases hle : rest ≤ before
  · -- Position zero comes before the wrap, and again right after it.
    refine ⟨before - rest, before, by omega, by omega, ?_⟩
    have hfirst : start + (before - rest) = slots * rounds := by omega
    rw [hfirst, hbefore, Nat.mod_self, Nat.zero_mod,
      Nat.mod_eq_of_lt (show slots * rounds < 2 ^ 32 by omega), Nat.mul_mod_right]
  · -- The scan starts after position zero, and comes back to its start.
    refine ⟨0, rest, hrest, hlt, ?_⟩
    have hfirst : start + 0 = slots * rounds + (rest - before) := by omega
    have hlast : start + rest = 2 ^ 32 + (rest - before) := by omega
    rw [hlast, Nat.add_mod_left, Nat.mod_eq_of_lt (show rest - before < 2 ^ 32 by omega),
      Nat.mod_eq_of_lt (show start + 0 < 2 ^ 32 by omega), hfirst, Nat.mul_add_mod]

/-- **The scan visits every slot exactly once** if and only if it is seamless. -/
theorem scanOrder_perm_iff {slotsPerStream start : UInt32} (hslots : 0 < slotsPerStream.toNat) :
    (scanOrder slotsPerStream start).Perm (List.range slotsPerStream.toNat) ↔
      Seamless slotsPerStream start := by
  have hlt : slotsPerStream.toNat < 2 ^ 32 := slotsPerStream.toNat_lt
  have hposition : ∀ n < slotsPerStream.toNat, ((start + UInt32.ofNat n) % slotsPerStream).toNat
      = (start.toNat + n) % 2 ^ 32 % slotsPerStream.toNat :=
    fun n hn => toNat_position slotsPerStream start (hn.trans hlt)
  constructor
  · intro hperm
    -- Two positions collide when the counter wraps within the scan.
    by_contra hseam
    rw [Seamless, not_or, not_le] at hseam
    obtain ⟨n, n', hnn', hn', heq⟩ :=
      position_collides start.toNat_lt hlt.le hseam.1 hseam.2
    have hinj := List.inj_on_of_nodup_map (hperm.nodup_iff.mpr List.nodup_range)
    have hsame := hinj (List.mem_range.mpr (hnn'.trans hn')) (List.mem_range.mpr hn') (by
      rw [hposition n (hnn'.trans hn'), hposition n' hn', heq])
    omega
  · intro hseamless
    -- Without the wrap the positions are all different.
    have hnodup : (scanOrder slotsPerStream start).Nodup := by
      refine List.Nodup.map_on (fun n hn n' hn' h => ?_) List.nodup_range
      rw [List.mem_range] at hn hn'
      rw [hposition n hn, hposition n' hn'] at h
      exact position_inj hseamless hn hn' h
    -- They are as many as the slots, so they are all of them.
    refine (List.subperm_of_subset hnodup fun x hx => ?_).perm_of_length_le (by simp [scanOrder])
    obtain ⟨n, hn, rfl⟩ := List.mem_map.mp hx
    rw [List.mem_range] at hn ⊢
    rw [hposition n hn]
    exact Nat.mod_lt _ hslots

/-! ### A call on its own -/

namespace State

section
variable {s s' : State} {k : Nat} {rc : Int} {call : SubmitCall} {start : UInt32} {n : Nat}

/-- A call in the middle of its work makes a step and goes on. -/
theorem finish_succ (hk : s.submits[k]? = some call) (hpc : ∀ rc gen, call.pc ≠ .done rc gen)
    (fuel : Nat) : s.finish k rc (fuel + 1) = (s.advance k rc).bind (finish k rc fuel) := by
  rw [finish, hk, Option.map_some]
  split
  · rename_i heq
    cases heq
  · rename_i rc' gen heq
    exact absurd (Option.some.inj heq) (hpc rc' gen)
  · rfl

/-- A call that has returned stays so. -/
theorem finish_done {rc' : Int} {gen : Option UInt64} (hk : s.submits[k]? = some call)
    (hpc : call.pc = .done rc' gen) (fuel : Nat) : s.finish k rc (fuel + 1) = some s := by
  rw [finish, hk, Option.map_some, hpc]

/-- The call that was changed is found. -/
theorem submits_setSubmit (hk : s.submits[k]? = some call) (call' : SubmitCall) :
    (s.setSubmit k call').submits[k]? = some call' := by
  have hlt := (List.getElem?_eq_some_iff.mp hk).1
  simp [setSubmit, hlt]

/-- The scan takes a free slot. -/
theorem advance_free {slot : Slot} (hk : s.submits[k]? = some call)
    (hpc : call.pc = .scan start n) (hn : n < s.manager.slotsPerStream.toNat)
    (hslot : s.manager.slot? (s.candidate call start n) = some slot) (hfree : slot.state = .free) :
    s.advance k rc = some ((s.access (s.candidate call start n) { slot with state := .reserved }
      (.reserve k)).setSubmit k { call with pc := .number (s.candidate call start n).slot }) := by
  simp only [advance, hk, Option.bind_some, hpc, if_pos hn, hslot, Option.map_some, if_pos hfree]

/-- The scan passes over a slot that is not free. -/
theorem advance_taken {slot : Slot} (hk : s.submits[k]? = some call)
    (hpc : call.pc = .scan start n) (hn : n < s.manager.slotsPerStream.toNat)
    (hslot : s.manager.slot? (s.candidate call start n) = some slot) (hfree : slot.state ≠ .free) :
    s.advance k rc = some (s.setSubmit k { call with pc := .scan start (n + 1) }) := by
  simp only [advance, hk, Option.bind_some, hpc, if_pos hn, hslot, Option.map_some, if_neg hfree]

/-- The scan gives up after its last slot. -/
theorem advance_full (hk : s.submits[k]? = some call) (hpc : call.pc = .scan start n)
    (hn : ¬ n < s.manager.slotsPerStream.toNat) :
    s.advance k rc = some { s with
      submits := s.submits.set k { call with pc := .done EAGAIN none }
      trace := s.trace ++ [.poolFull (call.stamp 0)] } := by
  simp only [advance, hk, Option.bind_some, hpc, if_neg hn]

end

end State

/-- The steps that a call which holds a slot has still to make. -/
def SubmitPc.left : SubmitPc → Nat
  | scan .. => 0
  | number .. => 5
  | fill .. => 4
  | enqueue .. => 3
  | release .. => 2
  | report .. => 2
  | publish .. => 1
  | done .. => 0

/-- A call that holds a slot can make a step: it keeps the slot, or it returns. -/
theorem SubmitCall.hold_left {call : SubmitCall} {p : Place} (hp : call.place = some p) (k : Nat)
    (slot : Slot) (rc : Int) : ∃ slot' a pc, call.hold k slot rc = some (slot', a, pc) ∧
      pc.left < call.pc.left ∧
      (({ call with pc }).place = some p ∨ ∃ rc gen, pc = .done rc gen) := by
  unfold SubmitCall.place at hp
  -- What follows is the place in the code after each step.
  unfold SubmitCall.hold
  cases hpc : call.pc with
  | scan => simp [hpc] at hp
  | done => simp [hpc] at hp
  | number i =>
      rw [hpc] at hp
      exact ⟨_, _, _, rfl, by simp [SubmitPc.left], Or.inl hp⟩
  | fill i gen =>
      rw [hpc] at hp
      exact ⟨_, _, _, rfl, by simp [SubmitPc.left], Or.inl hp⟩
  | enqueue i gen =>
      rw [hpc] at hp
      refine ⟨_, _, _, rfl, ?_, Or.inl ?_⟩
      · split <;> simp [SubmitPc.left]
      · split <;> exact hp
  | release i rc =>
      exact ⟨_, _, _, rfl, by simp [SubmitPc.left], Or.inr ⟨_, _, rfl⟩⟩
  | report i gen =>
      rw [hpc] at hp
      exact ⟨_, _, _, rfl, by simp [SubmitPc.left], Or.inl hp⟩
  | publish i gen =>
      exact ⟨_, _, _, rfl, by simp [SubmitPc.left], Or.inr ⟨_, _, rfl⟩⟩

namespace State

variable {s s' : State} {k : Nat} {rc : Int} {call : SubmitCall}

/-- A call that holds a slot returns, and what it does is added to the trace. -/
theorem finish_hold {p : Place} (fuel : Nat) (hk : s.submits[k]? = some call)
    (hp : call.place = some p ∨ ∃ rc gen, call.pc = .done rc gen)
    (hslot : ∃ slot, s.manager.slot? p = some slot) (hfuel : call.pc.left < fuel) :
    ∃ s', s.finish k rc fuel = some s' ∧ s.trace <+: s'.trace := by
  induction fuel generalizing s call with
  | zero => exact absurd hfuel (Nat.not_lt_zero _)
  | succ fuel ih =>
      by_cases hdone : ∃ rc gen, call.pc = .done rc gen
      · -- The call has returned already.
        obtain ⟨rc', gen, hpc⟩ := hdone
        exact ⟨s, finish_done hk hpc fuel, List.prefix_rfl⟩
      · -- It makes its next step at its slot, and is then closer to its end.
        have hplace := hp.resolve_right hdone
        obtain ⟨slot, hslot⟩ := hslot
        obtain ⟨slot', a, pc, hhold, hleft, hnext⟩ := call.hold_left hplace k slot rc
        have hadvance : s.advance k rc =
            some ((s.access p slot' a).setSubmit k { call with pc }) := by
          simp only [advance, hk, Option.bind_some]
          split
          · rename_i start n hpc
            simp [SubmitCall.place, hpc] at hplace
          · simp only [hplace, Option.bind_some, hslot, hhold, Option.map_some]
        rw [finish_succ hk (fun rc gen h => hdone ⟨rc, gen, h⟩), hadvance, Option.bind_some]
        have hkept : ∃ slot, (s.manager.modifySlot p fun _ => slot').slot? p = some slot := by
          rw [Manager.slot?_modifySlot, if_pos rfl, hslot]
          exact ⟨_, rfl⟩
        obtain ⟨s', hs', hprefix⟩ := ih (s := (s.access p slot' a).setSubmit k { call with pc })
          (submits_setSubmit (s := s.access p slot' a) hk _) hnext hkept (by
            show pc.left < fuel
            omega)
        exact ⟨s', hs', (List.prefix_append _ _).trans hprefix⟩

/-- The call returned `EAGAIN`, and the record of a full pool is all it wrote. -/
def PoolFull (s s' : State) (k : Nat) (call : SubmitCall) : Prop :=
  s'.submits[k]? = some { call with pc := .done EAGAIN none } ∧
    s'.trace = s.trace ++ [.poolFull (call.stamp 0)]

/-- The rest of a scan. The induction is on the slots still to be tried. -/
theorem finish_scan {start : UInt32} (left : Nat) (hk : s.submits[k]? = some call)
    (hpc : call.pc = .scan start (s.manager.slotsPerStream.toNat - left))
    (hleft : left ≤ s.manager.slotsPerStream.toNat)
    (hslots : ∀ n < s.manager.slotsPerStream.toNat,
      ∃ slot, s.manager.slot? (s.candidate call start n) = some slot) :
    ∃ s', s.finish k rc (left + 6) = some s' ∧ (PoolFull s s' k call ↔
      ∀ n < s.manager.slotsPerStream.toNat, s.manager.slotsPerStream.toNat - left ≤ n →
        ∀ slot, s.manager.slot? (s.candidate call start n) = some slot → slot.state ≠ .free) := by
  have hgo : ∀ rc gen, call.pc ≠ .done rc gen := by
    intro rc gen h
    rw [hpc] at h
    cases h
  induction left generalizing s call with
  | zero =>
      rw [finish_succ hk hgo, advance_full hk hpc (by omega), Option.bind_some]
      have hlt := (List.getElem?_eq_some_iff.mp hk).1
      have hdone : (s.submits.set k { call with pc := .done EAGAIN none })[k]?
          = some { call with pc := .done EAGAIN none } := List.getElem?_set_self hlt
      refine ⟨_, finish_done hdone rfl 4, ?_⟩
      -- No slot is left, so the pool is full.
      constructor
      · intro _ n hn hle
        omega
      · exact fun _ => ⟨hdone, rfl⟩
  | succ left ih =>
      obtain ⟨n, hn, hnext⟩ : ∃ n, s.manager.slotsPerStream.toNat - (left + 1) = n ∧
          s.manager.slotsPerStream.toNat - left = n + 1 := ⟨_, rfl, by omega⟩
      -- The slot with number `n` is the next one to look at.
      rw [hn] at hpc
      obtain ⟨slot, hslot⟩ := hslots n (by omega)
      rw [finish_succ hk hgo]
      by_cases hfree : slot.state = .free
      · -- The call takes the slot, so it does not report a full pool.
        rw [advance_free hk hpc (by omega) hslot hfree, Option.bind_some]
        have hkept : ∃ slot', (s.manager.modifySlot (s.candidate call start n)
            fun _ => { slot with state := .reserved }).slot? (s.candidate call start n)
              = some slot' := by
          rw [Manager.slot?_modifySlot, if_pos rfl, hslot]
          exact ⟨_, rfl⟩
        obtain ⟨s', hs', hprefix⟩ : ∃ s', State.finish k rc (left + 6) _ = some s' ∧ _ :=
          finish_hold (p := s.candidate call start n) (left + 6)
          (submits_setSubmit (s := s.access _ _ _) hk
            { call with pc := .number (s.candidate call start n).slot })
          (Or.inl rfl) hkept (by
            show 5 < left + 6
            omega)
        refine ⟨s', hs', ?_⟩
        constructor
        · rintro ⟨-, htrace⟩
          have hsame : s.trace ++ [.access (s.candidate call start n) (.reserve k)] <+:
              s.trace ++ [.poolFull (call.stamp 0)] := htrace ▸ hprefix
          rw [List.prefix_append_right_inj] at hsame
          simp at hsame
        · intro hall
          exact absurd hfree (hall n (by omega) (by omega) slot hslot)
      · -- The call passes over the slot, and goes on with the next one.
        rw [advance_taken hk hpc (by omega) hslot hfree, Option.bind_some]
        obtain ⟨s', hs', hiff⟩ := ih (s := s.setSubmit k { call with pc := .scan start (n + 1) })
          (submits_setSubmit hk { call with pc := .scan start (n + 1) }) (by
            show SubmitPc.scan start (n + 1) = .scan start (s.manager.slotsPerStream.toNat - left)
            rw [hnext]) (by
            show left ≤ s.manager.slotsPerStream.toNat
            omega) hslots (by
            intro rc gen h
            cases h)
        refine ⟨s', hs', hiff.trans ?_⟩
        show (∀ j < s.manager.slotsPerStream.toNat, s.manager.slotsPerStream.toNat - left ≤ j →
          ∀ slot', s.manager.slot? (s.candidate call start j) = some slot' →
            slot'.state ≠ .free) ↔ _
        constructor
        · intro hall j hj hle slot' hslot'
          by_cases hjn : j = n
          · subst hjn
            obtain rfl := Option.some.inj (hslot.symm.trans hslot')
            exact hfree
          · exact hall j hj (by omega) slot' hslot'
        · exact fun hall j hj hle => hall j hj (by omega)

end State

/-! ### A full pool -/

/-- A slot is free where the scan comes by if one is free at all. -/
theorem forall_position_iff {slotsPerStream start : UInt32} {P : Nat → Prop}
    (h : (scanOrder slotsPerStream start).Perm (List.range slotsPerStream.toNat)) :
    (∀ n < slotsPerStream.toNat, P ((start + UInt32.ofNat n) % slotsPerStream).toNat) ↔
      ∀ j < slotsPerStream.toNat, P j := by
  have hmem := fun j => h.mem_iff (a := j)
  simp only [scanOrder, List.mem_map, List.mem_range] at hmem
  constructor
  · intro hall j hj
    obtain ⟨n, hn, rfl⟩ := (hmem j).mpr hj
    exact hall n hn
  · intro hall n hn
    exact hall _ ((hmem _).mp ⟨n, hn, rfl⟩)

/-- The call that `submit` starts. -/
def startedCall (streamId : UInt32) (submittedSeq checkpointId : UInt64) (i : Nat)
    (stream : Stream) : SubmitCall :=
  ⟨streamId, submittedSeq, checkpointId, i, .scan stream.cursor 0⟩

/-- **A full pool.** A call that runs on its own reports a full pool exactly when no
slot is free, and its scan visits every slot exactly once, if and only if the
scan is seamless. -/
theorem poolFull_iff_seamless {s : State} {streamId : UInt32} {submittedSeq : UInt64}
    {i : Nat} {stream : Stream} (hseq : submittedSeq ≠ 0)
    (hfind : s.manager.findStream streamId = some i)
    (hstream : s.manager.streams[i]? = some stream)
    (hslots : stream.slots.length = s.manager.slotsPerStream.toNat)
    (hpos : 0 < s.manager.slotsPerStream.toNat) (checkpointId : UInt64) (rc : Int) :
    ∃ s', s.flightCheckpointSubmit streamId submittedSeq checkpointId rc = .ok (some s') ∧
      (((s.PoolFull s' s.submits.length (startedCall streamId submittedSeq checkpointId i stream) ↔
            ∀ slot ∈ stream.slots, slot.state ≠ .free) ∧
          (scanOrder s.manager.slotsPerStream stream.cursor).Perm
            (List.range s.manager.slotsPerStream.toNat)) ↔
        Seamless s.manager.slotsPerStream stream.cursor) := by
  let call := startedCall streamId submittedSeq checkpointId i stream
  let s₁ : State :=
    { s with manager := s.manager.bumpCursor i, submits := s.submits ++ [call] }
  have hsubmit : s.submit streamId submittedSeq checkpointId = .ok s₁ := by
    simp only [State.submit, if_neg hseq, hfind, hstream, Option.map_some, Option.getD_some]
    rfl
  have hget : ∀ n, s₁.manager.slot? (s₁.candidate call stream.cursor n)
      = stream.slots[((stream.cursor + UInt32.ofNat n) % s.manager.slotsPerStream).toNat]? := by
    intro n
    show (s.manager.bumpCursor i).slot? _ = _
    rw [Manager.slot?_bumpCursor]
    show (s.manager.streams[i]?.bind _) = _
    rw [hstream]
    rfl
  have hlt : ∀ n, ((stream.cursor + UInt32.ofNat n) % s.manager.slotsPerStream).toNat
      < stream.slots.length := by
    intro n
    rw [hslots, UInt32.toNat_mod]
    exact Nat.mod_lt _ hpos
  have hk : s₁.submits[s.submits.length]? = some call := by
    simp [s₁]
  have hpc : call.pc = .scan stream.cursor
      (s₁.manager.slotsPerStream.toNat - s.manager.slotsPerStream.toNat) := by
    rw [show s₁.manager.slotsPerStream.toNat - s.manager.slotsPerStream.toNat = 0 from
      Nat.sub_self _]
    rfl
  obtain ⟨s', hs', hiff⟩ : ∃ s', s₁.finish s.submits.length rc
      (s.manager.slotsPerStream.toNat + 6) = some s' ∧ _ :=
    State.finish_scan s.manager.slotsPerStream.toNat hk hpc (Nat.le_refl _) (by
      intro n _
      rw [hget, List.getElem?_eq_getElem (hlt n)]
      exact ⟨_, rfl⟩)
  refine ⟨s', by rw [State.flightCheckpointSubmit, hsubmit]; exact congrArg Except.ok hs', ?_⟩
  rw [← scanOrder_perm_iff hpos]
  refine ⟨And.right, fun hperm => ⟨?_, hperm⟩⟩
  refine hiff.trans ?_
  -- Every slot is one that the scan comes by.
  have hall := forall_position_iff (P := fun j => ∀ slot, stream.slots[j]? = some slot →
    slot.state ≠ .free) hperm
  constructor
  · intro hscan slot hslot
    obtain ⟨j, hj, rfl⟩ := List.getElem_of_mem hslot
    refine hall.mp (fun n hn slot' hslot' => ?_) j (hslots ▸ hj) _ (List.getElem?_eq_getElem hj)
    refine hscan n hn (by simp [s₁, Manager.bumpCursor]) slot' ?_
    rw [hget]
    exact hslot'
  · intro hfree n _ _ slot hslot
    rw [hget] at hslot
    exact hfree slot (List.mem_of_getElem? hslot)

/-- A manager with one stream whose slots are in the given states. -/
def poolOf (cursor : UInt32) (states : List SlotState) : Manager where
  slotsPerStream := .ofNat states.length
  streams := [⟨7, 70, states.mapIdx fun i state => { Slot.new i with state, generation := 1 },
    cursor⟩]
  polling := false
  pollCursor := 0

/-- A stream of four slots at the end of the cursor's range, the second of them in a given
state. -/
def fourSlots (state : SlotState) : Manager :=
  poolOf 4294967294 [.pending, state, .reserved, .pending]

/-- The scan goes on from the last slot to the first one. It reports a full pool when all slots
are taken, and does not when the second is free. -/
theorem poolFull_four :
    (∃ s', (State.start (fourSlots .querying)).flightCheckpointSubmit 7 100 1 0 = .ok (some s') ∧
      (State.start (fourSlots .querying)).PoolFull s' 0 ⟨7, 100, 1, 0, .scan 4294967294 0⟩) ∧
    ∃ s', (State.start (fourSlots .free)).flightCheckpointSubmit 7 100 1 0 = .ok (some s') ∧
      ¬ (State.start (fourSlots .free)).PoolFull s' 0 ⟨7, 100, 1, 0, .scan 4294967294 0⟩ := by
  have hseamless : Seamless 4 4294967294 := .inr (by decide)
  constructor
  · -- All four slots are in use.
    obtain ⟨s', hs', hiff⟩ : ∃ s', (State.start (fourSlots .querying)).flightCheckpointSubmit 7
        100 1 0 = .ok (some s') ∧ _ :=
      poolFull_iff_seamless (i := 0) (by decide) rfl rfl rfl (by decide) 1 0
    exact ⟨s', hs', (hiff.mpr hseamless).1.mpr (by decide)⟩
  · -- The second slot is free.
    obtain ⟨s', hs', hiff⟩ : ∃ s', (State.start (fourSlots .free)).flightCheckpointSubmit 7 100 1 0
        = .ok (some s') ∧ _ :=
      poolFull_iff_seamless (i := 0) (by decide) rfl rfl rfl (by decide) 1 0
    exact ⟨s', hs', fun hfull => absurd ((hiff.mpr hseamless).1.mp hfull) (by decide)⟩

/-- At the end of the cursor's range a stream of three slots is reported full
while its last slot is free. -/
theorem free_slot_missed :
    (scanOrder 3 4294967295 = [0, 0, 1]) ∧
      ∃ s', (State.start (poolOf 4294967295 [.pending, .pending, .free])).flightCheckpointSubmit
          7 100 1 0 = .ok (some s') ∧
        (State.start (poolOf 4294967295 [.pending, .pending, .free])).PoolFull s' 0
          ⟨7, 100, 1, 0, .scan 4294967295 0⟩ ∧
        ∃ slot ∈ (poolOf 4294967295 [.pending, .pending, .free]).streams.flatMap Stream.slots,
          slot.state = .free := by
  refine ⟨by decide, _, rfl, ⟨rfl, rfl⟩, ?_⟩
  exact ⟨_, List.mem_of_getElem? (i := 2) rfl, rfl⟩

end HangAnalyzer.Checkpoint
