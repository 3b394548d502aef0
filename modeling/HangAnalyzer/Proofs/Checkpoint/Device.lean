import HangAnalyzer.Proofs.Checkpoint.Separate

/-!
# `HangAnalyzer.Proofs.Checkpoint.Device`: what a confirmation says about the device

A poll confirms a slot after the backend has answered 1 for its event. `Rig.Sound` says what
this is worth when the backend is honest: the submission with the stamp of a confirmation
has a marker that the device has completed, and the records of each stream are in the order
of its markers. So the marker of every submission recorded before a completed one is
complete too (`Rig.Sound.earlier`).

`sound_run` proves it for the runs in which no two submit calls of a stream are in progress
at once. `Marked` says which marker the event of a slot has, and `confirm_step` and
`ask_step` how a poll comes to confirm.
-/

set_option autoImplicit false

namespace HangAnalyzer.Checkpoint

open HangAnalyzer.Lib

/-! ### The marker of a slot -/

/-- The call whose event is on the device queue. -/
def Phase.marker? : Phase → Option Nat
  | queued k | submitted k | pending k | querying k | confirmed k => some k
  | _ => none

/-- The latest marker of the event is that of the call of the phase. -/
def Marked (as : List Access) (l : Life) : Prop :=
  ∀ k, l.phase.marker? = some k → (as.filterMap Access.marker?).getLast? = some k

section
variable {id : UInt32} {as : List Access} {a : Access} {l l' : Life}

/-- A step puts a marker for the slot's call on the queue, or no marker. -/
theorem marker_step (hs : l.step id a = some l') :
    (∃ k, a = .enqueue k 0 ∧ l'.phase = .queued k) ∨
      a.marker? = none ∧ ∀ k, l'.phase.marker? = some k → l.phase.marker? = some k := by
  -- Only an enqueue that the backend takes puts a marker on the queue.
  cases Life.step_cases hs with
  | @enqueue k => exact Or.inl ⟨k, rfl, rfl⟩
  | refuse hphase hrc =>
      refine Or.inr ⟨if_neg hrc, fun i hi => ?_⟩
      cases hi
  | reserve hphase | number hphase | fill hphase | submit hphase | publish hphase | acquire hphase
  | load hphase | query hphase | observe hphase | withdraw hphase | confirm hphase | giveUp hphase
  | release hphase =>
      right
      simp [hphase, Access.marker?, Phase.marker?]

/-- The accesses of a life are marked. -/
theorem marked_lived (h : Lived id as l) : Marked as l := by
  refine Run.history Marked (fun k hk => by cases hk) ?_ h
  intro as t a t' ht hs k hk
  rw [List.filterMap_append]
  rcases marker_step hs with ⟨j, rfl, hphase⟩ | ⟨hnone, hkeep⟩
  · rw [hphase] at hk
    obtain rfl := Option.some.inj hk
    exact List.getLast?_concat
  · rw [List.filterMap_cons_none hnone, List.filterMap_nil, List.append_nil]
    exact ht k (hkeep k hk)

/-- A slot that is queried has the stamp of its last submission, and the marker of its call
is the latest one of its event. -/
theorem querying_submission (h : Lived id as l) {k : Nat} (hphase : l.phase = .querying k) :
    (as.filterMap Access.marker?).getLast? = some k ∧ .submitted k (l.stamp id) ∈ as := by
  refine ⟨marked_lived h k (by rw [hphase]; rfl), ?_⟩
  obtain ⟨pre, x, post, rfl, hx, -⟩ :=
    exists_last ((traced_lived h).submission k (by rw [hphase]; rfl))
  cases x with
  | submitted j stamp =>
      obtain ⟨rfl, rfl⟩ := Prod.mk.inj (Option.some.inj hx)
      exact List.mem_append_right _ List.mem_cons_self
  | _ => cases hx

end

/-! ### How a poll comes to confirm -/

section
variable {s s' : State} {a : Action} {p : Place} {gen : UInt64}

/-- An entry that is no access adds none. -/
theorem accesses_other {t : List Entry} {e : Entry} (he : ∀ p x, e ≠ .access p x) (p : Place) :
    accessesAt (t ++ [e]) p = accessesAt t p := by
  cases e with
  | access q x => exact absurd rfl (he q x)
  | poolFull | host | polled => simp [accessesAt]

/-- An access elsewhere adds none here. -/
theorem accesses_access_of_ne {q : Place} (h : q ≠ p) (slot : Slot) (x : Access) :
    (s.access q slot x).accesses p = s.accesses p := by
  rw [State.accesses_access, if_neg h]

/-- A step of a submit call is not at the slot that the poll call holds. -/
theorem Coherent.accesses_advance (h : Coherent s) {k : Nat} {rc : Int}
    (hs : s.advance k rc = some s') {call : PollCall} (hcall : s.poll = some call)
    (hp : call.place = some p) : s'.accesses p = s.accesses p := by
  cases State.advance_cases hs with
  -- A slot that is free is not the one being polled.
  | @reserve _ _ c start n slot hk hpc hslot hfree =>
      have hne : s.candidate c start n ≠ p := by
        intro heq
        refine h.not_queried ⟨slot, hslot, hfree⟩ (by decide) hcall ?_
        rw [hp, heq]
      exact accesses_access_of_ne hne { slot with state := .reserved } _
  | skip => rfl
  | full => exact accesses_other (by simp) p
  -- The slot of a submit call is not the one being polled.
  | @hold _ _ c q slot slot' x _ hk hq =>
      have hne : q ≠ p := by
        rintro rfl
        exact h.not_queried (h.held k c q hk hq) (by decide) hcall hp
      exact accesses_access_of_ne hne slot' x

/-- A poll call confirms after the answer 1 for the event. -/
theorem PollCall.hold_confirm {id : UInt32} {call call' : PollCall} {slot slot' : Slot} {rc : Int}
    {x : Option Access} (hhold : call.hold id slot rc = some (slot', x, call'))
    (hpc : call'.pc = .confirm p gen) : call.pc = .query p gen ∧ rc = 1 ∧ x = some (.query 1) := by
  cases hold_cases hhold with
  | ready hquery =>
      obtain ⟨rfl, rfl⟩ := PollPc.confirm.inj hpc
      exact ⟨hquery, rfl, rfl⟩
  | load | unready | confirm | release | observe | again | withdraw => cases hpc

/-- A poll call that is about to confirm was so before, or has just got the answer 1. -/
theorem ask_step (h : Coherent s) (hs : s.step a = some s') {call' : PollCall}
    (hcall' : s'.poll = some call') (hpc : call'.pc = .confirm p gen) :
    (s.poll = some call' ∧ s'.accesses p = s.accesses p) ∨
      ∃ call, a = .advancePoll 1 ∧ s.poll = some call ∧ call.pc = .query p gen ∧
        s'.trace = s.trace ++ [.access p (.query 1)] := by
  have hp' : call'.place = some p := by rw [PollCall.place, hpc]
  cases State.step_cases hs with
  | refused | submit => exact Or.inl ⟨hcall', rfl⟩
  | reserve | skip | full | hold => exact Or.inl ⟨hcall', h.accesses_advance hs hcall' hp'⟩
  | pollRefused | host => exact Or.inl ⟨hcall', accesses_other (by simp) p⟩
  | poll | acquire | pass =>
      -- The call that goes on is not about to confirm.
      obtain rfl := Option.some.inj hcall'
      cases hpc
  | finish => cases hcall'
  | @pollHold _ call _ q _ _ _ x hcall hq _ _ hhold =>
      obtain rfl := Option.some.inj hcall'
      obtain ⟨hquery, rfl, hx⟩ := PollCall.hold_confirm hhold hpc
      obtain rfl := Option.some.inj hx
      rw [PollCall.place, hquery] at hq
      obtain rfl := Option.some.inj hq
      exact Or.inr ⟨call, rfl, hcall, hquery, rfl⟩
  | pollQuiet _ _ _ _ hhold =>
      obtain rfl := Option.some.inj hcall'
      cases (PollCall.hold_confirm hhold hpc).2.2

/-- A confirmation that a step records is that of the poll call at its slot. -/
theorem confirm_step (hs : s.step a = some s') {stamp : Stamp}
    (hmem : .confirmed stamp ∈ s'.accesses p) :
    .confirmed stamp ∈ s.accesses p ∨
      ∃ call gen slot id, s.poll = some call ∧ call.pc = .confirm p gen ∧
        s.manager.slot? p = some slot ∧ s.manager.streamId? p.stream = some id ∧
        stamp = PollCall.stamp id slot gen := by
  have hentry := mem_accesses.mp hmem
  -- An entry of another kind is no confirmation.
  have hold : ∀ {es : List Entry}, s'.trace = s.trace ++ es → .access p (.confirmed stamp) ∉ es →
      .confirmed stamp ∈ s.accesses p := by
    intro es htrace hes
    rw [htrace] at hentry
    exact mem_accesses.mpr ((List.mem_append.mp hentry).resolve_right hes)
  cases State.step_cases hs with
  | refused | submit | skip | poll | pass | pollQuiet => exact Or.inl hmem
  | reserve | full | pollRefused | acquire | finish | host => exact Or.inl (hold rfl (by simp))
  | @hold _ _ _ _ _ _ _ _ _ _ _ hhold =>
      refine Or.inl (hold rfl fun hx => ?_)
      obtain ⟨-, rfl⟩ := Entry.access.inj (List.mem_singleton.mp hx)
      obtain ⟨-, hnone⟩ := SubmitCall.hold_quiet hhold p
      cases hnone
  -- Only the poll call confirms, at the slot it is at.
  | @pollHold _ call _ q id slot _ x hcall hq hslot hid hhold =>
      by_cases hx : Entry.access p (.confirmed stamp) ∈ [Entry.access q x]
      · obtain ⟨rfl, rfl⟩ := Entry.access.inj (List.mem_singleton.mp hx)
        cases PollCall.hold_cases hhold with
        | @confirm p' g _ hpc =>
            rw [PollCall.place, hpc] at hq
            obtain rfl := Option.some.inj hq
            exact Or.inr ⟨call, g, slot, id, hcall, hpc, hslot, hid, rfl⟩
      · exact Or.inl (hold rfl hx)

end

/-! ### The markers that are complete -/

/-- The step of the pool, if it is one, keeps the submit calls of a stream apart. -/
def Rig.NotOverlapping (r : Rig) : RigAction → Prop
  | .pool a     => r.pool.NotOverlapping a
  | .complete _ => True

instance (r : Rig) : (a : RigAction) → Decidable (r.NotOverlapping a)
  | .pool a     => inferInstanceAs (Decidable (r.pool.NotOverlapping a))
  | .complete _ => inferInstanceAs (Decidable True)

section
variable {r r' : Rig} {i j k m n : Nat}

/-- The device goes on, and the queues get longer. -/
structure Rig.Grows (r r' : Rig) : Prop where
  trace : ∃ es, r'.pool.trace = r.pool.trace ++ es
  completed : ∀ i, r.completed i ≤ r'.completed i

/-- A marker that is complete stays so. -/
theorem Rig.Grows.complete (h : Rig.Grows r r') (hk : k ∈ r.complete i) : k ∈ r'.complete i := by
  obtain ⟨es, htrace⟩ := h.trace
  rw [Rig.complete, htrace, enqueued, callsWith_append]
  have hlong : (enqueued r.pool.trace i).take (r.completed i)
      <+: enqueued r.pool.trace i ++ callsWith Access.isEnqueued es i :=
    (List.take_prefix _ _).trans (List.prefix_append _ _)
  have hshort : (enqueued r.pool.trace i).take (r.completed i)
      <+: (enqueued r.pool.trace i ++ callsWith Access.isEnqueued es i).take (r'.completed i) := by
    refine List.prefix_take_iff.mpr ⟨hlong, ?_⟩
    exact (List.length_take_le _ _).trans (h.completed i)
  exact hshort.subset hk

/-- What was done at a place stays on record. -/
theorem Rig.Grows.accesses (h : Rig.Grows r r') {p : Place} {x : Access}
    (hx : x ∈ r.pool.accesses p) : x ∈ r'.pool.accesses p := by
  obtain ⟨es, htrace⟩ := h.trace
  rw [mem_accesses] at hx ⊢
  rw [htrace]
  exact List.mem_append_left _ hx

/-- A step of a rig is an honest step of the pool, or one of the device. -/
theorem Rig.step_cases {a : RigAction} (hs : r.step a = some r') :
    Rig.Grows r r' ∧
      match a with
      | .pool x => r.honest x = true ∧ r.pool.step x = some r'.pool
      | .complete _ => r'.pool = r.pool := by
  cases a with
  | pool x =>
      simp only [Rig.step] at hs
      split at hs
      · rename_i hhonest
        obtain ⟨s, hstep, rfl⟩ := Option.map_eq_some_iff.mp hs
        exact ⟨⟨State.trace_grows hstep, fun _ => Nat.le_refl _⟩, hhonest, hstep⟩
      · cases hs
  -- The device completes the next marker of one queue.
  | complete i =>
      simp only [Rig.step] at hs
      split at hs
      · obtain rfl := Option.some.inj hs
        refine ⟨⟨⟨[], (List.append_nil _).symm⟩, fun j => ?_⟩, rfl⟩
        show r.completed j ≤ Function.update r.completed i (r.completed i + 1) j
        by_cases hj : j = i
        · subst hj
          rw [Function.update_self]
          exact Nat.le_succ _
        · rw [Function.update_of_ne hj]
      · cases hs

/-- A poll that is about to confirm has an event whose latest marker is complete, and what
is confirmed is a submission whose marker is complete. -/
structure Rig.Sound (r : Rig) : Prop where
  inv : Inv r.pool
  coherent : Coherent r.pool
  ordered : Ordered r.pool
  alone : r.pool.Alone
  distinct : r.pool.manager.Distinct
  answered : ∀ call p gen, r.pool.poll = some call → call.pc = .confirm p gen →
    ∃ k, lastMarker r.pool.trace p = some k ∧ k ∈ r.complete p.stream
  confirmed : ∀ p stamp, .confirmed stamp ∈ r.pool.accesses p →
    ∃ k, .submitted k stamp ∈ r.pool.accesses p ∧ k ∈ r.complete p.stream

/-- The slot that the poll call is about to confirm or to query has a submission, and its
marker is the latest one of the event. -/
theorem Inv.polled_submission {s : State} (h : Inv s) {call : PollCall} {p : Place} {gen : UInt64}
    (hcall : s.poll = some call) (hpc : call.pc = .confirm p gen ∨ call.pc = .query p gen) :
    ∃ k id slot, s.manager.slot? p = some slot ∧ s.manager.streamId? p.stream = some id ∧
      lastMarker s.trace p = some k ∧ .submitted k (PollCall.stamp id slot gen) ∈ s.accesses p := by
  have hp : call.place = some p := by
    rcases hpc with hpc | hpc <;> rw [PollCall.place, hpc]
  obtain ⟨id, slot, l, hl, hholds⟩ := h.poll call p hcall hp
  -- The life of the slot is in the phase of a query.
  obtain ⟨⟨k, hphase⟩, hgen⟩ : (∃ k, l.phase = .querying k) ∧ gen = UInt64.ofNat l.generation := by
    unfold PollCall.Holds at hholds
    rcases hpc with hpc | hpc <;> rw [hpc] at hholds <;> exact hholds
  obtain ⟨hmarker, hsubmitted⟩ := querying_submission hl.lived hphase
  refine ⟨k, id, slot, hl.slot_eq, hl.stream_eq, hmarker, ?_⟩
  rw [hgen, ← hl.agree.generation, hl.agree.stamp]
  exact hsubmitted

/-- An honest backend has answered 1 for the event that a poll is about to confirm. -/
theorem Rig.Sound.answered_step (h : r.Sound) (hgrows : Rig.Grows r r') {a : Action}
    (hhonest : r.honest a = true) (hs : r.pool.step a = some r'.pool) {call : PollCall}
    {p : Place} {gen : UInt64} (hcall : r'.pool.poll = some call)
    (hpc : call.pc = .confirm p gen) :
    ∃ k, lastMarker r'.pool.trace p = some k ∧ k ∈ r'.complete p.stream := by
  rcases ask_step h.coherent hs hcall hpc with ⟨hold, haccesses⟩ | ⟨c, rfl, hc, hquery, htrace⟩
  · -- The answer was there before this step.
    obtain ⟨k, hmarker, hk⟩ := h.answered call p gen hold hpc
    refine ⟨k, ?_, hgrows.complete hk⟩
    rw [lastMarker, ← State.accesses, haccesses]
    exact hmarker
  · -- The answer is that of the backend, which answers 1 only for a marker it has completed.
    obtain ⟨k, id, slot, -, -, hmarker, -⟩ := h.inv.polled_submission hc (Or.inr hquery)
    have hfinished : r.finished p = true := by
      simpa [Rig.honest, hc, hquery] using hhonest
    rw [Rig.finished, hmarker] at hfinished
    refine ⟨k, ?_, hgrows.complete (of_decide_eq_true hfinished)⟩
    rw [lastMarker, htrace, accessesAt, List.filterMap_append, ← accessesAt]
    simpa [Access.marker?, lastMarker] using hmarker

/-- Every step keeps the rig sound, if no two submit calls of a stream overlap. -/
theorem Rig.Sound.step (h : r.Sound) {a : RigAction} (hs : r.step a = some r')
    (hnot : r.NotOverlapping a) : r'.Sound := by
  obtain ⟨hgrows, hs⟩ := Rig.step_cases hs
  cases a with
  | pool x =>
      obtain ⟨hhonest, hstep⟩ := hs
      refine ⟨inv_step h.inv x hstep, coherent_step h.coherent x hstep,
        h.ordered.step hstep (h.alone.notOvertaking h.ordered x), h.alone.step h.inv hstep hnot,
        distinct_step h.distinct x hstep, ?_, ?_⟩
      · intro call p gen hcall hpc
        exact h.answered_step hgrows hhonest hstep hcall hpc
      · intro p stamp hmem
        -- The confirmation is an older one, or it comes now.
        rcases confirm_step hstep hmem with hold |
          ⟨call, gen, slot, id, hcall, hpc, hslot, hid, rfl⟩
        · obtain ⟨k, hsubmitted, hk⟩ := h.confirmed p stamp hold
          exact ⟨k, hgrows.accesses hsubmitted, hgrows.complete hk⟩
        · -- The submission of the slot is the one whose marker the backend has answered for.
          obtain ⟨k, hmarker, hk⟩ := h.answered call p gen hcall hpc
          obtain ⟨k', id', slot', hslot', hid', hmarker', hsubmitted⟩ :=
            h.inv.polled_submission hcall (Or.inl hpc)
          obtain rfl := Option.some.inj (hmarker.symm.trans hmarker')
          obtain rfl := Option.some.inj (hslot.symm.trans hslot')
          obtain rfl := Option.some.inj (hid.symm.trans hid')
          exact ⟨k, hgrows.accesses hsubmitted, hgrows.complete hk⟩
  -- The pool stays, and what was complete is complete.
  | complete i =>
      have hpool : r'.pool = r.pool := hs
      refine ⟨hpool ▸ h.inv, hpool ▸ h.coherent, hpool ▸ h.ordered, hpool ▸ h.alone,
        hpool ▸ h.distinct, ?_, ?_⟩
      · intro call p gen hcall hpc
        rw [hpool] at hcall ⊢
        obtain ⟨k, hmarker, hk⟩ := h.answered call p gen hcall hpc
        exact ⟨k, hmarker, hgrows.complete hk⟩
      · intro p stamp hmem
        rw [hpool] at hmem ⊢
        obtain ⟨k, hsubmitted, hk⟩ := h.confirmed p stamp hmem
        exact ⟨k, hsubmitted, hgrows.complete hk⟩

/-- **Confirmations are sound**, whenever submit calls of one stream do not overlap. -/
theorem sound_run {m : Manager} (hm : m.Made) {as : List RigAction}
    (h : Run Rig.step (Rig.start m) as r)
    (halong : Run.Along Rig.step (fun t a _ => t.NotOverlapping a) (Rig.start m) as) : r.Sound := by
  refine Run.invariant_along Rig.Sound (fun t a t' ht hs hnot => ht.step hs hnot) halong h ?_
  refine ⟨inv_start hm.fresh, coherent_start m, ordered_start m, alone_start m, hm.distinct, ?_, ?_⟩
  · intro call p gen hcall
    cases hcall
  · intro p stamp hmem
    cases hmem

/-- The markers before a complete one are complete, and the records have the order of the
markers. So a submission recorded before one whose marker is complete has a complete marker
too. -/
theorem Rig.Sound.earlier (h : r.Sound) (hk : k ∈ r.complete i)
    (hj : SubmittedAt r.pool.trace i j m) (hn : SubmittedAt r.pool.trace i k n) (hle : m ≤ n) :
    j ∈ r.complete i := by
  have henqueued : j ∈ enqueued r.pool.trace i :=
    h.ordered.told.enqueued_of_reported (mem_reported_iff.mpr ⟨m, hj⟩)
  rw [← List.take_append_drop (r.completed i) (enqueued r.pool.trace i)] at henqueued
  rcases List.mem_append.mp henqueued with htake | hdrop
  · exact htake
  · -- Otherwise `k` is before `j` on the queue.
    have hpair : [k, j].Sublist (enqueued r.pool.trace i) := by
      rw [← List.take_append_drop (r.completed i) (enqueued r.pool.trace i)]
      exact (List.singleton_sublist.mpr hk).append (List.singleton_sublist.mpr hdrop)
    have hlt := h.ordered.inOrder i k j hpair n m hn hj
    omega

end

end HangAnalyzer.Checkpoint
