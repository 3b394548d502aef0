import HangAnalyzer.Proofs.Checkpoint.Coherent
import HangAnalyzer.Proofs.Checkpoint.Scan

/-!
# `HangAnalyzer.Proofs.Checkpoint.Fairness`: polling starves no checkpoint

A poll call stops after `budget` queries, and the next one starts `budget` positions
further. It passes over slots that are not pending, so it looks at no fewer than its first
`budget` positions: the calls of one round look at every position between them.

`Scanned` is the invariant of one call and `Covered` that of one place during the call.
`call_spec` collects what a call has done when it returns, and `polls_spec` goes through any
number of them.
-/

set_option autoImplicit false

namespace HangAnalyzer.Checkpoint

open HangAnalyzer.Lib

/-! ### The calls -/

/-- From `s` to `t` the scanning poll calls are `calls`, each with the same budget. A call is
given by the value of `poll_cursor` at its start and by the trace from its start to its
return; submit calls go on meanwhile. Between two calls anything happens but a scan. -/
inductive Polls (budget : UInt32) : State → List (UInt64 × List Entry) → State → Prop where
  | nil (s : State) : Polls budget s [] s
  | other {s s' t : State} {a : Action} {calls : List (UInt64 × List Entry)}
      (step : s.step a = some s') (idle : s'.poll = none) (rest : Polls budget s' calls t) :
      Polls budget s calls t
  | call {s s₁ s₂ s₃ t : State} {mid : List Action} {rc : Int}
      {calls : List (UInt64 × List Entry)} (start : s.step (.poll budget) = some s₁)
      (scans : s₁.poll.isSome) (run : Run State.step s₁ mid s₂)
      (during : Run.Along State.step (fun _ _ u => u.poll.isSome) s₁ mid)
      (ret : s₂.step (.advancePoll rc) = some s₃) (idle : s₃.poll = none)
      (rest : Polls budget s₃ calls t) :
      Polls budget s ((s.manager.pollCursor, s₃.trace.drop s.trace.length) :: calls) t

/-- The place at an offset of a scan. -/
def Manager.placeAt (m : Manager) (start : UInt64) (offset : Nat) : Place :=
  m.placeOf ((start + UInt64.ofNat offset).toNat % m.total)

/-- The positions of the poll order lead to the same places. -/
theorem SameSlots.placeAt {m m' : Manager} (h : SameSlots m m') (start : UInt64)
    (offset : Nat) : m'.placeAt start offset = m.placeAt start offset := by
  rw [Manager.placeAt, Manager.placeOf, h.total, h.slotsPerStream, ← Manager.placeOf,
    ← Manager.placeAt]

namespace PollPc

/-- The call holds a slot: it has taken it and not given it back. -/
def holding : PollPc → Nat
  | .scan => 0
  | _     => 1

/-- The call has taken a slot and not asked the backend yet. -/
def asking : PollPc → Nat
  | .load _ | .query _ _ => 1
  | _                    => 0

/-- The call has confirmed a checkpoint and not counted it yet. -/
def confirming : PollPc → Nat
  | .release _ => 1
  | _          => 0

/-- A call holds at most one slot. -/
theorem holding_le (pc : PollPc) : pc.holding ≤ 1 := by
  unfold holding
  split
  · exact Nat.zero_le _
  · exact Nat.le_refl 1

/-- A call asks only for the slot that it holds. -/
theorem asking_le (pc : PollPc) : pc.asking ≤ pc.holding := by
  unfold asking
  split
  · exact Nat.le_refl 1
  · exact Nat.le_refl 1
  · exact Nat.zero_le _

end PollPc

/-! ### The steps of a poll call -/

section
variable {s s' : State} {rc : Int} {call : PollCall}

/-- The step of a call that holds no slot: it takes the next slot, passes over it, or
returns. -/
theorem advancePoll_scan (hcall : s.poll = some call) (hpc : call.pc = .scan)
    (hs : s.advancePoll rc = some s') :
    (∃ slot, call.offset < s.manager.total ∧ call.checked < call.budget.toNat ∧
        s.manager.slot? (s.target call) = some slot ∧ slot.state = .pending ∧
        s' = (s.access (s.target call) { slot with state := .querying } .acquire).setPoll
          (some { call with checked := call.checked + 1, pc := .load (s.target call) })) ∨
      (call.offset < s.manager.total ∧ ¬ s.At (s.target call) .pending ∧
        s' = s.setPoll (some call.next)) ∨
      (¬ (call.offset < s.manager.total ∧ call.checked < call.budget.toNat) ∧
        s' = { s with
          manager := { s.manager with polling := false }
          poll := none
          trace := s.trace ++ [.polled call.completed] }) := by
  simp only [State.advancePoll, hcall, Option.bind_some, hpc] at hs
  -- The scan looks at the next slot or ends.
  split at hs
  · rename_i hgo
    obtain ⟨slot, hslot, hs⟩ := Option.map_eq_some_iff.mp hs
    split at hs
    · rename_i hpending
      exact .inl ⟨slot, hgo.1, hgo.2, hslot, hpending, hs.symm⟩
    · rename_i hpending
      refine .inr (.inl ⟨hgo.1, fun hat => hpending ?_, hs.symm⟩)
      exact State.At.unique ⟨slot, hslot, rfl⟩ hat
  · rename_i hstop
    exact .inr (.inr ⟨hstop, (Option.some.inj hs).symm⟩)

/-- A call that holds the slot at `p` makes a step with the entries `es`. Its counters keep
their balance with the queries and the confirmations of the trace. -/
structure Progress (call call' : PollCall) (p : Place) (es : List Entry) : Prop where
  start : call'.start = call.start
  budget : call'.budget = call.budget
  checked : call'.checked = call.checked
  asking : call.pc.asking = (queries es).length + call'.pc.asking
  asked : queries es = [] ∨ queries es = [p]
  completed : call.completed + call.pc.confirming + confirmations es
    = call'.completed + call'.pc.confirming
  offset : call'.offset + call'.pc.holding = call.offset + 1
  place : call'.pc.holding = 1 → call'.place = some p

/-- Each step at a slot is progress of the call. -/
theorem hold_progress {id : UInt32} {call' : PollCall} {slot slot' : Slot} {a : Option Access}
    {p : Place} (hp : call.place = some p) (h : call.hold id slot rc = some (slot', a, call')) :
    Progress call call' p (a.toList.map (Entry.access p)) := by
  cases PollCall.hold_cases h with
  | load hpc | confirm hpc | observe hpc | again hpc =>
      rw [PollCall.place, hpc] at hp
      obtain rfl := Option.some.inj hp
      exact ⟨rfl, rfl, rfl, by rw [hpc]; rfl, .inl rfl, by rw [hpc]; rfl, rfl, fun _ => rfl⟩
  | ready hpc | unready hpc =>
      rw [PollCall.place, hpc] at hp
      obtain rfl := Option.some.inj hp
      exact ⟨rfl, rfl, rfl, by rw [hpc]; rfl, .inr rfl, by rw [hpc]; rfl, rfl, fun _ => rfl⟩
  | release hpc | withdraw hpc =>
      exact ⟨rfl, rfl, rfl, by rw [hpc]; rfl, .inl rfl, by rw [hpc]; rfl, rfl,
        fun hscan => by cases hscan⟩

/-- The step of a call that holds a slot. -/
theorem advancePoll_hold (hcall : s.poll = some call) (hpc : call.pc ≠ .scan)
    (hs : s.advancePoll rc = some s') :
    ∃ p call' es, call.place = some p ∧ s'.poll = some call' ∧ s'.trace = s.trace ++ es ∧
      s'.manager.pollCursor = s.manager.pollCursor ∧
      (∀ q, q ≠ p → s.At q .pending → s'.At q .pending) ∧ Progress call call' p es := by
  cases State.advancePoll_cases hs with
  | acquire hcall' hscan | pass hcall' hscan | finish hcall' hscan =>
      obtain rfl := Option.some.inj (hcall.symm.trans hcall')
      exact absurd hscan hpc
  | @pollHold _ _ call' p _ _ slot' x hcall' hp _ _ hhold =>
      obtain rfl := Option.some.inj (hcall.symm.trans hcall')
      exact ⟨p, call', _, hp, rfl, rfl, rfl,
        fun q hq hat => (State.at_access_of_ne hq slot' x).mpr hat, hold_progress hp hhold⟩
  | @pollQuiet _ _ call' p _ _ _ hcall' hp _ _ hhold =>
      obtain rfl := Option.some.inj (hcall.symm.trans hcall')
      exact ⟨p, call', [], hp, rfl, (List.append_nil _).symm, rfl, fun q _ hat => hat,
        hold_progress hp hhold⟩

end

/-! ### One call -/

/-- What a call has done since its start, when `poll_cursor` was `cursor` and the trace was `n`
entries long. The offsets of its queries are `os`. -/
structure Scanned (m : Manager) (cursor : UInt64) (b : UInt32) (n : Nat) (s : State)
    (call : PollCall) (os : List Nat) : Prop where
  poll : s.poll = some call
  start : call.start = cursor
  budget : call.budget = b
  trace : n ≤ s.trace.length
  asked : queries (s.trace.drop n) = os.map (m.placeAt cursor)
  sorted : os.Pairwise (· < ·)
  behind : ∀ o ∈ os, o + call.pc.asking < call.offset + call.pc.holding
  checked : os.length + call.pc.asking = call.checked
  offset : call.checked ≤ call.offset + call.pc.holding
  within : call.checked ≤ b.toNat
  total : call.offset + call.pc.holding ≤ m.total
  confirmed : confirmations (s.trace.drop n) = call.completed + call.pc.confirming
  place : ∀ p, call.place = some p → p = m.placeAt cursor call.offset

section
variable {m : Manager} {cursor : UInt64} {b : UInt32} {n : Nat} {s s' : State}
  {call : PollCall} {os : List Nat} {rc : Int}

/-- What is added at the end is added behind the part that was dropped. -/
theorem drop_concat {α : Type} {l l' es : List α} (h : l' = l ++ es) (hn : n ≤ l.length) :
    l'.drop n = l.drop n ++ es := by
  rw [h, List.drop_append_of_le_length hn]

/-- A step that the call does not notice. -/
theorem Scanned.quiet (h : Scanned m cursor b n s call os) (hq : Quiet s s') :
    Scanned m cursor b n s' call os := by
  obtain ⟨es, htrace, hqueries, hconfirmations⟩ := hq.trace
  refine { h with poll := hq.poll.trans h.poll, trace := ?_, asked := ?_, confirmed := ?_ }
  · rw [htrace, List.length_append]
    exact h.trace.trans (Nat.le_add_right _ _)
  · rw [drop_concat htrace h.trace, queries_append, hqueries, List.append_nil, h.asked]
  · rw [drop_concat htrace h.trace, confirmations_append, hconfirmations, Nat.add_zero,
      h.confirmed]

/-- The call looks at the place of its offset. -/
theorem Scanned.target (h : Scanned m cursor b n s call os) (hm : SameSlots m s.manager) :
    s.target call = m.placeAt cursor call.offset := by
  rw [← hm.placeAt, ← h.start]
  rfl

/-- The call takes the next slot. -/
theorem Scanned.take (h : Scanned m cursor b n s call os) (hm : SameSlots m s.manager)
    (hpc : call.pc = .scan) (hoffset : call.offset < m.total)
    (hchecked : call.checked < call.budget.toNat) (slot : Slot) :
    Scanned m cursor b n ((s.access (s.target call) slot .acquire).setPoll
      (some { call with checked := call.checked + 1, pc := .load (s.target call) }))
      { call with checked := call.checked + 1, pc := .load (s.target call) } os := by
  have hbehind := h.behind
  have hcount := h.checked
  have hle := h.offset
  have hconf := h.confirmed
  rw [hpc] at hbehind hcount hle hconf
  -- The access that takes the slot asks no query and confirms nothing.
  have htrace : (s.access (s.target call) slot .acquire).trace
      = s.trace ++ [.access (s.target call) .acquire] := rfl
  rw [h.budget] at hchecked
  refine ⟨rfl, h.start, h.budget, ?_, ?_, h.sorted, ?_, ?_, ?_, hchecked, hoffset, ?_, ?_⟩
  · show n ≤ (s.access (s.target call) slot .acquire).trace.length
    rw [htrace, List.length_append]
    exact h.trace.trans (Nat.le_add_right _ _)
  · show queries ((s.access (s.target call) slot .acquire).trace.drop n) = _
    rw [drop_concat htrace h.trace, queries_append, h.asked]
    exact List.append_nil _
  · exact fun o ho => Nat.succ_lt_succ (hbehind o ho)
  · exact congrArg (· + 1) hcount
  · exact Nat.succ_le_succ hle
  · show confirmations
      ((s.access (s.target call) slot .acquire).trace.drop n) = _
    rw [drop_concat htrace h.trace, confirmations_append, hconf]
    rfl
  · -- The call holds the slot at its offset.
    intro p hp
    obtain rfl := Option.some.inj hp
    exact h.target hm

/-- The call passes over a slot. -/
theorem Scanned.pass (h : Scanned m cursor b n s call os) (hpc : call.pc = .scan)
    (hoffset : call.offset < m.total) :
    Scanned m cursor b n (s.setPoll (some call.next)) call.next os := by
  have hbehind := h.behind
  have hcount := h.checked
  have hle := h.offset
  have hconf := h.confirmed
  rw [hpc] at hbehind hcount hle hconf
  refine ⟨rfl, h.start, h.budget, h.trace, h.asked, h.sorted, ?_, hcount,
    hle.trans (Nat.le_add_right _ _), h.within, hoffset, hconf, fun p hp => by cases hp⟩
  exact fun o ho => (hbehind o ho).trans (Nat.lt_succ_self _)

/-- A call with a place holds a slot. -/
theorem PollCall.holding_of_place {p : Place} (h : call.place = some p) : call.pc.holding = 1 := by
  unfold PollCall.place at h
  split at h
  · cases h
  all_goals
    rename_i hpc
    rw [hpc]
    rfl

/-- The call makes a step at the slot it holds. -/
theorem Scanned.hold (h : Scanned m cursor b n s call os) {p : Place} {call' : PollCall}
    {es : List Entry} (hp : call.place = some p) (hpoll : s'.poll = some call')
    (htrace : s'.trace = s.trace ++ es) (hprogress : Progress call call' p es) :
    ∃ os', Scanned m cursor b n s' call' os' := by
  have hholding := PollCall.holding_of_place hp
  have hbehind := h.behind
  have hcount := h.checked
  have hle := h.offset
  have htotal := h.total
  have hasking := hprogress.asking
  have hcompleted := hprogress.completed
  have hoffset := hprogress.offset
  rw [hholding] at hbehind hle htotal
  have hlen : n ≤ s'.trace.length := by
    rw [htrace, List.length_append]
    exact h.trace.trans (Nat.le_add_right _ _)
  -- The slot that the call holds stays that of its offset.
  have hplace (q : Place) (hq : call'.place = some q) : q = m.placeAt cursor call'.offset := by
    have hholding' := PollCall.holding_of_place hq
    rw [hprogress.place hholding'] at hq
    rw [hholding'] at hoffset
    rw [← Option.some.inj hq, Nat.add_right_cancel hoffset]
    exact h.place p hp
  have hconfirmed : confirmations (s'.trace.drop n) = call'.completed + call'.pc.confirming := by
    rw [drop_concat htrace h.trace, confirmations_append, h.confirmed, hcompleted]
  have hasked : queries (s'.trace.drop n) = os.map (m.placeAt cursor) ++ queries es := by
    rw [drop_concat htrace h.trace, queries_append, h.asked]
  have hchecked := hprogress.checked
  -- Each step at the slot asks at most one query.
  rcases hprogress.asked with hnone | hone
  · rw [hnone, List.length_nil, Nat.zero_add] at hasking
    rw [hnone, List.append_nil] at hasked
    refine ⟨os, hpoll, hprogress.start.trans h.start, hprogress.budget.trans h.budget, hlen,
      hasked, h.sorted, fun o ho => ?_, by omega, by omega, ?_, by omega, hconfirmed, hplace⟩
    · have hlt := hbehind o ho
      omega
    · rw [hchecked]
      exact h.within
  · -- The query is the latest one, so its offset is the largest.
    rw [hone, List.length_singleton] at hasking
    rw [hone, h.place p hp] at hasked
    refine ⟨os ++ [call.offset], hpoll, hprogress.start.trans h.start,
      hprogress.budget.trans h.budget, hlen, ?_, ?_, ?_, ?_, by omega, ?_, by omega,
      hconfirmed, hplace⟩
    · rw [List.map_append]
      exact hasked
    · refine List.pairwise_append.mpr ⟨h.sorted, List.pairwise_singleton _ _, ?_⟩
      intro o ho o' ho'
      rw [List.mem_singleton] at ho'
      have hlt := hbehind o ho
      omega
    · intro o ho
      rcases List.mem_append.mp ho with ho | ho
      · have hlt := hbehind o ho
        omega
      · rw [List.mem_singleton] at ho
        have hasks := call.pc.asking_le
        omega
    · rw [List.length_append, List.length_singleton]
      omega
    · rw [hchecked]
      exact h.within

/-- The state of a call in progress: what it has done, and what it has left alone. -/
structure InCall (m : Manager) (cursor : UInt64) (b : UInt32) (n : Nat) (s : State) : Prop where
  coherent : Coherent s
  slots : SameSlots m s.manager
  advanced : s.manager.pollCursor = cursor + b.toUInt64
  scanned : ∃ call os, Scanned m cursor b n s call os

/-- The place `p`, pending at the start of the call, was queried, or still waits for its query
and lies ahead of the scan. -/
def Covered (m : Manager) (cursor : UInt64) (n : Nat) (p : Place) (s : State) : Prop :=
  p ∈ queries (s.trace.drop n) ∨
    ∃ call, s.poll = some call ∧
      (s.At p .pending ∨ call.place = some p ∧ call.pc.asking = 1) ∧
      ∀ o < call.offset, m.placeAt cursor o ≠ p

/-- Every step of a call in progress, by whomever it is made, keeps `InCall`. -/
theorem InCall.step (h : InCall m cursor b n s) (a : Action) (hs : s.step a = some s')
    (hgo : s'.poll.isSome) : InCall m cursor b n s' := by
  obtain ⟨call, os, hscanned⟩ := h.scanned
  have hcoherent := coherent_step h.coherent a hs
  have hslots := h.slots.trans (sameSlots_step a hs)
  -- The step is one of the poll call, the start of another one, or of a submit call.
  rcases quiet_step h.coherent a hs with ⟨rc, rfl⟩ | ⟨budget, rfl, hnone, -⟩ | hquiet
  · by_cases hpc : call.pc = .scan
    · rcases advancePoll_scan hscanned.poll hpc hs with
        ⟨slot, hoffset, hchecked, hslot, hpending, rfl⟩ | ⟨hoffset, hnot, rfl⟩ | ⟨-, rfl⟩
      · rw [h.slots.total] at hoffset
        exact ⟨hcoherent, hslots, h.advanced, _, _,
          hscanned.take h.slots hpc hoffset hchecked _⟩
      · rw [h.slots.total] at hoffset
        -- The call has returned.
        exact ⟨hcoherent, hslots, h.advanced, _, _, hscanned.pass hpc hoffset⟩
      · cases hgo
    · obtain ⟨p, call', es, hp, hpoll, htrace, hcursor, -, hprogress⟩ :=
        advancePoll_hold hscanned.poll hpc hs
      exact ⟨hcoherent, hslots, hcursor.trans h.advanced, call',
        hscanned.hold hp hpoll htrace hprogress⟩
  · -- There is one poll call at a time.
    rw [hscanned.poll] at hnone
    cases hnone
  · exact ⟨hcoherent, hslots, hquiet.cursor.trans h.advanced, call, os, hscanned.quiet hquiet⟩

/-- The call makes a step at the slot it holds. The place is the one of this slot, and its query
is the step or comes next, or it waits ahead of the scan. -/
theorem Covered.hold (hin : InCall m cursor b n s) {call call' : PollCall} {os : List Nat}
    (hscanned : Scanned m cursor b n s call os) {p q : Place} {es : List Entry}
    (hq : call.place = some q) (hpoll : s'.poll = some call') (htrace : s'.trace = s.trace ++ es)
    (hpending : ∀ p, p ≠ q → s.At p .pending → s'.At p .pending)
    (hprogress : Progress call call' q es)
    (hwaits : s.At p .pending ∨ call.place = some p ∧ call.pc.asking = 1)
    (hahead : ∀ o < call.offset, m.placeAt cursor o ≠ p) : Covered m cursor n p s' := by
  have hasking := hprogress.asking
  have hoffset := hprogress.offset
  by_cases hp : p = q
  · subst hp
    -- The call holds the slot, which is no longer pending, and has its query ahead.
    have hnot : ¬ s.At p .pending := by
      intro hat
      cases hat.unique (hin.coherent.queried call p hscanned.poll hq)
    rw [(hwaits.resolve_left hnot).2] at hasking
    rcases hprogress.asked with hnone | hone
    · rw [hnone, List.length_nil, Nat.zero_add] at hasking
      have hasks := call'.pc.asking_le
      have hone := call'.pc.holding_le
      have hholding : call'.pc.holding = 1 := by omega
      rw [hholding] at hoffset
      refine .inr ⟨call', hpoll, .inr ⟨hprogress.place hholding, hasking.symm⟩, ?_⟩
      rw [Nat.add_right_cancel hoffset]
      exact hahead
    · refine .inl ?_
      rw [drop_concat htrace hscanned.trace, queries_append, hone]
      exact List.mem_append_right _ (List.mem_singleton_self p)
  · have hat : s.At p .pending := by
      refine hwaits.resolve_right fun hplace => hp ?_
      exact Option.some.inj (hplace.1.symm.trans hq)
    refine .inr ⟨call', hpoll, .inl (hpending p hp hat), fun o ho => ?_⟩
    rcases Nat.lt_or_eq_of_le (show o ≤ call.offset by omega) with ho | rfl
    · exact hahead o ho
    · rw [← hscanned.place q hq]
      exact Ne.symm hp

/-- The call scans on. The place is that of the next slot, which is taken if it is pending, or
it lies further ahead. -/
theorem Covered.scan (hin : InCall m cursor b n s) {call : PollCall} {os : List Nat}
    (hscanned : Scanned m cursor b n s call os) {p : Place} (hpc : call.pc = .scan)
    (hs : s.advancePoll rc = some s') (hgo : s'.poll.isSome) (hat : s.At p .pending)
    (hahead : ∀ o < call.offset, m.placeAt cursor o ≠ p) : Covered m cursor n p s' := by
  rcases advancePoll_scan hscanned.poll hpc hs with
    ⟨slot, -, -, hslot, -, rfl⟩ | ⟨-, hnot, rfl⟩ | ⟨-, rfl⟩
  · refine .inr ⟨_, rfl, ?_, hahead⟩
    by_cases hp : p = s.target call
    · exact .inr ⟨congrArg some hp.symm, rfl⟩
    · exact .inl ((State.at_access_of_ne hp _ .acquire).mpr hat)
  · refine .inr ⟨_, rfl, .inl hat, fun o ho => ?_⟩
    rcases Nat.lt_succ_iff_lt_or_eq.mp ho with ho | rfl
    · exact hahead o ho
    · -- The slot that is passed over is not pending.
      rw [← hscanned.target hin.slots]
      rintro rfl
      exact hnot hat
  · cases hgo

/-- Every step of a call in progress keeps a place covered. -/
theorem Covered.step (hin : InCall m cursor b n s) {p : Place} (h : Covered m cursor n p s)
    (a : Action) (hs : s.step a = some s') (hgo : s'.poll.isSome) : Covered m cursor n p s' := by
  obtain ⟨call, os, hscanned⟩ := hin.scanned
  rcases h with hasked | ⟨call₀, hpoll, hwaits, hahead⟩
  · -- What is in the trace stays there.
    obtain ⟨es, htrace⟩ := State.trace_grows hs
    refine .inl ?_
    rw [drop_concat htrace hscanned.trace, queries_append]
    exact List.mem_append_left _ hasked
  · obtain rfl := Option.some.inj (hscanned.poll.symm.trans hpoll)
    -- A slot that was not asked for yet is ahead of the scan, or it is the one in hand.
    rcases quiet_step hin.coherent a hs with ⟨rc, rfl⟩ | ⟨budget, rfl, hnone, -⟩ | hquiet
    · by_cases hpc : call.pc = .scan
      · rw [PollCall.place_scan hpc] at hwaits
        -- A call that scans has no slot in hand.
        have hat := hwaits.resolve_right fun hplace => by cases hplace.1
        exact .scan hin hscanned hpc hs hgo hat hahead
      · obtain ⟨q, call', es, hq, hpoll', htrace, -, hpending, hprogress⟩ :=
          advancePoll_hold hscanned.poll hpc hs
        exact .hold hin hscanned hq hpoll' htrace hpending hprogress hwaits hahead
    · rw [hscanned.poll] at hnone
      cases hnone
    · exact .inr ⟨call, hquiet.poll.trans hpoll, hwaits.imp_left (hquiet.pending p), hahead⟩

/-- What a scanning poll call has done when it returns: `seg` is the trace since its start. -/
structure Returned (m : Manager) (cursor : UInt64) (b : UInt32) (seg : List Entry) : Prop where
  asked : ∃ os : List Nat, queries seg = os.map (m.placeAt cursor) ∧ os.Pairwise (· < ·) ∧
    (∀ o ∈ os, o < m.total) ∧ os.length ≤ b.toNat
  polled : seg.getLast? = some (.polled (confirmations seg))

/-- What a call returned with does not depend on the contents of the slots. -/
theorem Returned.of_sameSlots {m m' : Manager} {seg : List Entry}
    (h : Returned m' cursor b seg) (hm : SameSlots m m') : Returned m cursor b seg := by
  obtain ⟨os, hasked, hsorted, hlt, hlen⟩ := h.asked
  rw [hm.total] at hlt
  refine ⟨⟨os, ?_, hsorted, hlt, hlen⟩, h.polled⟩
  rw [hasked]
  exact List.map_congr_left fun o _ => hm.placeAt cursor o

/-- A call without budget does not scan. -/
theorem budget_pos (hs : s.step (.poll b) = some s') (hidle : s.poll = none)
    (hscans : s'.poll.isSome) : 0 < b.toNat := by
  obtain rfl := Option.some.inj hs
  unfold State.startPoll at hscans
  split at hscans
  · rw [hidle] at hscans
    cases hscans
  · rename_i hscan
    refine Nat.pos_of_ne_zero fun hzero => hscan (.inl ?_)
    exact UInt32.toNat_inj.mp hzero

/-- The state in which a scan starts. -/
theorem inCall_start (h : Coherent s) (hidle : s.poll = none)
    (hs : s.step (.poll b) = some s') (hscans : s'.poll.isSome) :
    InCall s.manager s.manager.pollCursor b s.trace.length s' ∧
      ∀ p, s.At p .pending → Covered s.manager s.manager.pollCursor s.trace.length p s' := by
  have hcoherent := coherent_step h _ hs
  have hslots := sameSlots_step _ hs
  obtain rfl := Option.some.inj hs
  unfold State.startPoll at hscans hcoherent hslots ⊢
  split at hscans
  · -- A call that is in progress refuses another one.
    rw [hidle] at hscans
    cases hscans
  · rename_i hscan
    rw [if_neg hscan] at hcoherent hslots ⊢
    have hnil : s.trace.drop s.trace.length = [] := List.drop_length
    refine ⟨⟨hcoherent, hslots, rfl, _, [], rfl, rfl, rfl, Nat.le_refl _, ?_, .nil, ?_, rfl,
      -- Nothing has been asked or confirmed yet, and every slot is ahead.
      Nat.le_refl 0, Nat.zero_le _, Nat.zero_le _, ?_, ?_⟩, fun p hp => ?_⟩
    · show queries (s.trace.drop _) = _
      rw [hnil]
      rfl
    · intro o ho
      cases ho
    · show confirmations (s.trace.drop _) = _
      rw [hnil]
      rfl
    · intro p hp
      cases hp
    · exact .inr ⟨_, rfl, .inl hp, fun o ho => absurd ho (Nat.not_lt_zero o)⟩

/-- The step with which a call returns. -/
theorem inCall_return (h : InCall m cursor b n s) (hs : s.step (.advancePoll rc) = some s')
    (hidle : s'.poll = none) :
    n ≤ s.trace.length ∧ s'.manager.pollCursor = cursor + b.toUInt64 ∧
      Returned m cursor b (s'.trace.drop n) ∧
      ∀ p, Covered m cursor n p s → p ∈ queries (s'.trace.drop n) ∨
        (s'.At p .pending ∧ ∀ o < min m.total b.toNat, m.placeAt cursor o ≠ p) := by
  obtain ⟨call, os, hscanned⟩ := h.scanned
  have hlen := hscanned.trace
  by_cases hpc : call.pc = .scan
  · have hbehind := hscanned.behind
    have hcount := hscanned.checked
    have hle := hscanned.offset
    have htotal := hscanned.total
    have hconf := hscanned.confirmed
    rw [hpc] at hbehind hcount hle htotal hconf
    simp only [PollPc.asking, PollPc.holding, PollPc.confirming, Nat.add_zero]
      at hbehind hcount hle htotal hconf
    rcases advancePoll_scan hscanned.poll hpc hs with
      ⟨slot, -, -, -, -, rfl⟩ | ⟨-, -, rfl⟩ | ⟨hstop, rfl⟩
    · cases hidle
    · cases hidle
    · have hdrop : (s.trace ++ [Entry.polled call.completed]).drop n
          = s.trace.drop n ++ [.polled call.completed] := drop_concat rfl hlen
      show _ ∧ s.manager.pollCursor = _ ∧ Returned m cursor b ((s.trace ++ _).drop n) ∧ _
      refine ⟨hlen, h.advanced, ⟨⟨os, ?_, hscanned.sorted, ?_, ?_⟩, ?_⟩, fun p hp => ?_⟩
      · rw [hdrop, queries_append, hscanned.asked]
        exact List.append_nil _
      · exact fun o ho => Nat.lt_of_lt_of_le (hbehind o ho) htotal
      · rw [hcount]
        exact hscanned.within
      · rw [hdrop, confirmations_append, hconf, List.getLast?_concat]
        rfl
      · rcases hp with hasked | ⟨call₀, hpoll, hwaits, hahead⟩
        · refine .inl ?_
          show p ∈ queries ((s.trace ++ _).drop n)
          rw [hdrop, queries_append]
          exact List.mem_append_left _ hasked
        · obtain rfl := Option.some.inj (hscanned.poll.symm.trans hpoll)
          rw [PollCall.place_scan hpc] at hwaits
          have hpending := hwaits.resolve_right fun hplace => by cases hplace.1
          refine .inr ⟨hpending, fun o ho => ?_⟩
          -- The scan has seen all slots, or as many as the budget.
          rw [h.slots.total, hscanned.budget] at hstop
          exact hahead o (by omega)
  · obtain ⟨p, call', es, -, hpoll, -⟩ := advancePoll_hold hscanned.poll hpc hs
    rw [hpoll] at hidle
    cases hidle

/-- **One scanning poll call**, with the steps of everybody else meanwhile. -/
theorem call_spec {s₁ s₂ s₃ : State} {mid : List Action} (hcoherent : Coherent s)
    (hidle : s.poll = none) (hstart : s.step (.poll b) = some s₁) (hscans : s₁.poll.isSome)
    (hrun : Run State.step s₁ mid s₂)
    (hduring : Run.Along State.step (fun _ _ u => u.poll.isSome) s₁ mid)
    (hret : s₂.step (.advancePoll rc) = some s₃) (hback : s₃.poll = none) :
    Coherent s₃ ∧ SameSlots s.manager s₃.manager ∧
      s₃.manager.pollCursor = s.manager.pollCursor + b.toUInt64 ∧
      Returned s.manager s.manager.pollCursor b (s₃.trace.drop s.trace.length) ∧
      ∀ p, s.At p .pending → p ∈ queries (s₃.trace.drop s.trace.length) ∨
        (s₃.At p .pending ∧ ∀ o < min s.manager.total b.toNat,
          s.manager.placeAt s.manager.pollCursor o ≠ p) := by
  -- The call is followed from its start through its steps to its return.
  obtain ⟨hin, hcovered⟩ := inCall_start hcoherent hidle hstart hscans
  have hend : InCall s.manager s.manager.pollCursor b s.trace.length s₂ :=
    Run.invariant_along _ (fun _ a _ hx hs hgo => hx.step a hs hgo) hduring hrun hin
  have hcover (p : Place) (hp : s.At p .pending) :
      Covered s.manager s.manager.pollCursor s.trace.length p s₂ := by
    have hboth := Run.invariant_along
      (fun x => InCall s.manager s.manager.pollCursor b s.trace.length x ∧
        Covered s.manager s.manager.pollCursor s.trace.length p x)
      (fun _ a _ hx hs hgo => ⟨hx.1.step a hs hgo, hx.2.step hx.1 a hs hgo⟩) hduring hrun
      ⟨hin, hcovered p hp⟩
    exact hboth.2
  obtain ⟨-, hcursor, hreturned, hlast⟩ := inCall_return hend hret hback
  exact ⟨coherent_step hend.coherent _ hret, hend.slots.trans (sameSlots_step _ hret), hcursor,
    hreturned, fun p hp => hlast p (hcover p hp)⟩

end

/-! ### Many calls -/

section
variable {m : Manager} {b : UInt32} {s t : State} {calls : List (UInt64 × List Entry)}

/-- Any number of calls: each has the facts of `Returned`, the values of the cursor are a
budget apart, and a pending place is queried by a call or lies in the window of none. -/
theorem polls_spec (hpolls : Polls b s calls t) (hcoherent : Coherent s) (hidle : s.poll = none)
    (hm : SameSlots m s.manager) :
    (∀ call ∈ calls, Returned m call.1 b call.2) ∧
      (s.manager.pollCursor.toNat + calls.length * b.toNat ≤ 2 ^ 64 →
        ∀ (j : Nat) (call : UInt64 × List Entry), calls[j]? = some call →
          call.1.toNat = s.manager.pollCursor.toNat + j * b.toNat) ∧
      ∀ p, s.At p .pending → (∃ call ∈ calls, p ∈ queries call.2) ∨
        ∀ call ∈ calls, ∀ o < min m.total b.toNat, m.placeAt call.1 o ≠ p := by
  induction hpolls with
  | nil s => simp
  | @other s s' t a calls step idle rest ih =>
      have hquiet : Quiet s s' := by
        rcases quiet_step hcoherent a step with ⟨rc, rfl⟩ | ⟨budget, -, -, hscans⟩ | hquiet
        · -- No poll call is in progress.
          cases State.advancePoll_cases step with
          | acquire hcall | pass hcall | finish hcall | pollHold hcall | pollQuiet hcall =>
              rw [hidle] at hcall
              cases hcall
        · rw [idle] at hscans
          cases hscans
        · exact hquiet
      obtain ⟨hreturned, hcursors, hcover⟩ :=
        ih (coherent_step hcoherent a step) idle (hm.trans (sameSlots_step a step))
      rw [hquiet.cursor] at hcursors
      exact ⟨hreturned, hcursors, fun p hp => hcover p (hquiet.pending p hp)⟩
  | @call s s₁ s₂ s₃ t mid rc calls start scans run during ret idle rest ih =>
      obtain ⟨hcoherent₃, hslots, hcursor, hreturned, hone⟩ :=
        call_spec hcoherent hidle start scans run during ret idle
      obtain ⟨hrest, hcursors, hcover⟩ := ih hcoherent₃ idle (hm.trans hslots)
      refine ⟨?_, ?_, fun p hp => ?_⟩
      · intro call hcall
        rcases List.mem_cons.mp hcall with rfl | hcall
        · exact hreturned.of_sameSlots hm
        · exact hrest call hcall
      · intro hfit j call hj
        rw [List.length_cons, Nat.succ_mul] at hfit
        cases j with
        | zero =>
            obtain rfl := Option.some.inj hj
            show s.manager.pollCursor.toNat = _
            rw [Nat.zero_mul, Nat.add_zero]
        | succ j =>
            rw [List.getElem?_cons_succ] at hj
            have hlt := (List.getElem?_eq_some_iff.mp hj).1
            have hb := budget_pos start hidle scans
            have hroom : 1 * b.toNat ≤ calls.length * b.toNat :=
              Nat.mul_le_mul_right _ (Nat.one_le_of_lt hlt)
            -- Another call follows, so the cursor does not wrap here.
            have hnext : s₃.manager.pollCursor.toNat = s.manager.pollCursor.toNat + b.toNat := by
              rw [hcursor, UInt64.toNat_add, UInt32.toNat_toUInt64, Nat.mod_eq_of_lt (by omega)]
            rw [hnext] at hcursors
            rw [hcursors (by omega) j call hj, Nat.succ_mul]
            omega
      · rcases hone p hp with hasked | ⟨hpending, hwindow⟩
        · exact .inl ⟨_, List.mem_cons_self, hasked⟩
        rcases hcover p hpending with ⟨call, hcall, hasked⟩ | hwindows
        · exact .inl ⟨call, List.mem_cons_of_mem _ hcall, hasked⟩
        · refine .inr fun call hcall o ho => ?_
          rcases List.mem_cons.mp hcall with rfl | hcall
          · rw [← hm.total] at ho
            rw [← hm.placeAt]
            exact hwindow o ho
          · exact hwindows call hcall o ho

/-- The windows of enough calls cover the circle. -/
theorem exists_window {c b n total flat : Nat} (hb : 0 < b) (hn : total ≤ n * b)
    (hflat : flat < total) : ∃ j < n, ∃ o < min total b, (c + j * b + o) % total = flat := by
  -- The number behind the start at which the position comes.
  obtain ⟨y, hy, hpos⟩ : ∃ y < total, (c + y) % total = flat := by
    refine ⟨(flat + (total - c % total)) % total, Nat.mod_lt _ (by omega), ?_⟩
    have hc := Nat.mod_lt c (Nat.zero_lt_of_lt hflat)
    rw [Nat.add_mod_mod, ← Nat.mod_add_mod, show c % total + (flat + (total - c % total))
      = flat + total by omega, Nat.add_mod_right, Nat.mod_eq_of_lt hflat]
  have hdiv := Nat.div_add_mod y b
  have hmod := Nat.mod_lt y hb
  refine ⟨y / b, ?_, y % b, ?_, ?_⟩
  · exact (Nat.div_lt_iff_lt_mul hb).mpr (Nat.lt_of_lt_of_le hy hn)
  · exact Nat.lt_min.mpr ⟨Nat.lt_of_le_of_lt (Nat.mod_le y b) hy, hmod⟩
  · rw [Nat.add_assoc, Nat.mul_comm, hdiv, hpos]

/-- The position at an offset, where the sum wraps at `2 ^ 64`. -/
theorem toNat_offset (start : UInt64) (o : Nat) :
    (start + UInt64.ofNat o).toNat = (start.toNat + o) % 2 ^ 64 := by
  rw [UInt64.toNat_add, UInt64.toNat_ofNat', Nat.add_mod_mod]

/-- Distinct positions are distinct places. -/
theorem placeOf_inj {flat flat' : Nat} (h : m.placeOf flat = m.placeOf flat') : flat = flat' := by
  obtain ⟨hdiv, hmod⟩ := Place.mk.inj h
  rw [← Nat.div_add_mod flat m.slotsPerStream.toNat, hdiv, hmod, Nat.div_add_mod]

/-- A call whose positions do not wrap, or wrap at a multiple of the number of slots, queries
no slot twice. -/
theorem Returned.nodup {cursor : UInt64} {seg : List Entry} (h : Returned m cursor b seg)
    (hseamless : cursor.toNat + m.total ≤ 2 ^ 64 ∨ m.total ∣ 2 ^ 64) : (queries seg).Nodup := by
  obtain ⟨os, hasked, hsorted, hlt, -⟩ := h.asked
  rw [hasked]
  refine List.Nodup.map_on (fun o ho o' ho' heq => ?_) (hsorted.imp fun hlt => Nat.ne_of_lt hlt)
  have hpos := placeOf_inj heq
  rw [toNat_offset, toNat_offset] at hpos
  exact position_inj hseamless (hlt o ho) (hlt o' ho') hpos

/-- **Polling starves no checkpoint.** From a manager with any slot states and any
`poll_cursor`, after any run of calls, `⌈total / budget⌉` scanning polls with one budget
follow one another while submits go on. Every slot that is pending before the first of them
is queried. No call makes more queries than its budget, each returns the number of its
`DEVICE_CONFIRMED` records, and one whose positions do not wrap queries no slot twice. -/
theorem polls_fair (hm : m.Shaped) {before : List Action}
    (hrun : Run State.step (State.start m) before s) (hidle : s.poll = none) (hb : 0 < b.toNat)
    (hpolls : Polls b s calls t)
    (hcount : calls.length = (m.total + b.toNat - 1) / b.toNat)
    (hcursor : s.manager.pollCursor.toNat + calls.length * b.toNat ≤ 2 ^ 64) :
    (∀ p, s.At p .pending → ∃ call ∈ calls, p ∈ queries call.2) ∧
      ∀ call ∈ calls, (queries call.2).length ≤ b.toNat ∧
        (call.1.toNat + m.total ≤ 2 ^ 64 ∨ m.total ∣ 2 ^ 64 → (queries call.2).Nodup) ∧
        call.2.getLast? = some (.polled (confirmations call.2)) := by
  have hslots : SameSlots m s.manager := sameSlots_run hrun
  obtain ⟨hreturned, hcursors, hcover⟩ := polls_spec hpolls (coherent_run hrun) hidle hslots
  constructor
  · intro p hp
    -- A slot that was pending all the time is in the window of one of the calls.
    refine (hcover p hp).resolve_right fun hwindows => ?_
    obtain ⟨slot, hslot, -⟩ := hp
    obtain ⟨flat, hflat, rfl⟩ := (hslots.shaped hm).place hslot
    rw [hslots.total] at hflat
    -- The calls look at as many positions as there are slots.
    have henough : m.total ≤ calls.length * b.toNat := by
      rw [hcount]
      have hdiv := Nat.lt_div_mul_add hb (a := m.total + b.toNat - 1)
      omega
    obtain ⟨j, hj, o, ho, hpos⟩ :=
      exists_window (c := s.manager.pollCursor.toNat) hb henough hflat
    have hroom : (j + 1) * b.toNat ≤ calls.length * b.toNat := Nat.mul_le_mul_right _ hj
    rw [Nat.succ_mul] at hroom
    have hob : o < b.toNat := Nat.lt_of_lt_of_le ho (Nat.min_le_right _ _)
    refine hwindows _ (List.getElem_mem hj) o ho ?_
    have hsmall : s.manager.pollCursor.toNat + j * b.toNat + o < 2 ^ 64 := by omega
    rw [Manager.placeAt, toNat_offset, hcursors hcursor j _ (List.getElem?_eq_getElem hj),
      Nat.mod_eq_of_lt hsmall, hpos, Manager.placeOf, Manager.placeOf, hslots.slotsPerStream]
  · intro call hcall
    have h := hreturned call hcall
    -- What a call returned with says the rest.
    refine ⟨?_, h.nodup, h.polled⟩
    obtain ⟨os, hasked, -, -, hlen⟩ := h.asked
    rw [hasked, List.length_map]
    exact hlen

end

/-! ### Two pools -/

/-- In a computed run the poll call is in progress after every step. -/
def pollsOn : State → List Action → Bool
  | _, []      => true
  | s, a :: as =>
      match s.step a with
      | some s' => s'.poll.isSome && pollsOn s' as
      | none    => true

/-- The test of a closed run: the poll call is in progress all along. -/
theorem along_of_pollsOn {s : State} {as : List Action} (h : pollsOn s as = true) :
    Run.Along State.step (fun _ _ u => u.poll.isSome) s as := by
  induction as generalizing s with
  | nil => exact Run.along_nil
  | cons a as ih =>
      refine Run.along_cons_iff.mpr fun t ht => ?_
      rw [pollsOn, ht] at h
      obtain ⟨hsome, hrest⟩ := Bool.and_eq_true_iff.mp h
      exact ⟨hsome, ih hrest⟩

/-- The pool of the example has one stream with a slot for each state. -/
theorem shaped_poolOf (cursor : UInt32) {states : List SlotState} (h : states.length < 2 ^ 32) :
    (poolOf cursor states).Shaped := by
  intro stream hstream
  obtain rfl := List.mem_singleton.mp hstream
  show (states.mapIdx _).length = (UInt32.ofNat states.length).toNat
  rw [List.length_mapIdx, UInt32.toNat_ofNat_of_lt' h]

/-- Five slots, four of them pending, and a cursor that stands for the last one. -/
def fourPending : Manager :=
  { poolOf 1 [.pending, .pending, .free, .pending, .pending] with
    pollCursor := 18446744073709551609 }

/-- Three polls with budget two query the four pending slots. The first poll goes on from the
last slot to the first one, and a submit call reserves the free slot during the second. -/
theorem polls_fair_five : ∃ calls t, Polls 2 (State.start fourPending) calls t ∧
    calls.length = 3 ∧
    ∀ j ∈ [0, 1, 3, 4], ∃ call ∈ calls, (⟨0, j⟩ : Place) ∈ queries call.2 := by
  -- The first call asks for the slots 3 and 4, the others go on from there, over the end of
  -- the stream.
  have hpolls : Polls 2 (State.start fourPending) _ _ :=
    .call rfl rfl (show Run State.step _ (List.replicate 10 (.advancePoll 0)) _ from rfl)
      (along_of_pollsOn (by decide)) (show State.step _ (.advancePoll 0) = _ from rfl) rfl <|
    .call rfl rfl (show Run State.step _ ([.advancePoll 0, .advancePoll 0, .submit 7 101 2,
        .advance 0 0, .advancePoll 0, .advance 0 0, .advance 0 0, .advancePoll 0, .advance 0 0] ++
        List.replicate 7 (.advancePoll 0)) _ from rfl)
      (along_of_pollsOn (by decide)) (show State.step _ (.advancePoll 0) = _ from rfl) rfl <|
    .call rfl rfl (show Run State.step _ (List.replicate 10 (.advancePoll 0)) _ from rfl)
      (along_of_pollsOn (by decide)) (show State.step _ (.advancePoll 0) = _ from rfl) rfl <|
    .nil _
  have hshaped : (poolOf 1 [.pending, .pending, .free, .pending, .pending]).Shaped :=
    shaped_poolOf 1 (by decide)
  have hfair := polls_fair (m := fourPending) hshaped (Run.nil_iff.mpr rfl) rfl (by decide) hpolls
    rfl (by decide)
  refine ⟨_, _, hpolls, rfl, fun j hj => hfair.1 ⟨0, j⟩ ?_⟩
  simp only [List.mem_cons, List.not_mem_nil, or_false] at hj
  rcases hj with rfl | rfl | rfl | rfl
  all_goals exact ⟨_, rfl, rfl⟩

/-- The pool of five slots, the first of which is pending, with the cursor seven before its
end. -/
def lateCursor : Manager :=
  { poolOf 0 [.pending, .free, .free, .free, .free] with pollCursor := 18446744073709551609 }

/-- Two polls with budget three are a round of five slots, and the cursor does not wrap. The
sum of cursor and offset does, and the second poll queries the first slot twice. -/
theorem queried_twice : ∃ calls t, Polls 3 (State.start lateCursor) calls t ∧
    calls.length = (lateCursor.total + 3 - 1) / 3 ∧
    lateCursor.pollCursor.toNat + calls.length * 3 < 2 ^ 64 ∧
    calls.map (fun call => queries call.2) = [[⟨0, 0⟩], [⟨0, 0⟩, ⟨0, 0⟩]] := by
  have hpolls : Polls 3 (State.start lateCursor) _ _ :=
    .call rfl rfl (show Run State.step _ (List.replicate 9 (.advancePoll 0)) _ from rfl)
      (along_of_pollsOn (by decide)) (show State.step _ (.advancePoll 0) = _ from rfl) rfl <|
    .call rfl rfl (show Run State.step _ (List.replicate 13 (.advancePoll 0)) _ from rfl)
      (along_of_pollsOn (by decide)) (show State.step _ (.advancePoll 0) = _ from rfl) rfl <|
    .nil _
  exact ⟨_, _, hpolls, rfl, by decide, rfl⟩

end HangAnalyzer.Checkpoint
