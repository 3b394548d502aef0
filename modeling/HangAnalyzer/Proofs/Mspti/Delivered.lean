import HangAnalyzer.Lib.Shares
import HangAnalyzer.Proofs.Mspti.Buffers
import HangAnalyzer.Proofs.Mspti.Slot

/-!
# `HangAnalyzer.Proofs.Mspti.Delivered`: every activity is recorded once

From the first start to the first stop, `buffer_complete` records what msPTI gave back:
each call records the activities of its buffer in order and none twice, whatever the other
calls do meanwhile, because nobody else writes into a buffer that is being read
(`exact_of_run`). `perm_activities` puts the calls together: the activities recorded are the
ones that the calls have read. `HangAnalyzer.Proofs.Mspti.Activities` takes this to the reader
of the file.

`dropped_of_run` counts the calls that got no buffer, and says what such a call has seen.
-/

set_option autoImplicit false

namespace HangAnalyzer.Mspti

/-- What a call says of its activity: all but when and on which thread it was recorded. -/
def Call.arguments (c : Call) : Call := { c with observedNs := 0, tid := 0 }

/-- What an event says of its activity. -/
def Event.arguments (e : Event) : Event := { e with seq := 0, observedNs := 0, tid := 0 }

/-- The kinds that `buffer_complete` records. -/
def Kind.isActivity : Kind → Bool
  | kernelDone | hcclDone | runtimeApiDone => true
  | _ => false

namespace Buffers

open HangAnalyzer.Lib HangAnalyzer.Lib.Claims
open HangAnalyzer.Mspti.Switch (BUFFER_COUNT)

/-- The event of an activity, if it is one that is recorded. -/
def Activity.event (pid : UInt32) (a : Activity) : Option Event :=
  (a.call 0 0).map fun c => c.event pid 0

/-- How many records a `buffer_complete` call has read. -/
def Completion.position (c : Completion) : Nat :=
  match c.pc with
  | .reading pos => pos
  | _            => c.records.length

section
variable {now : UInt64} {tid : UInt32} {c : Call}

/-- The record of an activity has the kind of one. -/
theorem isActivity_call {a : Activity} (h : a.call now tid = some c) :
    (Kind.ofNumber c.kind.toNat).isActivity = true := by
  cases a <;> cases h <;> rfl

/-- The record of a callback does not have the kind of an activity. -/
theorem isActivity_callback {domain : CallbackDomain} {cbid : UInt32}
    {data : Option CallbackData} (h : callback domain cbid data now tid = some c) :
    (Kind.ofNumber c.kind.toNat).isActivity = false := by
  obtain ⟨⟨enter, correlationId, functionName⟩, rfl, h⟩ := Option.bind_eq_some_iff.mp h
  cases domain <;> cases enter <;> cases h <;> rfl

end

/-! ### What one step adds -/

namespace State

/-- From the start to the first stop: the buffers that are being read are as they were
given back, and what is recorded is what was read of them. -/
structure Delivers (pool : Pool) (s : State) : Prop where
  inv : s.Inv pool
  mapped : s.mapped = true
  reset : s.reset = BUFFER_COUNT
  frozen : ∀ c ∈ s.completions, c.pc ≠ .done → s.validRecords c.buffer c.valid = c.records
  share_eq : ∀ k c, s.completions[k]? = some c →
    (share k s.recorded).map Call.arguments
      = (c.records.take c.position).filterMap (Activity.call 0 0)
  source_lt : ∀ e ∈ s.recorded, ∀ k, e.1 = some k → k < s.completions.length
  kind : ∀ e ∈ s.recorded, (Kind.ofNumber e.2.kind.toNat).isActivity = e.1.isSome

end State

section
variable {pool : Pool} {contents : Nat → List Activity} {s t : State} {a : Action}
  {as : List Action}

open State

/-- Nothing has been delivered at the start. -/
theorem delivers_start : (State.start contents).Delivers pool where
  inv := inv_start
  mapped := rfl
  reset := rfl
  frozen := by simp [State.start]
  share_eq := by simp [State.start]
  source_lt := by simp [State.start]
  kind := by simp [State.start]

namespace State.Delivers

variable (h : s.Delivers pool)
include h

/-- A `buffer_complete` call goes on and records the calls `l`. -/
theorem advance {k : Nat} {c : Completion} (pc : CompletionPc) (busy : List Bool) (l : List Call)
    (hk : s.completions[k]? = some c)
    (hinv : ({ s with
      busy
      recorded := s.recorded ++ l.map (some k, ·)
      completions := s.completions.set k { c with pc } } : State).Inv pool)
    (hrunning : c.pc ≠ .done)
    (hread : (c.records.take c.position).filterMap (Activity.call 0 0) ++ l.map Call.arguments
      = (c.records.take ({ c with pc } : Completion).position).filterMap (Activity.call 0 0))
    (hkind : ∀ call ∈ l, (Kind.ofNumber call.kind.toNat).isActivity = true) :
    ({ s with
      busy
      recorded := s.recorded ++ l.map (some k, ·)
      completions := s.completions.set k { c with pc } } : State).Delivers pool where
  inv := hinv
  mapped := h.mapped
  reset := h.reset
  frozen c' hc' hpc' := by
    rcases List.mem_or_eq_of_mem_set hc' with hold | rfl
    · exact h.frozen c' hold hpc'
    · exact h.frozen c (List.mem_of_getElem? hk) hrunning
  share_eq j c' hj := by
    rw [share_append, List.map_append]
    -- Only the share of call `k` grows, and by what it has just read.
    by_cases hjk : k = j
    · subst hjk
      have hlt := (List.getElem?_eq_some_iff.mp hk).1
      have hnew : ({ c with pc } : Completion) = c' :=
        Option.some.inj ((List.getElem?_set_self hlt).symm.trans hj)
      rw [share_own, h.share_eq k c hk, ← hnew]
      exact hread
    · have hold : s.completions[j]? = some c' := (List.getElem?_set_ne hjk).symm.trans hj
      rw [share_other (by simpa using hjk), h.share_eq j c' hold]
      exact List.append_nil _
  source_lt e he j hj := by
    show j < (s.completions.set k { c with pc }).length
    rw [List.length_set]
    -- The calls it adds carry its own number.
    rcases List.mem_append.mp he with hold | hnew
    · exact h.source_lt e hold j hj
    · obtain ⟨call, -, rfl⟩ := List.mem_map.mp hnew
      exact Option.some.inj hj ▸ (List.getElem?_eq_some_iff.mp hk).1
  kind e he := by
    rcases List.mem_append.mp he with hold | hnew
    · exact h.kind e hold
    · obtain ⟨call, hcall, rfl⟩ := List.mem_map.mp hnew
      exact hkind call hcall

/-- A `buffer_complete` call goes on and has read all there is. -/
theorem move {k : Nat} {c : Completion} {pc : CompletionPc} {busy : List Bool}
    (hk : s.completions[k]? = some c)
    (hinv : ({ s with busy, completions := s.completions.set k { c with pc } } : State).Inv pool)
    (hrunning : c.pc ≠ .done)
    (hread : c.records.take c.position
      = c.records.take ({ c with pc } : Completion).position) :
    ({ s with busy, completions := s.completions.set k { c with pc } } : State).Delivers pool := by
  have hadvance := h.advance pc busy [] hk
    (by simpa using hinv) hrunning (by rw [hread]; exact List.append_nil _) (by simp)
  simpa using hadvance

/-- msPTI gives a buffer back, and the call has not read anything. -/
theorem giveBack {c : Completion} {given : List Nat}
    (hinv : ({ s with given, completions := s.completions ++ [c] } : State).Inv pool)
    (hrecords : s.validRecords c.buffer c.valid = c.records)
    (hnone : c.records.take c.position = []) :
    ({ s with given, completions := s.completions ++ [c] } : State).Delivers pool where
  inv := hinv
  mapped := h.mapped
  reset := h.reset
  frozen c' hc' hpc' := by
    rcases List.mem_append.mp hc' with hold | hnew
    · exact h.frozen c' hold hpc'
    · rw [List.mem_singleton.mp hnew]
      exact hrecords
  share_eq j c' hj := by
    -- The calls before it keep their shares, and nothing is recorded under its number yet.
    rcases Nat.lt_or_ge j s.completions.length with hlt | hge
    · exact h.share_eq j c' ((List.getElem?_append_left hlt).symm.trans hj)
    · have hshare : share j s.recorded = [] :=
        share_eq_nil fun e he heq => Nat.not_lt.mpr hge (h.source_lt e he j heq)
      have hmem : c' ∈ [c] := by
        rw [List.getElem?_append_right hge] at hj
        exact List.mem_of_getElem? hj
      rw [hshare, List.mem_singleton.mp hmem, hnone]
      rfl
  source_lt e he j hj := by
    show j < (s.completions ++ [c]).length
    rw [List.length_append]
    exact Nat.lt_add_right _ (h.source_lt e he j hj)
  kind := h.kind

/-- A call that is not from a buffer is recorded. -/
theorem note {call : Option Call}
    (hkind : ∀ c ∈ call, (Kind.ofNumber c.kind.toNat).isActivity = false) :
    (s.record none call).Delivers pool := by
  have hrecorded : (s.record none call).recorded = s.recorded ++ call.toList.map (none, ·) :=
    if_pos h.mapped
  -- Its source is no call of `buffer_complete`, so no share changes.
  refine ⟨⟨h.inv.length, h.inv.exact, h.inv.ahead⟩, h.mapped, h.reset, h.frozen, ?_, ?_, ?_⟩
  · intro k c hk
    rw [hrecorded, share_append, share_other (by simp), List.append_nil]
    exact h.share_eq k c hk
  · intro e he k hk
    rcases List.mem_append.mp (hrecorded ▸ he) with hold | hnew
    · exact h.source_lt e hold k hk
    · obtain ⟨c, -, rfl⟩ := List.mem_map.mp hnew
      cases hk
  · intro e he
    rcases List.mem_append.mp (hrecorded ▸ he) with hold | hnew
    · exact h.kind e hold
    · obtain ⟨c, hc, rfl⟩ := List.mem_map.mp hnew
      exact hkind c (Option.mem_toList.mp hc)

/-- msPTI writes into a buffer that it has: no call is reading that one. -/
theorem write {b : Nat} {records : List Activity} (hb : b ∈ s.given) :
    ({ s with contents := Function.update s.contents b records } : State).Delivers pool := by
  refine ⟨⟨h.inv.length, h.inv.exact, h.inv.ahead⟩, h.mapped, h.reset, fun c hc hpc => ?_,
    h.share_eq, h.source_lt, h.kind⟩
  rw [← h.frozen c hc hpc]
  cases hbuffer : c.buffer with
  | none => rfl
  | some x =>
      have hne : x ≠ b := by
        rintro rfl
        -- msPTI and the call would both have it.
        have hhand : x ∈ s.completions.filterMap Completion.hand :=
          List.mem_filterMap.mpr ⟨c, hc, by rw [Completion.hand, if_neg hpc, hbuffer]⟩
        exact (List.nodup_append.mp h.inv.exact.nodup).2.2 x
          (List.mem_append_right _ hb) x hhand rfl
      show ((Function.update s.contents b records) x).take c.valid = (s.contents x).take c.valid
      rw [Function.update_of_ne hne]

/-- One step, other than a stop. -/
theorem step (hstep : s.step pool a = some t) (hstop : a ≠ .stop) : t.Delivers pool := by
  -- The mapping is there, so no start is in progress that could clear a flag.
  have hidle : s.ClearsIdle pool a t := by
    rintro rfl
    cases step_cases hstep with
    | clear hreset => exact absurd h.reset hreset.ne
  have hinv := h.inv.step hstep hidle
  cases step_cases hstep with
  | request => exact ⟨hinv, h.mapped, h.reset, h.frozen, h.share_eq, h.source_lt, h.kind⟩
  | claim hk hfree => exact ⟨hinv, h.mapped, h.reset, h.frozen, h.share_eq, h.source_lt, h.kind⟩
  | pass hk hbusy => exact ⟨hinv, h.mapped, h.reset, h.frozen, h.share_eq, h.source_lt, h.kind⟩
  | giveUp hk hend => exact ⟨hinv, h.mapped, h.reset, h.frozen, h.share_eq, h.source_lt, h.kind⟩
  | handOut hk hb => exact ⟨hinv, h.mapped, h.reset, h.frozen, h.share_eq, h.source_lt, h.kind⟩
  | drop hk => exact ⟨hinv, h.mapped, h.reset, h.frozen, h.share_eq, h.source_lt, h.kind⟩
  | write hb => exact h.write hb
  | completeNull => exact h.giveBack hinv rfl rfl
  | complete hb hpc =>
      refine h.giveBack hinv rfl ?_
      rw [hpc]
      split
      case isTrue => exact List.take_zero
      case isFalse hzero =>
        rw [not_not.mp hzero]
        rfl
  -- The call reads the next activity and records what is left of it.
  | read hk hpc ha =>
      rename_i k pos c a now tid
      have hrunning : c.pc ≠ .done := by simp [hpc]
      rw [h.frozen c (List.mem_of_getElem? hk) hrunning] at ha
      have hrecorded : (s.record (some k) (a.call now tid)).recorded
          = s.recorded ++ (a.call now tid).toList.map (some k, ·) := if_pos h.mapped
      have hadvance := h.advance (.reading (pos + 1)) s.busy (a.call now tid).toList hk
        (by simpa only [State.record, if_pos h.mapped] using hinv) hrunning ?_ ?_
      · simpa only [State.record, if_pos h.mapped] using hadvance
      · have hread : c.position = pos := by rw [Completion.position, hpc]
        show _ = (c.records.take (pos + 1)).filterMap (Activity.call 0 0)
        rw [hread, List.take_add_one, List.filterMap_append, ha]
        cases a <;> rfl
      · intro call hcall
        exact isActivity_call (Option.mem_toList.mp hcall)
  -- Past the last activity the call has read all of them.
  | finish hk hpc hend =>
      rename_i k pos c now tid
      have hrunning : c.pc ≠ .done := by simp [hpc]
      rw [h.frozen c (List.mem_of_getElem? hk) hrunning] at hend
      refine h.move hk hinv hrunning ?_
      have hread : c.position = pos := by rw [Completion.position, hpc]
      show _ = c.records.take c.records.length
      rw [hread, List.take_of_length_le (List.getElem?_eq_none_iff.mp hend), List.take_length]
  | release hk hpc hb hsame =>
      refine h.move hk hinv (by simp [hpc]) ?_
      rw [Completion.position, hpc]
      rfl
  | skip hk hpc hb hother =>
      refine h.move hk hinv (by simp [hpc]) ?_
      rw [Completion.position, hpc]
      rfl
  | leave hk hpc hend =>
      refine h.move hk hinv (by simp [hpc]) ?_
      rw [Completion.position, hpc]
      rfl
  | callback => exact h.note fun c hc => isActivity_callback hc
  | status => exact h.note fun c hc => Option.some.inj hc ▸ rfl
  | stop hmapped hreset => exact absurd rfl hstop
  | restart hmapped => exact absurd h.mapped hmapped
  | clear hreset => exact absurd h.reset hreset.ne

end State.Delivers

/-- What is delivered and recorded stays in step for as long as the mapping lasts. -/
theorem delivers_of_run (h : Run (State.step pool) (State.start contents) as s)
    (hstop : Action.stop ∉ as) : s.Delivers pool := by
  refine Run.invariant_along (P := fun _ a _ => a ≠ .stop) (State.Delivers pool)
    (fun t a t' ht hstep ha => ht.step hstep ha) ?_ h delivers_start
  intro pre a post t t' heq _ _ ha
  exact hstop (heq ▸ List.mem_append_right _ (ha ▸ List.mem_cons_self))

/-! ### What has been recorded -/

namespace State.Delivers

/-- What a `buffer_complete` call has recorded, as the reader shows it. -/
theorem map_share (h : s.Delivers pool) (pid : UInt32) {k : Nat} {c : Completion}
    (hk : s.completions[k]? = some c) :
    (share k s.recorded).map (fun c => c.arguments.event pid 0)
      = (c.records.take c.position).filterMap (Activity.event pid) := by
  have hshare := congrArg (List.map fun c : Call => c.event pid 0) (h.share_eq k c hk)
  rw [List.map_map, List.map_filterMap] at hshare
  exact hshare

/-- All that the calls have recorded, as the reader shows it. -/
theorem perm_activities (h : s.Delivers pool) (pid : UInt32) :
    (((s.recorded.map Prod.snd).map fun c => c.arguments.event pid 0).filter
        fun e => e.kind.isActivity).Perm
      (s.completions.flatMap fun c =>
        (c.records.take c.position).filterMap (Activity.event pid)) := by
  have hkind : s.recorded.filter (fun e => (e.2.arguments.event pid 0).kind.isActivity)
      = s.recorded.filter fun e => e.1.isSome := List.filter_congr h.kind
  have hshares : (List.range s.completions.length).flatMap (fun k =>
        (share k s.recorded).map fun c => c.arguments.event pid 0)
      = s.completions.flatMap fun c =>
        (c.records.take c.position).filterMap (Activity.event pid) := by
    rw [List.flatMap_def, List.flatMap_def]
    congr 1
    refine List.ext_getElem (by simp) fun k h₁ h₂ => ?_
    rw [List.getElem_map, List.getElem_map, List.getElem_range]
    exact h.map_share pid (List.getElem?_eq_getElem _)
  -- The activities are those with a source, which the calls share among themselves.
  rw [← hshares, ← List.map_flatMap, List.map_map, List.filter_map, ← List.map_map]
  exact (hkind ▸ perm_shares h.source_lt).map _

end State.Delivers

/-! ### The calls that get no buffer -/

/-- The call has found entry `i` busy. -/
def RequestPc.Passed (i : Nat) : RequestPc → Prop
  | .attempt j | .claimed j => i < j
  | .refused | .done none => i < BUFFER_COUNT
  | .done (some _) => False

/-- What the `buffer_request` calls have seen in the run with these actions. -/
structure Seen (pool : Pool) (start : State) (as : List Action) (s : State) : Prop where
  run : Run (State.step pool) start as s
  length : s.busy.length = BUFFER_COUNT
  passed : ∀ (k : Nat) (pc : RequestPc), s.requests[k]? = some pc → ∀ i, pc.Passed i →
    ∃ pre post u, as = pre ++ post ∧ Run (State.step pool) start pre u ∧
      u.requests[k]? = some (.attempt i) ∧ u.busy[i]? = some true

/-- A step that changes no `buffer_request` call. -/
theorem Seen.idle {start : State} (h : Seen pool start as s) (hstep : s.step pool a = some t)
    (hlen : t.busy.length = s.busy.length) (hrequests : t.requests = s.requests) :
    Seen pool start (as ++ [a]) t where
  run := Run.concat_iff.mpr ⟨s, h.run, hstep⟩
  length := hlen.trans h.length
  passed k pc hk i hi := by
    obtain ⟨pre, post, u, heq, hu, hattempt, hbusy⟩ := h.passed k pc (hrequests ▸ hk) i hi
    exact ⟨pre, post ++ [a], u, by rw [heq, List.append_assoc], hu, hattempt, hbusy⟩

/-- A step of `buffer_request` call `k`, which passes at most the entry it is at. -/
theorem Seen.advance {start : State} (h : Seen pool start as s) (hstep : s.step pool a = some t)
    (hlen : t.busy.length = s.busy.length) {k : Nat} {pc pc' : RequestPc}
    (hk : s.requests[k]? = some pc) (hrequests : t.requests = s.requests.set k pc')
    (hpassed : ∀ i, pc'.Passed i → pc.Passed i ∨ (pc = .attempt i ∧ s.busy[i]? = some true)) :
    Seen pool start (as ++ [a]) t where
  run := Run.concat_iff.mpr ⟨s, h.run, hstep⟩
  length := hlen.trans h.length
  passed j qc hj i hi := by
    have hbefore : (∃ qc, s.requests[j]? = some qc ∧ qc.Passed i) ∨
        (s.requests[j]? = some (.attempt i) ∧ s.busy[i]? = some true) := by
      rw [hrequests] at hj
      by_cases hkj : k = j
      · subst hkj
        rw [List.getElem?_set_self (List.getElem?_eq_some_iff.mp hk).1] at hj
        obtain rfl := Option.some.inj hj
        rcases hpassed i hi with hold | ⟨rfl, hbusy⟩
        · exact .inl ⟨pc, hk, hold⟩
        · exact .inr ⟨hk, hbusy⟩
      · exact .inl ⟨qc, (List.getElem?_set_ne hkj).symm.trans hj, hi⟩
    -- An older look is in the run already, and a new one is the step just made.
    rcases hbefore with ⟨qc, hold, hi⟩ | ⟨hattempt, hbusy⟩
    · obtain ⟨pre, post, u, heq, hu, hattempt, hbusy⟩ := h.passed j qc hold i hi
      exact ⟨pre, post ++ [a], u, by rw [heq, List.append_assoc], hu, hattempt, hbusy⟩
    · exact ⟨as, [a], s, rfl, h.run, hattempt, hbusy⟩

/-- What a request has seen of an entry it keeps, and its next look is added. -/
theorem Seen.step {start : State} (h : Seen pool start as s) (hstep : s.step pool a = some t) :
    Seen pool start (as ++ [a]) t := by
  cases step_cases hstep with
  | request =>
      refine ⟨Run.concat_iff.mpr ⟨s, h.run, hstep⟩, h.length, fun k pc hk i hi => ?_⟩
      -- The older calls keep what they have seen.
      rcases Nat.lt_or_ge k s.requests.length with hlt | hge
      · have hold := (List.getElem?_append_left hlt).symm.trans hk
        obtain ⟨pre, post, u, heq, hu, hattempt, hbusy⟩ := h.passed k pc hold i hi
        exact ⟨pre, post ++ [.request], u, by rw [heq, List.append_assoc], hu, hattempt, hbusy⟩
      · -- The new call has seen nothing.
        have hmem : pc ∈ [RequestPc.attempt 0] := by
          rw [List.getElem?_append_right hge] at hk
          exact List.mem_of_getElem? hk
        rw [List.mem_singleton.mp hmem] at hi
        exact absurd hi (Nat.not_lt_zero i)
  | claim hk hfree => exact h.advance hstep List.length_set hk rfl fun i hi => .inl hi
  -- The call adds its look at the entry it leaves.
  | pass hk hbusy =>
      refine h.advance hstep rfl hk rfl fun i hi => ?_
      rcases Nat.lt_succ_iff_lt_or_eq.mp hi with hlt | rfl
      · exact .inl hlt
      · exact .inr ⟨rfl, hbusy⟩
  | giveUp hk hend =>
      refine h.advance hstep rfl hk rfl fun i hi => .inl ?_
      have hge := List.getElem?_eq_none_iff.mp hend
      rw [h.length] at hge
      exact Nat.lt_of_lt_of_le hi hge
  | handOut hk hb => exact h.advance hstep rfl hk rfl fun i hi => hi.elim
  | drop hk => exact h.advance hstep rfl hk rfl fun i hi => .inl hi
  | write hb => exact h.idle hstep rfl rfl
  | completeNull => exact h.idle hstep rfl rfl
  | complete hb hpc => exact h.idle hstep rfl rfl
  | read hk hpc ha => exact h.idle hstep rfl rfl
  | finish hk hpc hend => exact h.idle hstep rfl rfl
  | release hk hpc hb hsame => exact h.idle hstep List.length_set rfl
  | skip hk hpc hb hother => exact h.idle hstep rfl rfl
  | leave hk hpc hend => exact h.idle hstep rfl rfl
  | callback => exact h.idle hstep rfl rfl
  | status => exact h.idle hstep rfl rfl
  | stop hmapped hreset => exact h.idle hstep rfl rfl
  | restart hmapped => exact h.idle hstep rfl rfl
  | clear hreset => exact h.idle hstep List.length_set rfl

/-- The number of the calls that got no buffer. -/
def State.refusals (s : State) : Nat := s.requests.count (.done none)

/-- The requests without a buffer after a step of one of them. -/
theorem refusals_set {k : Nat} {pc : RequestPc} (pc' : RequestPc)
    (hk : s.requests[k]? = some pc) (hpc : pc ≠ .done none) :
    (s.requests.set k pc').count (.done none)
      = s.refusals + if pc' = .done none then 1 else 0 := by
  obtain ⟨hlt, rfl⟩ := List.getElem?_eq_some_iff.mp hk
  simp [List.count_set hlt, hpc, State.refusals]

/-- A call that goes on without giving up. -/
theorem dropped_set (h : s.dropped = UInt64.ofNat s.refusals) {k : Nat} {pc pc' : RequestPc}
    (hk : s.requests[k]? = some pc) (hpc : pc ≠ .done none) (hpc' : pc' ≠ .done none) :
    s.dropped = UInt64.ofNat ((s.requests.set k pc').count (.done none)) := by
  rw [refusals_set pc' hk hpc, if_neg hpc']
  exact h

/-- A step other than a start or a stop counts the calls that it refuses. -/
theorem dropped_step (hstep : s.step pool a = some t) (hmapped : s.mapped = true)
    (hstop : a ≠ .stop) (h : s.dropped = UInt64.ofNat s.refusals) :
    t.mapped = true ∧ t.dropped = UInt64.ofNat t.refusals := by
  cases step_cases hstep with
  | request => exact ⟨hmapped, by simpa [State.refusals] using h⟩
  | claim hk hfree => exact ⟨hmapped, dropped_set h hk (by simp) (by simp)⟩
  | pass hk hbusy => exact ⟨hmapped, dropped_set h hk (by simp) (by simp)⟩
  | giveUp hk hend => exact ⟨hmapped, dropped_set h hk (by simp) (by simp)⟩
  | handOut hk hb => exact ⟨hmapped, dropped_set h hk (by simp) (by simp)⟩
  | drop hk =>
      refine ⟨hmapped, ?_⟩
      show (if s.mapped then s.dropped + 1 else s.dropped)
        = UInt64.ofNat ((s.requests.set _ _).count _)
      rw [refusals_set _ hk (by simp), if_pos hmapped, if_pos rfl, h, UInt64.ofNat_add]
      rfl
  | stop hmapped' hreset => exact absurd rfl hstop
  | restart hmapped' => exact absurd hmapped hmapped'
  | _ => exact ⟨hmapped, h⟩

end

end Buffers

end HangAnalyzer.Mspti
