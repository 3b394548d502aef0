import HangAnalyzer.Checkpoint.Session
import HangAnalyzer.Proofs.Checkpoint.Coherent
import HangAnalyzer.Proofs.Checkpoint.Keys

/-!
# `HangAnalyzer.Proofs.Checkpoint.Separate`: submit calls that do not overlap

`State.NotOverlapping` says of one step that a submit call starts after the earlier ones of
its stream have returned. Nothing in the source makes sure of it, so it is a condition on the
callers. Under it, of two submit calls of one stream one has returned (`State.Alone`), and no
call overtakes another one (`State.Alone.notOvertaking`).

The calls know their stream by its position and the records by its id. `Manager.Distinct`
says that the two are the same.
-/

set_option autoImplicit false

namespace HangAnalyzer.Checkpoint

open HangAnalyzer.Lib

/-! ### The ids of the streams -/

/-- No two streams have one id. -/
def Manager.Distinct (m : Manager) : Prop := (m.streams.map Stream.id).Nodup

/-- The streams that were registered have different ids. -/
theorem Manager.Made.distinct {m : Manager} (h : m.Made) : m.Distinct := by
  induction h with
  | create h =>
      unfold flightCheckpointCreate at h
      split at h
      · cases h
      · obtain rfl := Option.some.inj h
        exact List.nodup_nil
  | @register m streamId handle create _ ih =>
      unfold flightCheckpointRegisterStream
      split
      · exact ih
      · rename_i hfound
        split
        · have hnew : streamId ∉ m.streams.map Stream.id := by
            intro hmem
            obtain ⟨stream, hstream, hid⟩ := List.mem_map.mp hmem
            refine hfound ?_
            rw [findStream, List.findIdx?_isSome, List.any_eq_true]
            exact ⟨stream, hstream, decide_eq_true hid⟩
          show (List.map Stream.id (_ ++ [_])).Nodup
          rw [List.map_append]
          exact ih.append (List.nodup_singleton _) (List.disjoint_singleton.mpr hnew)
        · exact ih

/-- Streams with one id have one position. -/
theorem Manager.Distinct.position {m : Manager} (h : m.Distinct) {i j : Nat} {id : UInt32}
    (hi : m.streamId? i = some id) (hj : m.streamId? j = some id) : i = j := by
  rw [streamId?, ← List.getElem?_map] at hi hj
  exact (List.getElem?_inj (List.getElem?_eq_some_iff.mp hi).1 h).mp (hi.trans hj.symm)

/-- No step changes the ids of the streams. -/
theorem distinct_step {s s' : State} (h : s.manager.Distinct) (a : Action)
    (hs : s.step a = some s') : s'.manager.Distinct := by
  have hids : s'.manager.streams.map Stream.id = s.manager.streams.map Stream.id := by
    rcases State.manager_step a hs with ⟨i, hm⟩ | ⟨p, slot, slot', -, -, hm⟩ | ⟨flag, cursor, hm⟩
    · rw [hm]
      refine map_modify_of_eq (fun stream => ?_) _ _
      rfl
    · rw [hm]
      refine map_modify_of_eq (fun stream => ?_) _ _
      rfl
    · rw [hm]
  rw [Manager.Distinct, hids]
  exact h

/-! ### What a submit call has done -/

section
variable {k : Nat} {call : SubmitCall} {ds : List (Place × Access)} {p : Place} {x : Access}

/-- A call does everything at its stream. -/
theorem SubmitCall.Did.stream (h : call.Did k ds) (hx : (p, x) ∈ ds) :
    p.stream = call.stream := by
  have hprepared : ∀ {i}, (p, x) ∈ call.prepared k ⟨call.stream, i⟩ → p.stream = call.stream := by
    intro i hmem
    simp only [prepared, List.mem_cons, Prod.mk.injEq, List.not_mem_nil, or_false] at hmem
    rcases hmem with ⟨rfl, -⟩ | ⟨rfl, -⟩ | ⟨rfl, -⟩ <;> rfl
  have hrecorded : ∀ {i gen}, (p, x) ∈ call.recorded k ⟨call.stream, i⟩ gen →
      p.stream = call.stream := by
    intro i gen hmem
    rcases List.mem_append.mp hmem with hmem | hmem
    · exact hprepared hmem
    · simp only [List.mem_cons, Prod.mk.injEq, List.not_mem_nil, or_false] at hmem
      rcases hmem with ⟨rfl, -⟩ | ⟨rfl, -⟩ <;> rfl
  have hsingle : ∀ {i y}, (p, x) ∈ [((⟨call.stream, i⟩ : Place), (y : Access))] →
      p.stream = call.stream := by
    intro i y hmem
    obtain ⟨rfl, -⟩ := Prod.mk.inj (List.mem_singleton.mp hmem)
    rfl
  -- What a call did is one of these lists or a part of it.
  unfold SubmitCall.Did at h
  split at h
  · rw [h] at hx
    cases hx
  · exact hprepared (List.mem_of_mem_take (h ▸ hx))
  · exact hprepared (List.mem_of_mem_take (h ▸ hx))
  · exact hprepared (h ▸ hx)
  · rw [h.2] at hx
    exact (List.mem_append.mp hx).elim hprepared hsingle
  · rw [h] at hx
    exact (List.mem_append.mp hx).elim hprepared hsingle
  · exact hrecorded (h ▸ hx)
  · rcases h with rfl | ⟨i, rc, -, rfl⟩
    · cases hx
    · exact (List.mem_append.mp hx).elim hprepared hsingle
  · obtain ⟨i, rfl⟩ := h
    exact (List.mem_append.mp hx).elim hrecorded hsingle

/-- A call that writes its record has put its event on the device queue, and the record has
the call's stamp. -/
theorem SubmitCall.Did.submitted {stamp : Stamp} (h : call.Did k ds)
    (hx : (p, .submitted k stamp) ∈ ds) :
    (∃ gen, stamp = call.stamp gen) ∧ (p, .enqueue k 0) ∈ ds := by
  have hprepared : ∀ {q}, (p, .submitted k stamp) ∉ call.prepared k q := by
    intro q hmem
    cases (call.mem_prepared hmem).2
  have hrecorded : ∀ {q gen}, (p, .submitted k stamp) ∈ call.recorded k q gen →
      stamp = call.stamp gen ∧ (p, .enqueue k 0) ∈ call.recorded k q gen := by
    intro q gen hmem
    have htail := (List.mem_append.mp hmem).resolve_left hprepared
    simp only [List.mem_cons, Prod.mk.injEq, reduceCtorEq, and_false, false_or,
      Access.submitted.injEq, true_and, List.not_mem_nil, or_false] at htail
    obtain ⟨rfl, rfl⟩ := htail
    exact ⟨rfl, List.mem_append_right _ List.mem_cons_self⟩
  -- Up to the answer of `backend.record` there is no record of a submission.
  unfold SubmitCall.Did at h
  split at h
  · rw [h] at hx
    cases hx
  · exact absurd (List.mem_of_mem_take (h ▸ hx)) hprepared
  · exact absurd (List.mem_of_mem_take (h ▸ hx)) hprepared
  · exact absurd (h ▸ hx) hprepared
  · rw [h.2] at hx
    cases List.mem_singleton.mp ((List.mem_append.mp hx).resolve_left hprepared)
  · rw [h] at hx
    cases List.mem_singleton.mp ((List.mem_append.mp hx).resolve_left hprepared)
  · rename_i i gen _
    obtain ⟨hstamp, henqueue⟩ := hrecorded (h ▸ hx)
    exact ⟨⟨gen, hstamp⟩, h ▸ henqueue⟩
  · rcases h with rfl | ⟨i, rc, -, rfl⟩
    · cases hx
    · cases List.mem_singleton.mp ((List.mem_append.mp hx).resolve_left hprepared)
  · rename_i rc gen _
    obtain ⟨i, rfl⟩ := h
    rcases List.mem_append.mp hx with hx | hx
    · obtain ⟨hstamp, henqueue⟩ := hrecorded hx
      exact ⟨⟨gen, hstamp⟩, List.mem_append_left _ henqueue⟩
    · cases List.mem_singleton.mp hx

/-- A call that has returned with its event on the device queue has written its record. -/
theorem SubmitCall.Did.returned (h : call.Did k ds) (hreturned : call.returned = true)
    (hx : (p, x) ∈ ds) (henqueued : x.isEnqueued = true) :
    ∃ stamp, (p, .submitted k stamp) ∈ ds := by
  unfold SubmitCall.returned at hreturned
  split at hreturned
  · rename_i rc gen hpc
    rw [SubmitCall.Did, hpc] at h
    cases gen with
    | none =>
        rcases h with rfl | ⟨i, rc', hrc', rfl⟩
        · cases hx
        · rcases List.mem_append.mp hx with hx | hx
          · rw [(call.mem_prepared hx).1] at henqueued
            cases henqueued
          · obtain ⟨-, rfl⟩ := Prod.mk.inj (List.mem_singleton.mp hx)
            exact absurd (of_decide_eq_true henqueued) hrc'
    | some gen =>
        obtain ⟨i, rfl⟩ := h
        refine ⟨call.stamp gen, List.mem_append_left _ ?_⟩
        -- Everything that the call has done is at one place.
        have hplace : p = ⟨call.stream, i⟩ := by
          simp only [recorded, prepared, List.cons_append, List.nil_append, List.mem_cons,
            Prod.mk.injEq, List.not_mem_nil, or_false] at hx
          rcases hx with hx | hx | hx | hx | hx | hx <;> exact hx.1
        rw [hplace]
        exact List.mem_append_right _ (List.mem_cons_of_mem _ List.mem_cons_self)
  · cases hreturned

end

section
variable {s s' : State} {a : Action} {k : Nat}

/-- The record of a submission has the stamp of its call, at the call's stream. -/
theorem Told.submitted (h : Told s) {p : Place} {stamp : Stamp}
    (hmem : .submitted k stamp ∈ s.accesses p) :
    ∃ call gen, s.submits[k]? = some call ∧ stamp = call.stamp gen ∧ p.stream = call.stream ∧
      (p, .enqueue k 0) ∈ accessesBy s.trace k := by
  have hby := mem_accessesBy.mpr ⟨rfl, mem_accesses.mp hmem⟩
  have hlt : k < s.submits.length := by
    by_contra hle
    rw [h.none k (Nat.le_of_not_lt hle)] at hby
    cases hby
  have hk : s.submits[k]? = some s.submits[k] := List.getElem?_eq_getElem hlt
  have hdid := h.did k _ hk
  obtain ⟨⟨gen, hstamp⟩, henqueue⟩ := hdid.submitted hby
  exact ⟨_, gen, hk, hstamp, hdid.stream hby, henqueue⟩

/-- A call with a record has its event on the device queue. -/
theorem Told.enqueued_of_reported (h : Told s) {i : Nat} (hk : k ∈ reported s.trace i) :
    k ∈ enqueued s.trace i := by
  obtain ⟨p, x, hx, hi, hf⟩ := mem_callsWith.mp hk
  obtain ⟨hcall, hmem⟩ := mem_accessesBy.mp hx
  cases x with
  | submitted j stamp =>
      obtain rfl := Option.some.inj hcall
      obtain ⟨call, gen, -, -, -, henqueue⟩ := h.submitted (mem_accesses.mpr hmem)
      exact mem_callsWith.mpr ⟨p, _, henqueue, hi, rfl⟩
  | _ => cases hf

/-! ### Calls that do not overlap -/

/-- The step does not start a submit call while another one of its stream is in progress. -/
def State.NotOverlapping (s : State) : Action → Prop
  | .submit id _ _ => ∀ call ∈ s.submits, call.streamId = id → call.returned = true
  | _ => True

instance (s : State) : (a : Action) → Decidable (s.NotOverlapping a)
  | .submit id _ _ =>
      inferInstanceAs (Decidable (∀ call ∈ s.submits, call.streamId = id → call.returned = true))
  | .advance _ _ | .poll _ | .advancePoll _ | .host _ => inferInstanceAs (Decidable True)

/-- Of two submit calls of one stream, one has returned. -/
def State.Alone (s : State) : Prop :=
  ∀ (j k : Nat) (c c' : SubmitCall), j ≠ k → s.submits[j]? = some c → s.submits[k]? = some c' →
    c.stream = c'.stream → c.returned = true ∨ c'.returned = true

/-- A submit call that makes a step has not returned, and stays at its stream. -/
theorem advance_submits {rc : Int} (hs : s.advance k rc = some s') :
    ∃ call pc, s.submits[k]? = some call ∧ call.returned = false ∧
      s'.submits = s.submits.set k { call with pc } := by
  cases State.advance_cases hs with
  | reserve hk hpc | skip hk hpc | full hk hpc =>
      exact ⟨_, _, hk, by rw [SubmitCall.returned, hpc], rfl⟩
  | hold hk hp =>
      refine ⟨_, _, hk, ?_, rfl⟩
      -- A call that has returned holds no slot.
      unfold SubmitCall.returned
      split
      · rename_i hpc
        rw [SubmitCall.place, hpc] at hp
        cases hp
      · rfl

/-- No submit call is in progress at the start. -/
theorem alone_start (m : Manager) : (State.start m).Alone := by
  intro j k c c' _ hj
  simp [State.start] at hj

/-- A submit call that starts finds the old ones of its stream returned. -/
theorem State.Alone.submit (h : s.Alone) {call : SubmitCall} (hcall : ∀ (j : Nat) (c : SubmitCall),
    s.submits[j]? = some c → c.stream = call.stream → c.returned = true)
    (hsubmits : s'.submits = s.submits ++ [call]) : s'.Alone := by
  intro j k c c' hne hj hk hstream
  rw [hsubmits] at hj hk
  rcases getElem?_concat_cases hj with hold | ⟨rfl, rfl⟩
  · rcases getElem?_concat_cases hk with hold' | ⟨-, rfl⟩
    · exact h j k c c' hne hold hold' hstream
    · exact Or.inl (hcall j c hold hstream)
  · rcases getElem?_concat_cases hk with hold' | ⟨rfl, -⟩
    · exact Or.inr (hcall k c' hold' hstream.symm)
    · exact absurd rfl hne

/-- A submit call that makes a step finds the other ones of its stream returned. -/
theorem State.Alone.advance {rc : Int} (h : s.Alone) (hs : s.advance k rc = some s') :
    s'.Alone := by
  obtain ⟨call, pc, hk, hbusy, hsubmits⟩ := advance_submits hs
  have hother : ∀ (j : Nat) (c : SubmitCall), j ≠ k → s.submits[j]? = some c →
      c.stream = call.stream → c.returned = true := by
    intro j c hne hj hstream
    refine (h j k c call hne hj hk hstream).resolve_right ?_
    rw [hbusy]
    exact Bool.false_ne_true
  intro i j c c' hne hi hj hstream
  rw [hsubmits] at hi hj
  rcases getElem?_set_cases hi with ⟨rfl, rfl⟩ | ⟨-, hold⟩
  · rw [List.getElem?_set_ne hne] at hj
    exact Or.inr (hother j c' (Ne.symm hne) hj hstream.symm)
  · rcases getElem?_set_cases hj with ⟨rfl, rfl⟩ | ⟨-, hold'⟩
    · exact Or.inl (hother i c hne hold hstream)
    · exact h i j c c' hne hold hold' hstream

/-- Calls that do not overlap stay alone. -/
theorem State.Alone.step (h : s.Alone) (hinv : Inv s) (hs : s.step a = some s')
    (hnot : s.NotOverlapping a) : s'.Alone := by
  cases State.step_cases hs with
  | @submit id _ _ i _ hfound =>
      -- The streams of the calls are told apart by their ids.
      refine h.submit (fun j c hj hc => ?_) rfl
      have hid := hinv.stream j c hj
      rw [hc, Manager.streamId?_of_findStream hfound] at hid
      exact hnot c (List.mem_of_getElem? hj) (Option.some.inj hid).symm
  | reserve | skip | full | hold => exact h.advance hs
  | refused | pollRefused | poll | acquire | pass | finish | pollHold | pollQuiet | host => exact h

/-- A call that is alone overtakes nobody. -/
theorem State.Alone.notOvertaking (h : s.Alone) (hordered : Ordered s) (a : Action) :
    s.NotOvertaking a := by
  cases a with
  | submit | poll | advancePoll | host => trivial
  | advance k rc =>
      intro call i gen hk hpc j hsub
      have hne : j ≠ k := by
        have hnodup := hsub.nodup (hordered.nodup call.stream)
        exact fun heq => (List.nodup_cons.mp hnodup).1 (List.mem_singleton.mpr heq)
      obtain ⟨p, x, hx, hp, hf⟩ := mem_callsWith.mp (hsub.subset List.mem_cons_self)
      have hlt : j < s.submits.length := by
        by_contra hle
        rw [hordered.told.none j (Nat.le_of_not_lt hle)] at hx
        cases hx
      have hj : s.submits[j]? = some s.submits[j] := List.getElem?_eq_getElem hlt
      have hdid := hordered.told.did j _ hj
      -- The earlier call of the stream has returned, so it has its record.
      have hreturned : s.submits[j].returned = true := by
        refine (h j k _ call hne hj hk ((hdid.stream hx).symm.trans hp)).resolve_right ?_
        rw [SubmitCall.returned, hpc]
        exact Bool.false_ne_true
      obtain ⟨stamp, hsubmitted⟩ := hdid.returned hreturned hx hf
      exact mem_callsWith.mpr ⟨p, _, hsubmitted, hp, rfl⟩

end

end HangAnalyzer.Checkpoint
