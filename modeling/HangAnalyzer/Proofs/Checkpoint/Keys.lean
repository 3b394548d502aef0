import HangAnalyzer.Proofs.Checkpoint.Order

/-!
# `HangAnalyzer.Proofs.Checkpoint.Keys`: whether a checkpoint's key names one submission

The analyzer pairs a confirmation with a submission by the stamp: the stream, the two
ids of the caller and the generation. The generation counts the uses of one slot, and
the stamp does not say which slot. So two submissions with the same ids can have one
stamp, when they use two slots (`key_shared`).

`keyed_iff` says when the stamps of a run are keys: a submission has its stamp for
itself unless another one repeats its ids in a slot that was reserved equally often
before. `Traced` is what a slot's accesses tell of its generation, its last reservation
and its last submission, and carries the proof.
-/

set_option autoImplicit false

namespace HangAnalyzer.Checkpoint

open HangAnalyzer.Lib

/-! ### The reservations and submissions at a slot -/

/-- The call that reserves the slot. -/
def Access.reserve? : Access → Option Nat
  | reserve k => some k
  | _         => none

/-- The call and the stamp of a submission's record. -/
def Access.submission? : Access → Option (Nat × Stamp)
  | submitted k stamp => some (k, stamp)
  | _                 => none

/-- The call whose reservation was the last one. -/
def Phase.call? : Phase → Option Nat
  | free => none
  | reserved k | numbered k | filled k | failed k | queued k => some k
  | submitted k | pending k | querying k | confirmed k => some k

/-- The call whose submission is on record. -/
def Phase.submitter? : Phase → Option Nat
  | submitted k | pending k | querying k | confirmed k => some k
  | _ => none

/-- The call that handed the slot over to the polls. -/
def Phase.publisher? : Phase → Option Nat
  | pending k | querying k | confirmed k => some k
  | _ => none

/-- The reservations that have no number yet. -/
def Phase.unnumbered : Phase → Nat
  | reserved _ => 1
  | _          => 0

/-- What the accesses at a slot tell of its life: every reservation with a number is a
generation, and the call of the phase made the last reservation, the last submission and,
before the polls, its publication. -/
structure Traced (id : UInt32) (as : List Access) (l : Life) : Prop where
  generation : (as.filterMap Access.reserve?).length = l.generation + l.phase.unnumbered
  call : ∀ k, l.phase.call? = some k → (as.filterMap Access.reserve?).getLast? = some k
  submission : ∀ k, l.phase.submitter? = some k →
    (as.filterMap Access.submission?).getLast? = some (k, l.stamp id)
  publication : ∀ k, l.phase.publisher? = some k → .publish k ∈ as

section
variable {id : UInt32} {as : List Access} {a : Access} {l l' : Life}

/-- Nothing has been traced of a life that has not begun. -/
theorem traced_init (id : UInt32) : Traced id [] .init where
  generation := rfl
  call _ h := by cases h
  submission _ h := by cases h
  publication _ h := by cases h

/-- An access that neither reserves nor submits, in a phase of the same call. -/
theorem Traced.keep (h : Traced id as l) (hreserve : a.reserve? = none)
    (hsubmission : a.submission? = none)
    (hgeneration : l'.generation + l'.phase.unnumbered = l.generation + l.phase.unnumbered)
    (hcall : ∀ k, l'.phase.call? = some k → l.phase.call? = some k)
    (hsubmitter : ∀ k, l'.phase.submitter? = some k →
      l.phase.submitter? = some k ∧ l'.stamp id = l.stamp id)
    (hpublisher : ∀ k, l'.phase.publisher? = some k →
      l.phase.publisher? = some k ∨ a = .publish k) :
    Traced id (as ++ [a]) l' := by
  -- Neither list grows.
  have hreserves : (as ++ [a]).filterMap Access.reserve? = as.filterMap Access.reserve? := by
    rw [List.filterMap_append]
    simp [hreserve]
  have hsubmissions : (as ++ [a]).filterMap Access.submission?
      = as.filterMap Access.submission? := by
    rw [List.filterMap_append]
    simp [hsubmission]
  constructor
  · rw [hreserves, h.generation, hgeneration]
  · intro k hk
    rw [hreserves]
    exact h.call k (hcall k hk)
  · intro k hk
    obtain ⟨hold, hstamp⟩ := hsubmitter k hk
    rw [hsubmissions, hstamp]
    exact h.submission k hold
  · intro k hk
    -- The publication is an earlier one, or this access.
    rcases hpublisher k hk with hold | rfl
    · exact List.mem_append_left _ (h.publication k hold)
    · exact List.mem_append_right _ (List.mem_singleton_self _)

/-- Every access is traced. -/
theorem traced_step (h : Traced id as l) (hs : l.step id a = some l') :
    Traced id (as ++ [a]) l' := by
  have hgeneration := h.generation
  cases Life.step_cases hs with
  -- A reservation is the last one, and its number is the new generation.
  | @reserve k hphase =>
      rw [hphase] at hgeneration
      constructor
      · rw [List.filterMap_append, List.length_append, hgeneration]
        rfl
      · intro j hj
        obtain rfl := Option.some.inj hj
        rw [List.filterMap_append]
        exact List.getLast?_concat
      · intro j hj
        cases hj
      · intro j hj
        cases hj
  -- The stamp of the record is that of the slot, with the call of the last reservation.
  | @submit j hphase =>
      have hcall := h.call j (by rw [hphase]; rfl)
      rw [hphase] at hgeneration
      constructor
      · rw [List.filterMap_append, List.length_append, hgeneration]
        rfl
      · intro i hi
        obtain rfl := Option.some.inj hi
        rw [List.filterMap_append]
        simpa [Access.reserve?] using hcall
      · intro i hi
        obtain rfl := Option.some.inj hi
        rw [List.filterMap_append]
        exact List.getLast?_concat
      · intro i hi
        cases hi
  -- No other access reserves a slot or writes the record of a submission.
  | number hphase | fill hphase | enqueue hphase | refuse hphase | publish hphase | acquire hphase
  | load hphase | query hphase | observe hphase | withdraw hphase | confirm hphase | giveUp hphase
  | release hphase =>
      refine h.keep rfl rfl ?_ ?_ ?_ ?_ <;>
        simp_all [Phase.call?, Phase.submitter?, Phase.publisher?, Phase.unnumbered, Life.stamp]

/-- Only a slot whose event is queued gets the record of the submission. -/
theorem queued_of_submitted {k : Nat} {stamp : Stamp}
    (hs : l.step id (.submitted k stamp) = some l') :
    l.phase = .queued k ∧ stamp = l.stamp id := by
  cases Life.step_cases hs with
  | submit hphase => exact ⟨hphase, rfl⟩

/-- Only a slot that is queried is confirmed. -/
theorem querying_of_confirmed {stamp : Stamp} (hs : l.step id (.confirmed stamp) = some l') :
    ∃ k, l.phase = .querying k ∧ stamp = l.stamp id := by
  cases Life.step_cases hs with
  | confirm hphase => exact ⟨_, hphase, rfl⟩

/-- A life is told by its accesses. -/
theorem traced_lived (h : Lived id as l) : Traced id as l := by
  refine Run.history (Traced id) (traced_init id) ?_ h
  intro as t a t' ht hstep
  exact traced_step ht hstep

/-- The last element that a partial function keeps, with what is before and after it. -/
theorem exists_last {α β : Type} {f : α → Option β} {b : β} {l : List α}
    (h : (l.filterMap f).getLast? = some b) :
    ∃ pre x post, l = pre ++ x :: post ∧ f x = some b ∧ post.filterMap f = [] := by
  -- The induction is from the end of the list.
  induction l using List.reverseRecOn with
  | nil => cases h
  | append_singleton l y ih =>
      cases hy : f y with
      | none =>
          have hlast : (l ++ [y]).filterMap f = l.filterMap f := by
            rw [List.filterMap_append]
            simp [hy]
          rw [hlast] at h
          obtain ⟨pre, x, post, rfl, hx, hpost⟩ := ih h
          refine ⟨pre, x, post ++ [y], by simp, hx, ?_⟩
          rw [List.filterMap_append, hpost]
          simp [hy]
      | some c =>
          have hlast : (l ++ [y]).filterMap f = l.filterMap f ++ [c] := by
            rw [List.filterMap_append]
            simp [hy]
          rw [hlast, List.getLast?_concat] at h
          exact ⟨l, y, [], rfl, by rw [hy, Option.some.inj h], rfl⟩

/-- The generation in the stamp of a submission is the number of the reservations before
the call's own, plus one. -/
theorem generation_of_submitted {pre post : List Access} {k : Nat} {stamp : Stamp}
    (h : Lived id (pre ++ .submitted k stamp :: post) l) :
    ∃ before after, pre = before ++ .reserve k :: after ∧
      stamp.generation = UInt64.ofNat ((before.filterMap Access.reserve?).length + 1) := by
  obtain ⟨l₁, hpre, hrest⟩ := Run.append_iff.mp h
  obtain ⟨l₂, hstep, -⟩ := Run.cons_iff.mp hrest
  obtain ⟨hphase, rfl⟩ := queued_of_submitted hstep
  have htraced := traced_lived hpre
  obtain ⟨before, x, after, rfl, hx, hafter⟩ := exists_last (htraced.call k (by rw [hphase]; rfl))
  have hgeneration := htraced.generation
  -- The element found is the reservation of the call itself.
  cases x with
  | reserve j =>
      obtain rfl := Option.some.inj hx
      refine ⟨before, after, rfl, ?_⟩
      rw [hphase, List.filterMap_append, List.filterMap_cons_some hx, hafter,
        List.length_append] at hgeneration
      rw [show (before.filterMap Access.reserve?).length + 1 = l₁.generation from hgeneration]
      rfl
  | _ => cases hx

/-- A confirmation has the stamp of the slot's last submission, which was published. -/
theorem submission_of_confirmed {pre post : List Access} {stamp : Stamp}
    (h : Lived id (pre ++ .confirmed stamp :: post) l) :
    ∃ k, (pre.filterMap Access.submission?).getLast? = some (k, stamp) ∧ .publish k ∈ pre := by
  obtain ⟨l₁, hpre, hrest⟩ := Run.append_iff.mp h
  obtain ⟨l₂, hstep, -⟩ := Run.cons_iff.mp hrest
  obtain ⟨k, hphase, rfl⟩ := querying_of_confirmed hstep
  have htraced := traced_lived hpre
  exact ⟨k, htraced.submission k (by rw [hphase]; rfl), htraced.publication k (by rw [hphase]; rfl)⟩

end

/-! ### The submissions of a run -/

/-- Submit call `k` has returned, with this generation. -/
def State.Succeeded (s : State) (k : Nat) (call : SubmitCall) (gen : UInt64) : Prop :=
  s.submits[k]? = some call ∧ ∃ rc, call.pc = .done rc (some gen)

/-- The slot of call `k` had been reserved `n` times when the call reserved it. -/
def State.Reused (s : State) (k n : Nat) : Prop :=
  ∃ p before after, s.accesses p = before ++ .reserve k :: after ∧
    (before.filterMap Access.reserve?).length = n

/-- The stamps are keys: no two submissions have one stamp, and the only submission with
the stamp of a confirmation is the last one of the slot that is confirmed. -/
structure Keyed (s : State) : Prop where
  unique : ∀ j k call call' gen gen', s.Succeeded j call gen → s.Succeeded k call' gen' →
    call.stamp gen = call'.stamp gen' → j = k
  confirms : ∀ p pre post stamp, s.accesses p = pre ++ .confirmed stamp :: post →
    ∀ k call gen, s.Succeeded k call gen → call.stamp gen = stamp →
      (pre.filterMap Access.submission?).getLast? = some (k, stamp)

/-- No two submissions repeat the ids of each other in slots that had been reserved equally
often, as far as a generation word can count. -/
def KeysApart (s : State) : Prop :=
  ∀ j k call call' gen gen', j ≠ k → s.Succeeded j call gen → s.Succeeded k call' gen' →
    call.streamId = call'.streamId → call.checkpointId = call'.checkpointId →
    call.submittedSeq = call'.submittedSeq →
    ∀ m n, s.Reused j m → s.Reused k n → m % 2 ^ 64 ≠ n % 2 ^ 64

section
variable {s : State} {k n n' : Nat} {call : SubmitCall} {gen : UInt64}

/-- The accesses at a place are those of the trace. -/
theorem mem_accesses {p : Place} {a : Access} : a ∈ s.accesses p ↔ .access p a ∈ s.trace := by
  simp only [State.accesses, accessesAt, List.mem_filterMap]
  constructor
  · rintro ⟨e, he, ha⟩
    cases e with
    | access q b =>
        simp only at ha
        split at ha
        · rename_i hq
          obtain rfl := Option.some.inj ha
          exact hq ▸ he
        · cases ha
    | poolFull | host | polled => cases ha
  · intro h
    exact ⟨_, h, if_pos rfl⟩

/-- The accesses of a call at a place are among those of the place. -/
theorem count_accesses (trace : List Entry) (p : Place) {a : Access} (ha : a.call? = some k) :
    (accessesAt trace p).count a = (accessesBy trace k).count (p, a) := by
  induction trace with
  | nil => rfl
  | cons e trace ih =>
      cases e with
      | access q b =>
          by_cases hq : q = p
          · by_cases hb : b.call? = some k
            · simp only [accessesAt, accessesBy] at ih ⊢
              simp [hq, hb, ih, List.count_cons]
            · -- Then `b` is not `a`.
              have hne : b ≠ a := fun heq => hb (heq ▸ ha)
              simp only [accessesAt, accessesBy] at ih ⊢
              simp [hq, hb, ih, hne]
          · by_cases hb : b.call? = some k
            · simp only [accessesAt, accessesBy] at ih ⊢
              simp [hq, hb, ih]
            · simp only [accessesAt, accessesBy] at ih ⊢
              simp [hq, hb, ih]
      | poolFull | host | polled => exact ih

/-- What a call that returned a generation has done. -/
theorem Told.succeeded (h : Told s) (hk : s.Succeeded k call gen) :
    ∃ p, accessesBy s.trace k = call.recorded k p gen ++ [(p, .publish k)] := by
  obtain ⟨hk, rc, hpc⟩ := hk
  have hdid := h.did k call hk
  rw [SubmitCall.Did, hpc] at hdid
  obtain ⟨i, hdid⟩ := hdid
  exact ⟨_, hdid⟩

/-- A call reserves one slot, once. -/
theorem Told.reused_unique (h : Told s) (hk : s.Succeeded k call gen) (hn : s.Reused k n)
    (hn' : s.Reused k n') : n = n' := by
  obtain ⟨p, hdid⟩ := h.succeeded hk
  -- The call reserves a slot only at the place where it was submitted.
  have hplace : ∀ q, .reserve k ∈ s.accesses q → q = p := by
    intro q hq
    have hmem := mem_accessesBy.mpr ⟨rfl, mem_accesses.mp hq⟩
    rw [hdid] at hmem
    simpa [SubmitCall.recorded, SubmitCall.prepared] using hmem
  -- At that place it reserves once.
  have hcount : (s.accesses p).count (.reserve k) = 1 := by
    rw [State.accesses, count_accesses s.trace p rfl, hdid]
    simp [SubmitCall.recorded, SubmitCall.prepared]
  obtain ⟨q, before, after, hq, rfl⟩ := hn
  obtain ⟨q', before', after', hq', rfl⟩ := hn'
  obtain rfl := hplace q (by rw [hq]; simp)
  obtain rfl := hplace q' (by rw [hq']; simp)
  have hnotin : .reserve k ∉ before ∧ .reserve k ∉ after := by
    rw [hq, List.count_append, List.count_cons_self] at hcount
    exact ⟨List.count_eq_zero.mp (by omega), List.count_eq_zero.mp (by omega)⟩
  -- Both splits are at this reservation, so as many come before.
  rw [hq] at hq'
  obtain ⟨rfl, -, -⟩ := (List.append_cons_inj_of_notMem hnotin.1 hnotin.2).mp hq'
  rfl

/-- The accesses at a place are those of a slot. -/
theorem Inv.slot_of_mem (h : Inv s) {p : Place} {a : Access} (ha : a ∈ s.accesses p) :
    ∃ slot, s.manager.slot? p = some slot := by
  cases hslot : s.manager.slot? p with
  | some slot => exact ⟨slot, rfl⟩
  | none =>
      rw [h.absent p hslot] at ha
      cases ha

/-- The generation of a submission counts how often its slot was reserved before. -/
theorem Inv.reused (h : Inv s) (htold : Told s) (hk : s.Succeeded k call gen) :
    ∃ n, s.Reused k n ∧ gen = UInt64.ofNat (n + 1) := by
  -- The record of the submission is at the place of the call.
  obtain ⟨p, hdid⟩ := htold.succeeded hk
  have hmem : .submitted k (call.stamp gen) ∈ s.accesses p := by
    rw [mem_accesses]
    have hby : (p, .submitted k (call.stamp gen)) ∈ accessesBy s.trace k := by
      rw [hdid]
      simp [SubmitCall.recorded]
    exact (mem_accessesBy.mp hby).2
  obtain ⟨slot, hslot⟩ := h.slot_of_mem hmem
  obtain ⟨id, l, hl⟩ := h.life p slot hslot
  obtain ⟨pre, post, hsplit⟩ := List.append_of_mem hmem
  have hlived := hl.lived
  rw [hsplit] at hlived
  obtain ⟨before, after, rfl, hgeneration⟩ := generation_of_submitted hlived
  refine ⟨_, ⟨p, before, after ++ .submitted k (call.stamp gen) :: post, ?_, rfl⟩, hgeneration⟩
  rw [hsplit, List.append_assoc]
  rfl

/-- A published submission has returned its generation. -/
theorem Told.succeeded_of_publish (h : Told s) {p q : Place} {stamp : Stamp}
    (hpublish : .publish k ∈ s.accesses p) (hsubmitted : .submitted k stamp ∈ s.accesses q) :
    ∃ call gen, s.Succeeded k call gen ∧ call.stamp gen = stamp := by
  have hby := mem_accessesBy.mpr ⟨rfl, mem_accesses.mp hpublish⟩
  have hlt : k < s.submits.length := by
    by_contra hle
    rw [h.none k (Nat.le_of_not_lt hle)] at hby
    cases hby
  have hdid := h.did k s.submits[k] (List.getElem?_eq_getElem hlt)
  -- Every other call has not published a slot.
  have hdone : ∃ rc gen, s.submits[k].pc = .done rc (some gen) := by
    unfold SubmitCall.Did at hdid
    split at hdid
    case h_9 rc gen hpc => exact ⟨rc, gen, hpc⟩
    case h_5 =>
        rw [hdid.2] at hby
        simp [SubmitCall.prepared] at hby
    case h_8 =>
        rcases hdid with hdid | ⟨i, rc, -, hdid⟩
        · rw [hdid] at hby
          cases hby
        · rw [hdid] at hby
          simp [SubmitCall.prepared] at hby
    all_goals
      rw [hdid] at hby
      simp [SubmitCall.prepared, SubmitCall.recorded] at hby
  obtain ⟨rc, gen, hpc⟩ := hdone
  have hk : s.Succeeded k s.submits[k] gen := ⟨List.getElem?_eq_getElem hlt, rc, hpc⟩
  obtain ⟨p', hall⟩ := h.succeeded hk
  have hsub := mem_accessesBy.mpr ⟨rfl, mem_accesses.mp hsubmitted⟩
  rw [hall] at hsub
  obtain ⟨-, rfl⟩ : q = p' ∧ stamp = s.submits[k].stamp gen := by
    simpa [SubmitCall.recorded, SubmitCall.prepared] using hsub
  exact ⟨_, gen, hk, rfl⟩

/-- Two counts with one generation word. -/
theorem generation_eq_iff {x y : Nat} :
    UInt64.ofNat (x + 1) = UInt64.ofNat (y + 1) ↔ x % 2 ^ 64 = y % 2 ^ 64 := by
  rw [← UInt64.toNat_inj, UInt64.toNat_ofNat', UInt64.toNat_ofNat']
  omega

end

section
variable {m : Manager} {as : List Action} {s : State}

/-- Where the stamps are keys, no two submissions with the same ids have one generation, and
so not the same number of reservations before them. -/
theorem apart_of_keyed (hm : m.Made) (h : Run State.step (State.start m) as s)
    (hkeyed : Keyed s) : KeysApart s := by
  have hinv := inv_run hm.fresh h
  have htold := told_run h
  intro j k call call' gen gen' hne hj hk hstream hcheckpoint hseq x y hx hy heq
  obtain ⟨x', hx', rfl⟩ := hinv.reused htold hj
  obtain ⟨y', hy', rfl⟩ := hinv.reused htold hk
  obtain rfl := htold.reused_unique hj hx hx'
  obtain rfl := htold.reused_unique hk hy hy'
  refine hne (hkeyed.unique j k call call' _ _ hj hk ?_)
  rw [SubmitCall.stamp, SubmitCall.stamp, hstream, hcheckpoint, hseq, generation_eq_iff.mpr heq]

/-- Submissions that are apart have different stamps, and then a confirmation can only mean
the last submission of its slot. -/
theorem keyed_of_apart (hm : m.Made) (h : Run State.step (State.start m) as s)
    (hapart : KeysApart s) : Keyed s := by
  have hinv := inv_run hm.fresh h
  have htold := told_run h
  have hunique : ∀ j k call call' gen gen', s.Succeeded j call gen → s.Succeeded k call' gen' →
      call.stamp gen = call'.stamp gen' → j = k := by
    intro j k call call' gen gen' hj hk hstamp
    obtain ⟨hstream, hcheckpoint, hseq, hgen⟩ := Stamp.mk.inj hstamp
    by_contra hne
    obtain ⟨x, hx, rfl⟩ := hinv.reused htold hj
    obtain ⟨y, hy, rfl⟩ := hinv.reused htold hk
    refine hapart j k call call' _ _ hne hj hk hstream hcheckpoint hseq x y hx hy ?_
    exact generation_eq_iff.mp hgen
  refine ⟨hunique, fun p pre post stamp haccesses k call gen hk hstamp => ?_⟩
  have hmem : .confirmed stamp ∈ s.accesses p := by
    rw [haccesses]
    simp
  obtain ⟨slot, hslot⟩ := hinv.slot_of_mem hmem
  obtain ⟨id, l, hl⟩ := hinv.life p slot hslot
  have hlived := hl.lived
  rw [haccesses] at hlived
  obtain ⟨j, hlast, hpublish⟩ := submission_of_confirmed hlived
  -- The last submission of the slot has the stamp too.
  obtain ⟨before, x, after, rfl, hx, -⟩ := exists_last hlast
  obtain rfl : x = .submitted j stamp := by
    cases x with
    | submitted i stamp' =>
        obtain ⟨rfl, rfl⟩ := Prod.mk.inj (Option.some.inj hx)
        rfl
    | _ => cases hx
  obtain ⟨call', gen', hj, hstamp'⟩ := htold.succeeded_of_publish
    (show .publish j ∈ s.accesses p by
      rw [haccesses]
      exact List.mem_append_left _ hpublish)
    (show .submitted j stamp ∈ s.accesses p by
      rw [haccesses]
      simp)
  obtain rfl := hunique k j call call' gen gen' hk hj (hstamp.trans hstamp'.symm)
  exact hlast

end

/-- **Checkpoint keys.** The stamps of a run are keys if and only if no two of its
submissions repeat the stream and the ids of each other in slots that had been reserved
equally often before. -/
theorem keyed_iff {m : Manager} (hm : m.Made) {as : List Action} {s : State}
    (h : Run State.step (State.start m) as s) : Keyed s ↔ KeysApart s :=
  ⟨apart_of_keyed hm h, keyed_of_apart hm h⟩

/-- Two submissions with the same ids, the second one after the confirmation of the first
in the same slot. -/
theorem keyed_reused :
    ∃ s, Run State.step (State.start oneSlot)
        ([Action.submit 7 100 1] ++ List.replicate 6 (Action.advance 0 0) ++
          [Action.poll 1] ++ List.replicate 6 (Action.advancePoll 1) ++
          [Action.submit 7 100 1] ++
          List.replicate 6 (Action.advance 1 0)) s ∧
      s.submits.map SubmitCall.pc = [.done 0 (some 1), .done 0 (some 2)] ∧ Keyed s := by
  have hcomputed : (([Action.submit 7 100 1] ++ List.replicate 6 (Action.advance 0 0) ++
      [Action.poll 1] ++ List.replicate 6 (Action.advancePoll 1) ++ [Action.submit 7 100 1] ++
      List.replicate 6 (Action.advance 1 0)).foldlM State.step (State.start oneSlot)).map (
        fun s => (s.submits.map SubmitCall.pc, s.accesses ⟨0, 0⟩))
      = some ([.done 0 (some 1), .done 0 (some 2)],
          .reserve 0 :: ([.number 0, .fill 0 100 1, .enqueue 0 0, .submitted 0 ⟨7, 1, 100, 1⟩,
            .publish 0, .acquire, .load, .query 1, .confirmed ⟨7, 1, 100, 1⟩, .release] ++
          .reserve 1 :: [.number 1, .fill 1 100 1, .enqueue 1 0, .submitted 1 ⟨7, 1, 100, 2⟩,
            .publish 1])) := by
    decide
  obtain ⟨s, hrun, hs⟩ := Option.map_eq_some_iff.mp hcomputed
  obtain ⟨hsubmits, haccesses⟩ := Prod.mk.inj hs
  have hmade : oneSlot.Made := .register 7 70 _
    (.create (show flightCheckpointCreate 1 = some _ from rfl))
  have htold := told_run hrun
  have hzero : s.Reused 0 0 := ⟨⟨0, 0⟩, [], _, haccesses, rfl⟩
  have hone : s.Reused 1 1 := ⟨⟨0, 0⟩, .reserve 0 :: _, _, haccesses, rfl⟩
  refine ⟨s, hrun, hsubmits, (keyed_iff hmade hrun).mpr ?_⟩
  -- Both calls reserve the one slot, and their numbers differ.
  intro j k call call' gen gen' hne hj hk _ _ _ x y hx hy
  have hcalls : ∀ i c g, s.Succeeded i c g → i = 0 ∨ i = 1 := by
    intro i c g hi
    have hlt := (List.getElem?_eq_some_iff.mp hi.1).1
    have hlen := congrArg List.length hsubmits
    rw [List.length_map] at hlen
    simp only [List.length_cons, List.length_nil] at hlen
    omega
  rcases hcalls j call gen hj with rfl | rfl
  · rcases hcalls k call' gen' hk with rfl | rfl
    · exact absurd rfl hne
    · rw [htold.reused_unique hj hx hzero, htold.reused_unique hk hy hone]
      decide
  · rcases hcalls k call' gen' hk with rfl | rfl
    · rw [htold.reused_unique hj hx hone, htold.reused_unique hk hy hzero]
      decide
    · exact absurd rfl hne

/-- Two submissions with the same ids in two slots. A poll confirms the first one, the
second one is still pending, and the record of the confirmation has the stamp of both. -/
theorem key_shared :
    ∃ s, Run State.step (State.start twoSlots)
        ([Action.submit 7 100 1] ++ List.replicate 6 (Action.advance 0 0) ++
          [Action.submit 7 100 1] ++ List.replicate 6 (Action.advance 1 0) ++
          [Action.poll 1] ++ List.replicate 6 (Action.advancePoll 1)) s ∧
      (∃ call call', s.Succeeded 0 call 1 ∧ s.Succeeded 1 call' 1 ∧
        call.stamp 1 = ⟨7, 1, 100, 1⟩ ∧ call'.stamp 1 = ⟨7, 1, 100, 1⟩) ∧
      .confirmed ⟨7, 1, 100, 1⟩ ∈ s.accesses ⟨0, 0⟩ ∧
      (s.manager.slot? ⟨0, 1⟩).map Slot.state = some .pending ∧ ¬ Keyed s := by
  have hcomputed : (([Action.submit 7 100 1] ++ List.replicate 6 (Action.advance 0 0) ++
      [Action.submit 7 100 1] ++ List.replicate 6 (Action.advance 1 0) ++ [Action.poll 1] ++
      List.replicate 6 (Action.advancePoll 1)).foldlM State.step (State.start twoSlots)).map (
        fun s => (s.submits, s.accesses ⟨0, 0⟩, (s.manager.slot? ⟨0, 1⟩).map Slot.state))
      = some ([⟨7, 100, 1, 0, .done 0 (some 1)⟩, ⟨7, 100, 1, 0, .done 0 (some 1)⟩],
          [.reserve 0, .number 0, .fill 0 100 1, .enqueue 0 0, .submitted 0 ⟨7, 1, 100, 1⟩,
            .publish 0, .acquire, .load, .query 1, .confirmed ⟨7, 1, 100, 1⟩, .release],
          some .pending) := by
    decide
  obtain ⟨s, hrun, hs⟩ := Option.map_eq_some_iff.mp hcomputed
  simp only [Prod.mk.injEq] at hs
  obtain ⟨hsubmits, haccesses, hpending⟩ := hs
  have hzero : s.Succeeded 0 ⟨7, 100, 1, 0, .done 0 (some 1)⟩ 1 := ⟨by rw [hsubmits]; rfl, 0, rfl⟩
  have hone : s.Succeeded 1 ⟨7, 100, 1, 0, .done 0 (some 1)⟩ 1 := ⟨by rw [hsubmits]; rfl, 0, rfl⟩
  refine ⟨s, hrun, ⟨_, _, hzero, hone, rfl, rfl⟩, by rw [haccesses]; decide, hpending, ?_⟩
  -- The two stamps are the same, and the calls are not.
  intro hkeyed
  exact absurd (hkeyed.unique 0 1 _ _ 1 1 hzero hone rfl) (by decide)

end HangAnalyzer.Checkpoint
