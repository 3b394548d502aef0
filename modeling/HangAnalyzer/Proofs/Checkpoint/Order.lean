import Mathlib.Data.List.Nodup
import HangAnalyzer.Checkpoint.Device
import HangAnalyzer.Proofs.Checkpoint.Calls
import HangAnalyzer.Proofs.Checkpoint.LifeCycle

/-!
# `HangAnalyzer.Proofs.Checkpoint.Order`: the order of the submissions of a stream

A submit call enqueues its event on the device and writes its record later, in two
steps. Two calls of one stream can make these steps in different orders
(`records_swapped`). `submitted_in_order` says for which runs the records are in the
order of the device: those in which no call overtakes another one.
-/

set_option autoImplicit false

namespace HangAnalyzer.Checkpoint

open HangAnalyzer.Lib

/-! ### The calls of a stream that made a step -/

/-- The calls in the order of their `SUBMITTED` records. -/
abbrev reported (trace : List Entry) (i : Nat) : List Nat :=
  callsWith Access.isSubmitted trace i

section
variable {f : Access → Bool} {trace : List Entry} {i k : Nat}

/-- The calls of a trace, one part after the other. -/
theorem callsWith_append (f : Access → Bool) (t₁ t₂ : List Entry) (i : Nat) :
    callsWith f (t₁ ++ t₂) i = callsWith f t₁ i ++ callsWith f t₂ i := by
  rw [callsWith, List.filterMap_append]
  rfl

/-- The accesses of a call are those of the trace that it made. -/
theorem mem_accessesBy {p : Place} {a : Access} :
    (p, a) ∈ accessesBy trace k ↔ a.call? = some k ∧ .access p a ∈ trace := by
  simp only [accessesBy, List.mem_filterMap]
  constructor
  · rintro ⟨e, he, hpa⟩
    -- Only an access has a caller.
    cases e with
    | access q b =>
        simp only at hpa
        split at hpa
        · rename_i hcall
          obtain ⟨rfl, rfl⟩ := Prod.mk.inj (Option.some.inj hpa)
          exact ⟨hcall, he⟩
        · cases hpa
    | poolFull | host | polled => cases hpa
  · rintro ⟨hcall, he⟩
    exact ⟨_, he, if_pos hcall⟩

/-- A call is counted at a stream when one of its accesses there is. -/
theorem mem_callsWith :
    k ∈ callsWith f trace i ↔ ∃ p a, (p, a) ∈ accessesBy trace k ∧ p.stream = i ∧ f a := by
  simp only [callsWith, List.mem_filterMap, mem_accessesBy]
  constructor
  · intro ⟨e, he, hk⟩
    -- Only an access counts, if it is one of the stream.
    cases e with
    | access p a =>
        simp only at hk
        split at hk
        · rename_i hpa
          exact ⟨p, a, ⟨hk, he⟩, hpa.1, hpa.2⟩
        · cases hk
    | poolFull | host | polled => cases hk
  · intro ⟨p, a, ⟨hcall, he⟩, hi, hf⟩
    exact ⟨_, he, by simp [hi, hf, hcall]⟩

end

/-! ### The sequence numbers of the records -/

/-- The entries that write a record, with the sequence numbers of the records. -/
def numbered (trace : List Entry) : List (Entry × Nat) :=
  (trace.filter fun e => e.record?.isSome).zipIdx 1

/-- The `SUBMITTED` record of call `k`, at the stream with the position `i`, has the
sequence number `n`. -/
def SubmittedAt (trace : List Entry) (i k n : Nat) : Prop :=
  ∃ p stamp, p.stream = i ∧ (Entry.access p (.submitted k stamp), n) ∈ numbered trace

/-- The records of the stream at the position `i` have their sequence numbers in the order
in which the device got the events. -/
def InOrder (trace : List Entry) (i : Nat) : Prop :=
  ∀ j k, [j, k].Sublist (enqueued trace i) →
    ∀ m n, SubmittedAt trace i j m → SubmittedAt trace i k n → m < n

section
variable {t u : List Entry} {i k n : Nat}

/-- The sequence number of a record is at most the number of records. -/
theorem SubmittedAt.le_length (h : SubmittedAt t i k n) : n ≤ (numbered t).length := by
  obtain ⟨p, stamp, -, h⟩ := h
  rw [numbered] at h ⊢
  have hlt := (List.mem_zipIdx h).2.1
  rw [List.length_zipIdx]
  omega

/-- A record that is written keeps its sequence number. -/
theorem SubmittedAt.append (h : SubmittedAt t i k n) (u : List Entry) :
    SubmittedAt (t ++ u) i k n := by
  obtain ⟨p, stamp, hi, h⟩ := h
  refine ⟨p, stamp, hi, ?_⟩
  rw [numbered, List.filter_append, List.zipIdx_append]
  exact List.mem_append_left _ h

/-- The records of a trace have smaller sequence numbers than those after it. -/
theorem submittedAt_append (h : SubmittedAt (t ++ u) i k n) :
    SubmittedAt t i k n ∨ (numbered t).length < n ∧
      ∃ p stamp, p.stream = i ∧ Entry.access p (.submitted k stamp) ∈ u := by
  obtain ⟨p, stamp, hi, h⟩ := h
  rw [numbered, List.filter_append, List.zipIdx_append] at h
  rcases List.mem_append.mp h with h | h
  · exact Or.inl ⟨p, stamp, hi, h⟩
  · have hle := (List.mem_zipIdx h).1
    have hmem := (List.mem_filter.mp (List.fst_mem_of_mem_zipIdx h)).1
    refine Or.inr ⟨?_, p, stamp, hi, hmem⟩
    rw [numbered, List.length_zipIdx]
    omega

/-- The calls with a record are those whose record has a sequence number. -/
theorem mem_reported_iff : k ∈ reported t i ↔ ∃ n, SubmittedAt t i k n := by
  constructor
  · intro h
    obtain ⟨p, x, hx, hi, hf⟩ := mem_callsWith.mp h
    obtain ⟨hcall, hmem⟩ := mem_accessesBy.mp hx
    -- The record is an entry of the trace, and it has a place among the records.
    cases x with
    | submitted j stamp =>
        obtain rfl := Option.some.inj hcall
        have hfilter : .access p (.submitted j stamp) ∈ t.filter fun e => e.record?.isSome :=
          List.mem_filter_of_mem hmem rfl
        obtain ⟨m, hm⟩ := List.mem_iff_getElem?.mp hfilter
        refine ⟨1 + m, p, stamp, hi, ?_⟩
        rw [numbered, List.mk_mem_zipIdx_iff_le_and_getElem?_sub]
        exact ⟨by omega, by rwa [Nat.add_sub_cancel_left]⟩
    | _ => cases hf
  · intro ⟨n, p, stamp, hi, h⟩
    have hmem := (List.mem_filter.mp (List.fst_mem_of_mem_zipIdx h)).1
    exact mem_callsWith.mpr ⟨p, _, mem_accessesBy.mpr ⟨rfl, hmem⟩, hi, rfl⟩

end

/-! ### What a step adds to the trace -/

/-- The steps of a submit call that the order is about: its event gets on the device
queue, or it writes its record. -/
theorem SubmitCall.hold_kind {k : Nat} {call : SubmitCall} {slot slot' : Slot} {rc : Int}
    {x : Access} {pc : SubmitPc} (hhold : call.hold k slot rc = some (slot', x, pc)) :
    (x.isEnqueued = false ∧ x.isSubmitted = false) ∨
      (∃ i gen, call.pc = .enqueue i gen ∧ x = .enqueue k 0) ∨
      ∃ i gen, call.pc = .report i gen ∧ x = .submitted k (call.stamp gen) := by
  cases hold_cases hhold with
  | number | fill | release | publish => exact Or.inl ⟨rfl, rfl⟩
  | @enqueue i gen hpc => exact Or.inr (Or.inl ⟨i, gen, hpc, rfl⟩)
  | refuse hpc hrc =>
      -- The device refused the event.
      exact Or.inl ⟨decide_eq_false hrc, rfl⟩
  | @report i gen _ hpc => exact Or.inr (Or.inr ⟨i, gen, hpc, rfl⟩)

namespace State

variable {s s' : State} {a : Action}

/-- A step adds entries that the order is not about, or it is one of the two steps. -/
theorem trace_step (hs : s.step a = some s') :
    (∃ es, s'.trace = s.trace ++ es ∧ ∀ p x, Entry.access p x ∈ es →
        x.isEnqueued = false ∧ x.isSubmitted = false) ∨
      ∃ k rc call i gen, a = .advance k rc ∧ s.submits[k]? = some call ∧
        (call.pc = .enqueue i gen ∧
            s'.trace = s.trace ++ [.access ⟨call.stream, i⟩ (.enqueue k 0)] ∨
          call.pc = .report i gen ∧
            s'.trace = s.trace ++ [.access ⟨call.stream, i⟩ (.submitted k (call.stamp gen))]) := by
  -- An access that belongs to no submit call is neither.
  have hnone : ∀ x : Access, x.call? = none → x.isEnqueued = false ∧ x.isSubmitted = false := by
    intro x hx
    cases x <;> first | exact ⟨rfl, rfl⟩ | cases hx
  have hone : ∀ p x, x.isEnqueued = false ∧ x.isSubmitted = false →
      ∀ q y, Entry.access q y ∈ [Entry.access p x] →
        y.isEnqueued = false ∧ y.isSubmitted = false := by
    intro p x hx q y hy
    obtain ⟨-, rfl⟩ := Entry.access.inj (List.mem_singleton.mp hy)
    exact hx
  have hsame : s.trace = s.trace ++ [] := (List.append_nil _).symm
  cases step_cases hs with
  | refused | submit | skip | poll | pass | pollQuiet => exact Or.inl ⟨[], hsame, by simp⟩
  | full | pollRefused | finish | host => exact Or.inl ⟨_, rfl, by simp⟩
  | reserve | acquire => exact Or.inl ⟨_, rfl, hone _ _ ⟨rfl, rfl⟩⟩
  | @hold k rc call p _ _ _ _ hk hp _ hhold =>
      rcases call.hold_kind hhold with hx | ⟨i, gen, hpc, rfl⟩ | ⟨i, gen, hpc, rfl⟩
      · exact Or.inl ⟨_, rfl, hone _ _ hx⟩
      · rw [SubmitCall.place, hpc] at hp
        obtain rfl := Option.some.inj hp
        exact Or.inr ⟨k, rc, call, i, gen, rfl, hk, Or.inl ⟨hpc, rfl⟩⟩
      · rw [SubmitCall.place, hpc] at hp
        obtain rfl := Option.some.inj hp
        exact Or.inr ⟨k, rc, call, i, gen, rfl, hk, Or.inr ⟨hpc, rfl⟩⟩
  | pollHold _ _ _ _ hhold =>
      exact Or.inl ⟨_, rfl, hone _ _ (hnone _ (PollCall.hold_call? hhold))⟩

end State

/-! ### The steps in the order of the device -/

/-- The step is not the record of a call whose stream has an earlier event on the device
queue without a record. -/
def State.NotOvertaking (s : State) : Action → Prop
  | .advance k _ => ∀ (call : SubmitCall) i gen, s.submits[k]? = some call →
      call.pc = .report i gen → ∀ j, [j, k].Sublist (enqueued s.trace call.stream) →
        j ∈ reported s.trace call.stream
  | _ => True

section
variable {s s' : State} {a : Action} {k i : Nat} {call : SubmitCall} {gen : UInt64}

/-- Nothing of the preparation of a slot is about the order. -/
theorem SubmitCall.mem_prepared {p q : Place} {x : Access} (h : (p, x) ∈ call.prepared k q) :
    x.isEnqueued = false ∧ x.isSubmitted = false := by
  simp only [prepared, List.mem_cons, Prod.mk.injEq, List.not_mem_nil, or_false] at h
  rcases h with ⟨-, rfl⟩ | ⟨-, rfl⟩ | ⟨-, rfl⟩
  · exact ⟨rfl, rfl⟩
  · exact ⟨rfl, rfl⟩
  · exact ⟨rfl, rfl⟩

/-- A call that is about to enqueue its event has not done so, and has no record. -/
theorem Told.enqueue (h : Told s) (hk : s.submits[k]? = some call) (hpc : call.pc = .enqueue i gen)
    (st : Nat) : k ∉ enqueued s.trace st ∧ k ∉ reported s.trace st := by
  have hdid := h.did k call hk
  rw [SubmitCall.Did, hpc] at hdid
  -- Before its enqueue the call has only prepared its slot.
  constructor
  · intro hmem
    obtain ⟨p, x, hx, -, hf⟩ := mem_callsWith.mp hmem
    rw [hdid] at hx
    rw [(call.mem_prepared hx).1] at hf
    cases hf
  · intro hmem
    obtain ⟨p, x, hx, -, hf⟩ := mem_callsWith.mp hmem
    rw [hdid] at hx
    rw [(call.mem_prepared hx).2] at hf
    cases hf

/-- A call that is about to write its record has its event on the device queue. -/
theorem Told.report (h : Told s) (hk : s.submits[k]? = some call) (hpc : call.pc = .report i gen) :
    k ∈ enqueued s.trace call.stream ∧ ∀ st, k ∉ reported s.trace st := by
  have hdid := h.did k call hk
  rw [SubmitCall.Did, hpc] at hdid
  -- It has enqueued its marker, and it has written no record.
  constructor
  · refine mem_callsWith.mpr ⟨⟨call.stream, i⟩, .enqueue k 0, ?_, rfl, rfl⟩
    rw [hdid]
    exact List.mem_append_right _ (List.mem_singleton_self _)
  · intro st hmem
    obtain ⟨p, x, hx, -, hf⟩ := mem_callsWith.mp hmem
    rw [hdid] at hx
    rcases List.mem_append.mp hx with hx | hx
    · rw [(call.mem_prepared hx).2] at hf
      cases hf
    · obtain ⟨-, rfl⟩ := Prod.mk.inj (List.mem_singleton.mp hx)
      cases hf

/-- A pair in order, in a list with one more element. -/
theorem pair_sublist_concat {j x : Nat} {l : List Nat} :
    [j, k].Sublist (l ++ [x]) ↔ [j, k].Sublist l ∨ k = x ∧ j ∈ l := by
  have hreverse : ∀ l : List Nat, [j, k].Sublist l ↔ [k, j].Sublist l.reverse := by
    intro l
    exact List.reverse_sublist.symm
  rw [hreverse, hreverse l, List.reverse_append]
  show [k, j].Sublist (x :: l.reverse) ↔ _
  rw [List.sublist_cons_iff]
  constructor
  · -- The new element is the later one of the pair, or it is not in it.
    intro h
    rcases h with h | ⟨r, hr, hsub⟩
    · exact Or.inl h
    · obtain ⟨rfl, rfl⟩ := List.cons.inj hr
      exact Or.inr ⟨rfl, List.mem_reverse.mp (List.singleton_sublist.mp hsub)⟩
  · intro h
    rcases h with h | ⟨rfl, hj⟩
    · exact Or.inl h
    · exact Or.inr ⟨[j], rfl, List.singleton_sublist.mpr (List.mem_reverse.mpr hj)⟩

/-- Entries that the order is not about leave the lists as they are. -/
theorem callsWith_silent {f : Access → Bool} {trace es : List Entry}
    (h : ∀ p x, Entry.access p x ∈ es → f x = false) (st : Nat) :
    callsWith f (trace ++ es) st = callsWith f trace st := by
  have hnil : callsWith f es st = [] := by
    rw [callsWith, List.filterMap_eq_nil_iff]
    intro e he
    cases e with
    | access p x => simp [h p x he]
    | poolFull | host | polled => rfl
  rw [callsWith_append, hnil, List.append_nil]

/-- A single access counts its call at its own stream. -/
theorem callsWith_one {f : Access → Bool} {x : Access} {p : Place} (hx : x.call? = some k)
    (st : Nat) : callsWith f [.access p x] st = if p.stream = st ∧ f x then [k] else [] := by
  by_cases h : p.stream = st ∧ f x <;> simp [callsWith, h, hx]

/-! ### The invariant of the runs without overtaking -/

/-- The records are in order, and a call with a record has all earlier events of its
stream on record. -/
structure Ordered (s : State) : Prop where
  told : Told s
  nodup : ∀ st, (enqueued s.trace st).Nodup
  inOrder : ∀ st, InOrder s.trace st
  closed : ∀ st j k, [j, k].Sublist (enqueued s.trace st) → k ∈ reported s.trace st →
    j ∈ reported s.trace st

/-- Nothing is out of order at the start. -/
theorem ordered_start (m : Manager) : Ordered (State.start m) where
  told := told_run (Run.nil_iff.mpr rfl)
  nodup _ := List.nodup_nil
  inOrder _ _ _ h := by cases h
  closed _ _ _ h := by cases h

/-- The device queue gets the event of a call. -/
theorem Ordered.enqueue (h : Ordered s) (htold : Told s') (hk : s.submits[k]? = some call)
    (hpc : call.pc = .enqueue i gen)
    (htrace : s'.trace = s.trace ++ [.access ⟨call.stream, i⟩ (.enqueue k 0)]) : Ordered s' := by
  have hold : ∀ st, reported s'.trace st = reported s.trace st := by
    intro st
    rw [htrace, reported, callsWith_append, callsWith_one (k := k) rfl]
    simp [Access.isSubmitted]
  have hnew : ∀ st, enqueued s'.trace st
      = enqueued s.trace st ++ if call.stream = st then [k] else [] := by
    intro st
    rw [htrace, enqueued, callsWith_append, callsWith_one (k := k) rfl]
    simp [Access.isEnqueued]
  -- The new pairs end with `k`, which has no record.
  have hpair : ∀ st j l, [j, l].Sublist (enqueued s'.trace st) → l ∈ reported s.trace st →
      [j, l].Sublist (enqueued s.trace st) := by
    intro st j l hsub hl
    rw [hnew] at hsub
    split at hsub
    · rcases pair_sublist_concat.mp hsub with hsub | ⟨rfl, -⟩
      · exact hsub
      · exact absurd hl (h.told.enqueue hk hpc st).2
    · rwa [List.append_nil] at hsub
  have hseq : ∀ st j n, SubmittedAt s'.trace st j n → SubmittedAt s.trace st j n := by
    intro st j n hn
    rw [htrace] at hn
    rcases submittedAt_append hn with hn | ⟨-, p, stamp, -, hmem⟩
    · exact hn
    · cases List.mem_singleton.mp hmem
  constructor
  · exact htold
  · intro st
    rw [hnew]
    split
    · exact (h.nodup st).append (List.nodup_singleton k)
        (List.disjoint_singleton.mpr (h.told.enqueue hk hpc st).1)
    · rw [List.append_nil]
      exact h.nodup st
  · intro st j l hsub m n hm hn
    have hm := hseq st j m hm
    have hn := hseq st l n hn
    exact h.inOrder st j l (hpair st j l hsub (mem_reported_iff.mpr ⟨n, hn⟩)) m n hm hn
  · intro st j l hsub hl
    rw [hold] at hl ⊢
    exact h.closed st j l (hpair st j l hsub hl) hl

/-- A call that overtakes nobody writes its record. -/
theorem Ordered.report (h : Ordered s) (htold : Told s') (hk : s.submits[k]? = some call)
    (hpc : call.pc = .report i gen)
    (htrace : s'.trace = s.trace ++ [.access ⟨call.stream, i⟩ (.submitted k (call.stamp gen))])
    (hnext : ∀ j, [j, k].Sublist (enqueued s.trace call.stream) →
      j ∈ reported s.trace call.stream) : Ordered s' := by
  have hold : ∀ st, enqueued s'.trace st = enqueued s.trace st := by
    intro st
    rw [htrace, enqueued, callsWith_append, callsWith_one (k := k) rfl]
    simp [Access.isEnqueued]
  have hnew : ∀ st l, l ∈ reported s'.trace st ↔
      l ∈ reported s.trace st ∨ st = call.stream ∧ l = k := by
    intro st l
    rw [htrace, reported, callsWith_append, callsWith_one (k := k) rfl]
    by_cases hst : call.stream = st
    · simp [Access.isSubmitted, hst]
    · simp [Access.isSubmitted, hst, Ne.symm hst]
  -- A sequence number is an old one, or the new one of `k`.
  have hseq : ∀ st l n, SubmittedAt s'.trace st l n → SubmittedAt s.trace st l n ∨
      (numbered s.trace).length < n ∧ st = call.stream ∧ l = k := by
    intro st l n hn
    rw [htrace] at hn
    rcases submittedAt_append hn with hn | ⟨hlt, p, stamp, hst, hmem⟩
    · exact Or.inl hn
    · obtain ⟨rfl, heq⟩ := Entry.access.inj (List.mem_singleton.mp hmem)
      obtain ⟨rfl, -⟩ := Access.submitted.inj heq
      exact Or.inr ⟨hlt, hst.symm, rfl⟩
  have hclosed : ∀ st j l, [j, l].Sublist (enqueued s.trace st) → l ∈ reported s'.trace st →
      j ∈ reported s.trace st := by
    intro st j l hsub hl
    rcases (hnew st l).mp hl with hl | ⟨rfl, rfl⟩
    · exact h.closed st j l hsub hl
    · exact hnext j hsub
  constructor
  · exact htold
  · intro st
    rw [hold]
    exact h.nodup st
  · intro st j l hsub m n hm hn
    rw [hold] at hsub
    have hj := hclosed st j l hsub (mem_reported_iff.mpr ⟨n, hn⟩)
    rcases hseq st j m hm with hm | ⟨-, -, rfl⟩
    · rcases hseq st l n hn with hn | ⟨hlt, -, -⟩
      · exact h.inOrder st j l hsub m n hm hn
      · exact Nat.lt_of_le_of_lt hm.le_length hlt
    · exact absurd hj ((h.told.report hk hpc).2 st)
  · intro st j l hsub hl
    rw [hold] at hsub
    exact (hnew st j).mpr (Or.inl (hclosed st j l hsub hl))

/-- A step that overtakes nobody keeps the order. -/
theorem Ordered.step (h : Ordered s) (hs : s.step a = some s') (hnot : s.NotOvertaking a) :
    Ordered s' := by
  have htold := told_step h.told a hs
  rcases State.trace_step hs with ⟨es, htrace, hes⟩ |
    ⟨k, rc, call, i, gen, rfl, hk, ⟨hpc, htrace⟩ | ⟨hpc, htrace⟩⟩
  · -- A step with no such entry leaves the order as it is.
    have henqueued : ∀ st, enqueued s'.trace st = enqueued s.trace st := by
      intro st
      rw [htrace]
      exact callsWith_silent (fun p x hx => (hes p x hx).1) st
    have hreported : ∀ st, reported s'.trace st = reported s.trace st := by
      intro st
      rw [htrace]
      exact callsWith_silent (fun p x hx => (hes p x hx).2) st
    have hseq : ∀ st l n, SubmittedAt s'.trace st l n → SubmittedAt s.trace st l n := by
      intro st l n hn
      rw [htrace] at hn
      rcases submittedAt_append hn with hn | ⟨-, p, stamp, -, hmem⟩
      · exact hn
      · cases (hes p _ hmem).2
    constructor
    · exact htold
    · intro st
      rw [henqueued]
      exact h.nodup st
    · intro st j l hsub m n hm hn
      rw [henqueued] at hsub
      exact h.inOrder st j l hsub m n (hseq st j m hm) (hseq st l n hn)
    · intro st j l hsub hl
      rw [henqueued] at hsub
      rw [hreported] at hl ⊢
      exact h.closed st j l hsub hl
  · -- The marker is enqueued, or the record is written.
    exact h.enqueue htold hk hpc htrace
  · exact h.report htold hk hpc htrace (hnot call i gen hk hpc)

/-! ### A call that was overtaken -/

/-- Some call of a stream is on record, and an earlier event of its stream is not, or has
a later record. -/
def Overtaken (trace : List Entry) : Prop :=
  ∃ st j k n, [j, k].Sublist (enqueued trace st) ∧ SubmittedAt trace st k n ∧
    ∀ m, SubmittedAt trace st j m → n ≤ m

/-- What was overtaken stays overtaken. -/
theorem Overtaken.append {t : List Entry} (h : Overtaken t) (es : List Entry) :
    Overtaken (t ++ es) := by
  obtain ⟨st, j, k, n, hsub, hn, hlater⟩ := h
  refine ⟨st, j, k, n, ?_, hn.append es, fun m hm => ?_⟩
  · rw [enqueued, callsWith_append]
    exact hsub.trans (List.sublist_append_left _ _)
  · rcases submittedAt_append hm with hm | ⟨hlt, -⟩
    · exact hlater m hm
    · exact Nat.le_of_lt (Nat.lt_of_le_of_lt hn.le_length hlt)

/-- What was overtaken stays so, whatever comes later. -/
theorem Overtaken.step (h : Overtaken s.trace) (hs : s.step a = some s') : Overtaken s'.trace := by
  obtain ⟨es, htrace⟩ := State.trace_grows hs
  exact htrace ▸ h.append es

/-- The record of a call. -/
theorem State.trace_report {rc : Int} (hs : s.advance k rc = some s')
    (hk : s.submits[k]? = some call) (hpc : call.pc = .report i gen) :
    s'.trace = s.trace ++ [.access ⟨call.stream, i⟩ (.submitted k (call.stamp gen))] := by
  cases advance_cases hs with
  -- The call is at its slot, about to report.
  | reserve hk' hpc' | skip hk' hpc' | full hk' hpc' =>
      obtain rfl := Option.some.inj (hk'.symm.trans hk)
      cases hpc'.symm.trans hpc
  -- Its next access is the record of the submission.
  | hold hk' hp _ hhold =>
      obtain rfl := Option.some.inj (hk'.symm.trans hk)
      rw [SubmitCall.place, hpc] at hp
      rw [SubmitCall.hold, hpc] at hhold
      obtain rfl := Option.some.inj hp
      obtain ⟨-, rfl, -⟩ := Prod.mk.inj (Option.some.inj hhold)
      rfl

/-- A call that does not wait for an earlier one overtakes it. -/
theorem overtaken_of_not (hs : s.step a = some s') (hnot : ¬ s.NotOvertaking a) :
    Overtaken s'.trace := by
  cases a with
  | submit | poll | advancePoll | host => exact absurd trivial hnot
  | advance k rc =>
      simp only [State.NotOvertaking, not_forall] at hnot
      obtain ⟨call, i, gen, hk, hpc, j, hsub, hj⟩ := hnot
      have htrace := State.trace_report hs hk hpc
      have hsub' : [j, k].Sublist (enqueued s'.trace call.stream) := by
        rw [htrace, enqueued, callsWith_append]
        exact hsub.trans (List.sublist_append_left _ _)
      -- The record of `k` is the last one.
      have hseq : SubmittedAt s'.trace call.stream k ((numbered s.trace).length + 1) := by
        refine ⟨⟨call.stream, i⟩, call.stamp gen, rfl, ?_⟩
        rw [htrace, numbered, List.filter_append, List.zipIdx_append, numbered,
          List.length_zipIdx, Nat.add_comm]
        exact List.mem_append_right _ (List.mem_singleton_self _)
      refine ⟨call.stream, j, k, _, hsub', hseq, fun m hm => ?_⟩
      rw [htrace] at hm
      rcases submittedAt_append hm with hm | ⟨hlt, -⟩
      · exact absurd (mem_reported_iff.mpr ⟨m, hm⟩) hj
      · exact hlt

end

/-- **The order of the submissions of a stream.** A run in which no call writes its record
while an earlier event of its stream has none keeps the records of every stream in the
order of the device. A run at whose end every event on a device queue has its record, and
in which the records are in that order, had no other steps. -/
theorem submitted_in_order {m : Manager} {as : List Action} {s : State}
    (h : Run State.step (State.start m) as s) :
    (Run.Along State.step (fun t a _ => t.NotOvertaking a) (State.start m) as →
      ∀ i, InOrder s.trace i) ∧
    ((∀ i, ∀ k ∈ enqueued s.trace i, k ∈ reported s.trace i) → (∀ i, InOrder s.trace i) →
      Run.Along State.step (fun t a _ => t.NotOvertaking a) (State.start m) as) := by
  constructor
  · -- The condition holds at each step, so the order is kept.
    intro halong
    have hordered : Ordered s := by
      refine Run.invariant_along Ordered (fun t a t' ht hs hnot => ?_) halong h (ordered_start m)
      exact ht.step hs hnot
    exact hordered.inOrder
  · -- A step that overtakes leaves two records out of order for good.
    intro hall horder
    refine Run.along_of_not (fun _ => True) (fun t => Overtaken t.trace) ?_ ?_ ?_ h trivial ?_
    · intro _ _ _ _ _
      trivial
    · intro t a t' _ ht hs
      exact ht.step hs
    · intro t a t' _ hs hnot
      exact overtaken_of_not hs hnot
    · intro ⟨st, j, k, n, hsub, hn, hlater⟩
      obtain ⟨l, hl⟩ := mem_reported_iff.mp (hall st j (hsub.subset (List.mem_cons_self)))
      have hlt := horder st j k hsub l n hl hn
      have hle := hlater l hl
      omega

/-- A manager with one stream of two slots. -/
def twoSlots : Manager :=
  (flightCheckpointRegisterStream ⟨2, [], false, 0⟩ 7 70 fun i => .ok i).1

/-- Two submit calls at once on one stream, which make their steps in turn. -/
theorem submitted_in_order_alternating :
    ∃ s, Run State.step (State.start twoSlots)
        ([Action.submit 7 100 1, Action.submit 7 101 2] ++
          (List.replicate 6 [Action.advance 0 0, Action.advance 1 0]).flatten) s ∧
      enqueued s.trace 0 = [0, 1] ∧ reported s.trace 0 = [0, 1] ∧
      Run.Along State.step (fun t a _ => t.NotOvertaking a) (State.start twoSlots)
        ([Action.submit 7 100 1, Action.submit 7 101 2] ++
          (List.replicate 6 [Action.advance 0 0, Action.advance 1 0]).flatten) := by
  have hcomputed : (([Action.submit 7 100 1, Action.submit 7 101 2] ++
      (List.replicate 6 [Action.advance 0 0, Action.advance 1 0]).flatten).foldlM State.step
        (State.start twoSlots)).map State.trace
      = some [.access ⟨0, 0⟩ (.reserve 0), .access ⟨0, 1⟩ (.reserve 1),
          .access ⟨0, 0⟩ (.number 0), .access ⟨0, 1⟩ (.number 1),
          .access ⟨0, 0⟩ (.fill 0 100 1), .access ⟨0, 1⟩ (.fill 1 101 2),
          .access ⟨0, 0⟩ (.enqueue 0 0), .access ⟨0, 1⟩ (.enqueue 1 0),
          .access ⟨0, 0⟩ (.submitted 0 ⟨7, 1, 100, 1⟩),
          .access ⟨0, 1⟩ (.submitted 1 ⟨7, 2, 101, 1⟩),
          .access ⟨0, 0⟩ (.publish 0), .access ⟨0, 1⟩ (.publish 1)] := by
    decide
  obtain ⟨s, hrun, htrace⟩ := Option.map_eq_some_iff.mp hcomputed
  have henqueued : ∀ i, enqueued s.trace i = if 0 = i then [0, 1] else [] := by
    intro i
    by_cases hi : 0 = i <;> simp [htrace, callsWith, Access.isEnqueued, Access.call?, hi]
  have hreported : ∀ i, reported s.trace i = if 0 = i then [0, 1] else [] := by
    intro i
    by_cases hi : 0 = i <;> simp [htrace, callsWith, Access.isSubmitted, Access.call?, hi]
  have hnumbered : numbered s.trace
      = [(.access ⟨0, 0⟩ (.submitted 0 ⟨7, 1, 100, 1⟩), 1),
          (.access ⟨0, 1⟩ (.submitted 1 ⟨7, 2, 101, 1⟩), 2)] := by
    rw [htrace]
    decide
  refine ⟨s, hrun, henqueued 0, hreported 0, (submitted_in_order hrun).2 ?_ ?_⟩
  · intro i k hk
    rw [henqueued] at hk
    rwa [hreported]
  · intro i j k hsub m n hj hk
    -- There is one pair on the queue, and it has the records 1 and 2.
    have hpair : [j, k] = [0, 1] := by
      rw [henqueued] at hsub
      split at hsub
      · exact hsub.eq_of_length rfl
      · cases List.sublist_nil.mp hsub
    obtain ⟨rfl, htail⟩ := List.cons.inj hpair
    obtain ⟨rfl, -⟩ := List.cons.inj htail
    obtain ⟨p, stamp, -, hm⟩ := hj
    obtain ⟨q, stamp', -, hn⟩ := hk
    simp only [hnumbered, List.mem_cons, List.not_mem_nil, or_false, Prod.mk.injEq,
      Entry.access.injEq, Access.submitted.injEq] at hm hn
    omega

/-- Two submit calls at once on one stream. Call 0 is the first on the device queue and
the second on record. -/
theorem records_swapped :
    ∃ s, Run State.step (State.start twoSlots)
        ([Action.submit 7 100 1, Action.submit 7 101 2] ++
          List.replicate 4 (Action.advance 0 0) ++ List.replicate 6 (Action.advance 1 0) ++
          List.replicate 2 (Action.advance 0 0)) s ∧
      s.submits.map SubmitCall.pc = [.done 0 (some 1), .done 0 (some 1)] ∧
      ¬ InOrder s.trace 0 := by
  have hcomputed : (([Action.submit 7 100 1, Action.submit 7 101 2] ++
      List.replicate 4 (Action.advance 0 0) ++ List.replicate 6 (Action.advance 1 0) ++
      List.replicate 2 (Action.advance 0 0)).foldlM State.step (State.start twoSlots)).map (
        fun s => (s.submits.map SubmitCall.pc, enqueued s.trace 0, numbered s.trace))
      = some ([.done 0 (some 1), .done 0 (some 1)], [0, 1],
          [(.access ⟨0, 1⟩ (.submitted 1 ⟨7, 2, 101, 1⟩), 1),
            (.access ⟨0, 0⟩ (.submitted 0 ⟨7, 1, 100, 1⟩), 2)]) := by
    decide
  obtain ⟨s, hrun, hs⟩ := Option.map_eq_some_iff.mp hcomputed
  simp only [Prod.mk.injEq] at hs
  obtain ⟨hsubmits, henqueued, hnumbered⟩ := hs
  refine ⟨s, hrun, hsubmits, fun horder => ?_⟩
  -- The marker of call 0 is first on the queue, and its record is the second one.
  have hlt := horder 0 1 (by rw [henqueued]) 2 1
    ⟨⟨0, 0⟩, _, rfl, by rw [hnumbered]; exact List.mem_cons_of_mem _ (List.mem_singleton_self _)⟩
    ⟨⟨0, 1⟩, _, rfl, by rw [hnumbered]; exact List.mem_cons_self⟩
  omega

end HangAnalyzer.Checkpoint
