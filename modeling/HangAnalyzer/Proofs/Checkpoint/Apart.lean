import HangAnalyzer.Proofs.Checkpoint.Separate

/-!
# `HangAnalyzer.Proofs.Checkpoint.Apart`: two kinds of runs whose stamps are keys

By `keyed_of_apart` it is enough that no two submissions to a stream repeat their ids in
slots that were reserved equally often. That is so when the caller never repeats a pair of
ids (`keyed_of_distinct`), and when a stream has one slot only: then all its submissions are
reservations of this slot, one after another (`keyed_of_one_slot`).
-/

set_option autoImplicit false

namespace HangAnalyzer.Checkpoint

open HangAnalyzer.Lib

/-- The streams that were registered have as many slots as the manager gives each. -/
theorem Manager.Made.shaped {m : Manager} (h : m.Made) : m.Shaped := by
  induction h with
  | create h =>
      unfold flightCheckpointCreate at h
      split at h
      · cases h
      · obtain rfl := Option.some.inj h
        intro stream hstream
        cases hstream
  | register streamId handle create _ ih => exact ih.register streamId handle create

/-- A manager whose streams have one slot has one place for each stream. -/
theorem Manager.Shaped.slot_eq_zero {m : Manager} (h : m.Shaped) (hone : m.slotsPerStream = 1)
    {p : Place} {slot : Slot} (hslot : m.slot? p = some slot) : p.slot = 0 := by
  obtain ⟨stream, hstream, hslot⟩ := Option.bind_eq_some_iff.mp hslot
  have hlt := (List.getElem?_eq_some_iff.mp hslot).1
  rw [h stream (List.mem_of_getElem? hstream), hone] at hlt
  exact Nat.lt_one_iff.mp hlt

section
variable {m : Manager} {as : List Action} {s : State}

/-- The streams have different ids in every state of a run. -/
theorem distinct_run (hm : m.Made) (h : Run State.step (State.start m) as s) :
    s.manager.Distinct :=
  Run.invariant (fun x => x.manager.Distinct) (fun _ a _ hx hs => distinct_step hx a hs) h
    hm.distinct

/-- The reservation after `n` others is the one at position `n`. -/
theorem getElem?_reserves {p : Place} {before after : List Access} {k : Nat}
    (h : s.accesses p = before ++ .reserve k :: after) :
    ((s.accesses p).filterMap Access.reserve?)[(before.filterMap Access.reserve?).length]?
      = some k := by
  have hreserve : (Access.reserve k).reserve? = some k := rfl
  rw [h, List.filterMap_append, List.filterMap_cons_some hreserve,
    List.getElem?_append_right (Nat.le_refl _), Nat.sub_self, List.getElem?_cons_zero]

/-- A submission to a stream with one slot has reserved this slot. -/
theorem reserve_of_succeeded (hm : m.Made) (h : Run State.step (State.start m) as s)
    (hone : m.slotsPerStream = 1) {k n : Nat} {call : SubmitCall} {gen : UInt64}
    (hk : s.Succeeded k call gen) (hn : s.Reused k n) :
    ((s.accesses ⟨call.stream, 0⟩).filterMap Access.reserve?)[n]? = some k := by
  have hinv := inv_run hm.fresh h
  have hsame := sameSlots_run h
  obtain ⟨p, before, after, hp, rfl⟩ := hn
  have hmem : .reserve k ∈ s.accesses p := by
    rw [hp]
    exact List.mem_append_right _ List.mem_cons_self
  obtain ⟨slot, hslot⟩ := hinv.slot_of_mem hmem
  have hzero : p.slot = 0 := (hsame.shaped hm.shaped).slot_eq_zero
    (hsame.slotsPerStream.trans hone) hslot
  have hstream : p.stream = call.stream :=
    ((told_run h).did k call hk.1).stream (mem_accessesBy.mpr ⟨rfl, mem_accesses.mp hmem⟩)
  obtain rfl : p = ⟨call.stream, 0⟩ := by rw [← hzero, ← hstream]
  exact getElem?_reserves hp

/-- A run whose submissions to a stream all have different ids. -/
theorem keyed_of_distinct (hm : m.Made) (h : Run State.step (State.start m) as s)
    (hdistinct : ∀ j k call call' gen gen', j ≠ k → s.Succeeded j call gen →
      s.Succeeded k call' gen' → call.streamId = call'.streamId →
      (call.checkpointId, call.submittedSeq) ≠ (call'.checkpointId, call'.submittedSeq)) :
    Keyed s := by
  refine keyed_of_apart hm h ?_
  intro j k call call' gen gen' hne hj hk hstream hcheckpoint hseq
  exact absurd (Prod.ext hcheckpoint hseq) (hdistinct j k call call' gen gen' hne hj hk hstream)

/-- A run with one slot for each stream, which is not reserved more often than a generation
word can count. -/
theorem keyed_of_one_slot (hm : m.Made) (h : Run State.step (State.start m) as s)
    (hone : m.slotsPerStream = 1)
    (hfew : ∀ p, ((s.accesses p).filterMap Access.reserve?).length ≤ 2 ^ 64) : Keyed s := by
  refine keyed_of_apart hm h ?_
  intro j k call call' gen gen' hne hj hk hid _ _ x y hx hy heq
  have hinv := inv_run hm.fresh h
  have hstream := hinv.stream k call' hk.1
  rw [← hid] at hstream
  have hsame := (distinct_run hm h).position (hinv.stream j call hj.1) hstream
  have hxj := reserve_of_succeeded hm h hone hj hx
  have hyk := reserve_of_succeeded hm h hone hk hy
  rw [← hsame] at hyk
  -- Both are positions among the reservations of one slot, so the words tell them apart.
  have hlt := (List.getElem?_eq_some_iff.mp hxj).1
  have hlt' := (List.getElem?_eq_some_iff.mp hyk).1
  have hbound := hfew ⟨call.stream, 0⟩
  rw [Nat.mod_eq_of_lt (by omega), Nat.mod_eq_of_lt (by omega)] at heq
  rw [heq, hyk] at hxj
  exact hne (Option.some.inj hxj).symm

end

end HangAnalyzer.Checkpoint
