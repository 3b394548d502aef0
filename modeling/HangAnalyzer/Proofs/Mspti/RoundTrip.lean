import Mathlib.Data.Nat.ModEq
import HangAnalyzer.Proofs.Mspti.Untorn

/-!
# `HangAnalyzer.Proofs.Mspti.RoundTrip`: decoding undoes encoding

Any number of sequential `record` calls, below `2 ^ 64`, followed by `read_ring`: the
events are the last calls, as many as fit, in order and with every field
(`readFile_recordCalls`). After `2 ^ 64` calls the counter is back at zero and the reader
returns none of them (`readFile_wrapped_counter`).

Sequential calls are one of the runs of `HangAnalyzer.Proofs.Mspti.Untorn` in which the
reader starts after the last call, so each call of the window stays.
-/

set_option autoImplicit false

namespace HangAnalyzer.Mspti

open HangAnalyzer.Lib
open Relation (ReflTransGen)

/-- Calls of the owner record one after the other. -/
theorem recordCalls_eq (r : MsptiState) (calls : List Call) :
    recordCalls (some r) r.owner calls
      = some { r with mem := r.mem.recordAll r.owner calls } := by
  induction calls generalizing r with
  | nil => rfl
  | cons c calls ih =>
      have hstep : record (some r) r.owner c = some { r with mem := r.mem.record r.owner c } := by
        simp [record]
      rw [recordCalls, List.foldl_cons, hstep]
      exact ih { r with mem := r.mem.record r.owner c }

/-- The arguments of a call of the list. -/
theorem argsOf_eq {calls : List Call} (k : Nat) (c : Call) (h : calls[k]? = some c) :
    argsOf calls k = c := by
  rw [argsOf, List.getD_eq_getElem?_getD, h]
  rfl

/-- The reader on the file of a recorder is the reader on its mapping. -/
theorem readFile_eq {slots : Nat} {s : Shared Cell.width} :
    readFile (Ring.fileBytes s.mem slots)
      = (readRing (128 + slots * 192)).eval (view slots s) := by
  rw [readFile, Ring.length_fileBytes]
  rfl

/-- The window has as many numbers as fit. -/
theorem window_eq (capacity written : Nat) :
    window capacity written
      = List.range' (written - min capacity written + 1) (min capacity written) := by
  have hfirst : max 1 (written + 1 - capacity) = written - min capacity written + 1 := by omega
  have hcount : written + 1 - (written - min capacity written + 1) = min capacity written := by
    omega
  rw [window, hfirst, hcount]

/-- The window after `calls` is made of the last of them. -/
theorem map_window {α : Type} (capacity : Nat) (calls : List α) (f : Nat → α → Event)
    (g : Nat → Event) (hg : ∀ k (hk : k < calls.length), g (k + 1) = f k calls[k]) :
    (window capacity calls.length).map g
      = (calls.mapIdx f).drop (calls.length - min capacity calls.length) := by
  rw [window_eq]
  apply List.ext_getElem
  · -- The window and the list have the same length, and the number is the position.
    rw [List.length_map, List.length_range', List.length_drop, List.length_mapIdx]
    omega
  · intro i h₁ h₂
    have hi : i < min capacity calls.length := by
      rwa [List.length_map, List.length_range'] at h₁
    rw [List.getElem_map, List.getElem_range', List.getElem_drop, List.getElem_mapIdx, Nat.one_mul,
      Nat.add_right_comm]
    exact hg _ (by omega)

/-- The events of the window are those of the last calls, with every field. -/
theorem events_window (capacity : Nat) (getpid : UInt32) (calls : List Call) :
    ((window capacity calls.length).map fun seq => (argsOf calls (seq - 1)).event getpid seq)
      = (calls.mapIdx fun k c => c.event getpid (k + 1)).drop
        (calls.length - min capacity calls.length) := by
  refine map_window capacity calls _ _ fun k hk => ?_
  rw [Nat.add_sub_cancel, argsOf_eq k calls[k] (List.getElem?_eq_getElem hk)]

section
variable {capacity : UInt64} (getpid : UInt32) (wallNs monoNs : UInt64) {calls : List Call}

/-- The reader finds every call of the window. -/
theorem events_recordAll (hcapacity : 0 < capacity) (hfew : calls.length < 2 ^ 64) :
    readFile (Ring.fileBytes ((initRing capacity getpid wallNs monoNs).recordAll getpid calls)
        capacity.toNat)
      = .ok ((initRing capacity getpid wallNs monoNs).header capacity.toNat calls.length,
          (window capacity.toNat calls.length).map
            fun seq => (argsOf calls (seq - 1)).event getpid seq) := by
  have hm := fresh_initRing capacity getpid wallNs monoNs hcapacity
  obtain ⟨ops, s, hrun, hexclusive, hwords, hmem, hlen, hdone⟩ :=
    exists_read_after getpid (argsOf calls) hm calls argsOf_eq
  rw [← hmem, readFile_eq]
  obtain ⟨t, found, hr, hstart, hts, rfl, hfound⟩ :=
    exists_found hm (reads_of_live hrun hexclusive hwords) (by omega)
  rw [hr, hlen]
  rw [hlen] at hfound
  have hsome : ∀ seq ∈ window capacity.toNat calls.length,
      found seq = some ((argsOf calls (seq - 1)).event getpid seq) := by
    intro seq hseq
    obtain ⟨x, y, htx, hyt, hreads⟩ := hfound seq hseq
    rw [mem_window] at hseq
    obtain ⟨k, rfl⟩ : ∃ k, seq = k + 1 := ⟨seq - 1, by omega⟩
    have hlen' := Protocol.length_later hyt
    rcases reads_readSlot hm (hstart.trans htx) (by omega) (by omega) hreads with
      ⟨hsome, -⟩ | ⟨-, z, hxz, hzy, rfl, hnumber⟩
    · exact hsome
    · -- The words are read after the last call, and the slot holds call `k`.
      have hk : z.calls[k]? = some z.calls[k] := List.getElem?_eq_getElem (by omega)
      have htodo := hdone _ (List.mem_of_getElem? hk)
      have hfinished : Protocol.Finished z k := ⟨z.calls[k].seq, by rw [hk, ← htodo]⟩
      refine absurd (number_of_finished hm hstart (by omega) hfinished
        fun j fl hkj hj => ?_) hnumber
      have hlt := (List.getElem?_eq_some_iff.mp hj).1
      have horderly := Protocol.orderly_later hstart Protocol.orderly_start
      have hnumbered : Protocol.Numbered (initRing capacity getpid wallNs monoNs)
          (msptiProtocol getpid capacity.toNat) z :=
        ⟨hm.writeSeq, (by omega : z.calls.length < 2 ^ 64)⟩
      rw [hnumbered.seq_eq horderly.tracked hj, slotOf_succ _ (by omega),
        slotOf_succ _ (by omega)]
      intro hsame
      -- Two numbers of one slot are `capacity` apart.
      have hdvd := (Nat.modEq_iff_dvd' (Nat.le_of_lt hkj)).mp hsame.symm
      have hle := Nat.le_of_dvd (by omega) hdvd
      omega
  congr 2
  rw [← List.flatMap_singleton' (List.map _ _), List.flatMap_map]
  exact List.flatMap_congr fun seq hseq => by rw [hsome seq hseq]; rfl

/-- **Decoding undoes encoding** below `2 ^ 64` calls: the header shows their number and
how many were overwritten, and the events are the last calls, as many as fit, in order
and with every field. -/
theorem readFile_recordCalls (capacity : UInt64) (getpid : UInt32) (wallNs monoNs : UInt64)
    (calls : List Call) (hcapacity : 0 < capacity) (hfew : calls.length < 2 ^ 64) :
    ∃ r h events,
      recordCalls (some ⟨initRing capacity getpid wallNs monoNs, capacity.toNat, getpid⟩) getpid
        calls = some r ∧
      readFile r.file = .ok (h, events) ∧
      h = ⟨getpid.toNat, capacity.toNat, calls.length, wallNs.toNat, monoNs.toNat, 0,
        calls.length - capacity.toNat⟩ ∧
      events.Pairwise (·.seq < ·.seq) ∧
      events = (calls.mapIdx fun k c => c.event getpid (k + 1)).drop
        (calls.length - min capacity.toNat calls.length) := by
  obtain ⟨-, -, -, -, hpid, hwall, hmono⟩ := read_initRing capacity getpid wallNs monoNs
  -- A new ring has dropped nothing.
  have hdropped : (initRing capacity getpid wallNs monoNs).read (.header .dropped) = 0 := by
    simp [initRing, Memory.read_store_of_ne]
  refine ⟨_, _, _, recordCalls_eq _ calls, events_recordAll getpid wallNs monoNs hcapacity hfew,
    ?_, ?_, events_window capacity.toNat getpid calls⟩
  · rw [Ring.header, hpid, hwall, hmono, hdropped]
  · rw [List.pairwise_map, window]
    exact List.pairwise_lt_range'

/-- Three kernels on a ring of two slots: the short name of the last one replaces the long
name of the first. -/
theorem readFile_three_kernels :
    ∃ r h events,
      recordCalls (some ⟨initRing 2 7 1000 50, 2, 7⟩) 7
        [⟨5, 0, 3, 9, 100, 120, 0, some ⟨[109, 97, 116, 109, 117, 108], by decide⟩, none, 130, 8⟩,
          ⟨77, 0, 3, 10, 120, 125, 0, none, some ⟨[255], by decide⟩, 135, 8⟩,
          ⟨5, 0, 3, 11, 125, 140, 0, some ⟨[97, 100, 100], by decide⟩, none, 150, 8⟩] = some r ∧
      readFile r.file = .ok (h, events) ∧ h.overwritten = 1 ∧
      events.map (fun e => (e.seq, e.kind.label, e.name, e.detail))
        = [(2, "unknown_77", "", "\uFFFD"), (3, "kernel_done", "add", "")] := by
  obtain ⟨r, h, events, hr, hread, hh, -, hevents⟩ :=
    readFile_recordCalls 2 7 1000 50
      [⟨5, 0, 3, 9, 100, 120, 0, some ⟨[109, 97, 116, 109, 117, 108], by decide⟩, none, 130, 8⟩,
        ⟨77, 0, 3, 10, 120, 125, 0, none, some ⟨[255], by decide⟩, 135, 8⟩,
        ⟨5, 0, 3, 11, 125, 140, 0, some ⟨[97, 100, 100], by decide⟩, none, 150, 8⟩]
      (by decide) (by decide)
  refine ⟨r, h, events, hr, hread, ?_, ?_⟩
  · rw [hh]
    rfl
  · rw [hevents]
    decide

end

/-- After `2 ^ 64` calls the counter is back at zero: the reader returns no event, and
counts none as overwritten. -/
theorem readFile_wrapped_counter :
    ∃ r h,
      recordCalls (some ⟨initRing 64 7 1000 50, 64, 7⟩) 7
        (List.replicate (2 ^ 64) ⟨5, 0, 3, 9, 100, 120, 0, none, none, 130, 8⟩) = some r ∧
      readFile r.file = .ok (h, []) ∧ h.overwritten = 0 := by
  have hwrap : ∀ calls : List Call, calls.length = 2 ^ 64 →
      ∃ r h, recordCalls (some ⟨initRing 64 7 1000 50, 64, 7⟩) 7 calls = some r ∧
        readFile r.file = .ok (h, []) ∧ h.overwritten = 0 := by
    intro calls hlen
    have hm := fresh_initRing 64 7 1000 50 (by decide)
    obtain ⟨ops, s, hrun, hexclusive, hwords, hmem, hcalls, -⟩ :=
      exists_read_after 7 (argsOf calls) hm calls argsOf_eq
    have hread := eval_wrapped hm hrun hexclusive hwords (hcalls.trans hlen)
    refine ⟨_, (initRing 64 7 1000 50).header 64 0, recordCalls_eq _ calls, ?_, rfl⟩
    show readFile (Ring.fileBytes ((initRing 64 7 1000 50).recordAll 7 calls) 64) = _
    rw [← hmem, readFile_eq]
    exact hread
  exact hwrap _ List.length_replicate

end HangAnalyzer.Mspti
