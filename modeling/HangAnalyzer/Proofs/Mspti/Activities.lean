import HangAnalyzer.Proofs.Mspti.Delivered
import HangAnalyzer.Proofs.Mspti.Recording

/-!
# `HangAnalyzer.Proofs.Mspti.Activities`: from a buffer to the reader of the file

`activities_of_run` goes the whole way of an activity: msPTI writes it into a buffer, a call
of `buffer_complete` reads it and makes a `record` call, the stores of that call go into the
ring, and a reader of the file finds the event. Every step may come between any two others,
and the reader reads word by word while the calls store.

The condition is that of a ring that can be read while it is written to: no two `record`
calls in progress have the same slot. It holds by itself as long as the ring has not wrapped
(`exclusive_of_fit`).
-/

set_option autoImplicit false

namespace HangAnalyzer.Mspti

/-- What the calls of a list say, as the reader shows it. -/
theorem map_arguments_mapIdx (pid : UInt32) (calls : List Call) :
    (calls.mapIdx fun k c => c.event pid (k + 1)).map Event.arguments
      = calls.map fun c => c.arguments.event pid 0 := by
  refine List.ext_getElem (by simp) fun i h₁ h₂ => ?_
  simp only [List.getElem_map, List.getElem_mapIdx]
  rfl

/-- The activities among events are told by their kind, which is among the arguments. -/
theorem filter_map_arguments (events : List Event) :
    (events.filter fun e => e.kind.isActivity).map Event.arguments
      = (events.map Event.arguments).filter fun e => e.kind.isActivity := by
  rw [List.filter_map]
  rfl

/-- Events that are found for some of the numbers. -/
theorem sublist_of_found {found : Nat → Option Event} {g : Nat → Event} {seqs : List Nat}
    (h : ∀ seq ∈ seqs, found seq = none ∨ found seq = some (g seq)) :
    (seqs.flatMap fun seq => (found seq).toList).Sublist (seqs.map g) := by
  induction seqs with
  | nil => exact .slnil
  | cons seq seqs ih =>
      obtain ⟨hseq, hseqs⟩ := List.forall_mem_cons.mp h
      rw [List.flatMap_cons, List.map_cons]
      rcases hseq with hnone | hsome
      · rw [hnone]
        exact (ih hseqs).cons _
      · rw [hsome]
        exact (ih hseqs).cons_cons _

/-- The window of an earlier moment has the numbers of some of all calls, in order. -/
theorem window_sublist {capacity written n : Nat} (h : written ≤ n) :
    (window capacity written).Sublist (window n n) := by
  rw [window_eq, window_eq, Nat.min_self, Nat.sub_self]
  have hsplit : n = (written - min capacity written)
      + (min capacity written + (n - written)) := by omega
  conv => rhs; rw [hsplit, ← List.range'_append_1, ← List.range'_append_1]
  rw [Nat.zero_add, Nat.add_comm (written - min capacity written) 1]
  exact (List.sublist_append_left _ _).trans (List.sublist_append_right _ _)

namespace Recording

open HangAnalyzer.Lib
open HangAnalyzer.Mspti.Buffers (Pool samplePool)
open Relation (ReflTransGen)

section
variable {pool : Pool} {pid : UInt32} {capacity wallNs monoNs : UInt64}
  {contents : Nat → List Buffers.Activity} {s : State} {as : List Action}
  {r : Except String (RingHeader × List Event)}

/-- The events of all calls made so far, as they would be in a ring without an end. -/
def State.events (s : State) (pid : UInt32) : List Event :=
  (s.buffers.recorded.map Prod.snd).mapIdx fun k c => c.event pid (k + 1)

/-- No event is listed twice. -/
theorem nodup_events : (s.events pid).Nodup := by
  have hseqs : (s.events pid).map Event.seq
      = (List.range (s.buffers.recorded.map Prod.snd).length).map Nat.succ := by
    refine List.ext_getElem (by simp [State.events]) fun i h₁ h₂ => ?_
    simp only [State.events, List.getElem_map, List.getElem_mapIdx, List.getElem_range]
    rfl
  refine List.Nodup.of_map Event.seq ?_
  rw [hseqs]
  exact List.nodup_range.map Nat.succ_injective

/-- The reader finds events of the calls that have been made, in the order of their claims,
and the event of every call that stays. -/
theorem events_of_run (hcapacity : 0 < capacity)
    (h : Run (State.step pool pid capacity)
      (State.start capacity pid wallNs monoNs contents) as s) (hdone : s.reader = .done r)
    (hexclusive : SlotsExclusive pool pid capacity wallNs monoNs contents as)
    (hfew : s.buffers.recorded.length < 2 ^ 64) :
    ∃ header events, r = .ok (header, events) ∧ events.Sublist (s.events pid) ∧
      ∀ (k : Nat) (e : Option Nat × Call), s.buffers.recorded[k]? = some e →
        AtWords pool pid capacity wallNs monoNs contents as (Stays capacity.toNat k) →
        e.2.event pid (k + 1) ∈ events := by
  have hm := fresh_initRing capacity pid wallNs monoNs hcapacity
  have hlen := (claimed_start.run h).1.length
  have hfew' : s.ring.calls.length < 2 ^ 64 := by omega
  obtain ⟨t, found, rfl, hstart, hts, -, hfound⟩ :=
    exists_found (Q := fun _ _ => True) hm (reading_of_run h hdone hexclusive (by
      intro _ _ _ _ _ _ _ _ _ _ _ _
      trivial)) hfew'
  refine ⟨_, _, rfl, ?_, fun k e he hstays => ?_⟩
  · have hcases : ∀ seq ∈ window capacity.toNat t.calls.length, found seq = none ∨
        found seq = some ((argsOf (s.buffers.recorded.map Prod.snd) (seq - 1)).event pid seq) := by
      intro seq hseq
      obtain ⟨k, rfl⟩ : ∃ k, seq = k + 1 := by
        rw [mem_window] at hseq
        exact ⟨seq - 1, by omega⟩
      exact (found_cases hm hstart hts hfew' hfound hseq).imp_right And.left
    have hle : t.calls.length ≤ (s.buffers.recorded.map Prod.snd).length := by
      rw [List.length_map, ← hlen]
      exact Protocol.length_later hts
    -- All calls are the window of a ring that is large enough.
    have hall := map_window (s.buffers.recorded.map Prod.snd).length
      (s.buffers.recorded.map Prod.snd) (fun k c => c.event pid (k + 1))
      (fun seq => (argsOf (s.buffers.recorded.map Prod.snd) (seq - 1)).event pid seq)
      fun k hk => by rw [Nat.add_sub_cancel, argsOf_eq k _ (List.getElem?_eq_getElem hk)]
    rw [Nat.min_self, Nat.sub_self, List.drop_zero] at hall
    rw [State.events, ← hall]
    exact (sublist_of_found hcases).trans ((window_sublist hle).map _)
  · -- The same run, read with the property of call `k` at each word.
    obtain ⟨t', found', hr, hstart', hts', hfourth, hfound'⟩ :=
      exists_found hm (reading_of_run h hdone hexclusive hstays) hfew'
    obtain ⟨hmem, hsome⟩ := found_of_stays hm hstart' hfew' (hfourth.1 rfl) hfound'
    obtain ⟨-, hevents⟩ := Prod.mk.inj (Except.ok.inj hr)
    have hcall : (s.buffers.recorded.map Prod.snd)[k]? = some e.2 := by
      rw [List.getElem?_map, he]
      rfl
    rw [hevents, ← argsOf_eq k _ hcall]
    exact List.mem_flatMap.mpr ⟨k + 1, hmem, by rw [hsome]; exact List.mem_singleton_self _⟩

/-- If the ring has not wrapped and the reader has read the counter after the last store, it
finds the events of all calls. -/
theorem events_of_fit (hcapacity : 0 < capacity)
    (h : Run (State.step pool pid capacity)
      (State.start capacity pid wallNs monoNs contents) as s)
    (hfit : s.buffers.recorded.length ≤ capacity.toNat)
    (hfinished : AtWords pool pid capacity wallNs monoNs contents as fun x w =>
      w = 4 → ∀ k < s.buffers.recorded.length, Protocol.Finished x k)
    {events : List Event} (hsub : events.Sublist (s.events pid))
    (hmem : ∀ (k : Nat) (e : Option Nat × Call), s.buffers.recorded[k]? = some e →
      AtWords pool pid capacity wallNs monoNs contents as (Stays capacity.toNat k) →
      e.2.event pid (k + 1) ∈ events) : events = s.events pid := by
  refine hsub.eq_of_length_le (List.Nodup.subperm nodup_events fun e he => ?_).length_le
  obtain ⟨k, hk, rfl⟩ := List.getElem_of_mem he
  have hlt : k < s.buffers.recorded.length := by
    rwa [State.events, List.length_mapIdx, List.length_map] at hk
  have hnot := notClaimedAgain_of_fit h hcapacity hfit (Nat.lt_of_lt_of_le hlt hfit)
  have hfound := hmem k _ (List.getElem?_eq_getElem hlt)
    fun pre a post x y heq hpre hstep hread w next hnext =>
      ⟨fun hw => hfinished pre a post x y heq hpre hstep hread w next hnext hw k hlt,
        fun _ _ => hnot pre a post x y heq hpre hstep⟩
  simpa only [State.events, List.getElem_mapIdx, List.getElem_map] using hfound

/-- **Every activity once**: as long as no two `record` calls in progress have the same slot
of the ring, and below `2 ^ 64` calls, whatever comes between the steps of the calls, their
stores and the words that the reader reads: the activities that the reader finds are among
those that the `buffer_complete` calls have read from the buffers given back to them, none of
them twice and each of them whole. The event of a call that was published before the reader
read the counter, and whose slot is not claimed again before the reader has passed it, is
found. If the ring has not wrapped and the reader has read the counter after the last store,
it finds all of them, and those of each buffer in order. -/
theorem activities_of_run (hcapacity : 0 < capacity)
    (h : Run (State.step pool pid capacity)
      (State.start capacity pid wallNs monoNs contents) as s) (hdone : s.reader = .done r)
    (hexclusive : SlotsExclusive pool pid capacity wallNs monoNs contents as)
    (hfew : s.buffers.recorded.length < 2 ^ 64) :
    ∃ header events, r = .ok (header, events) ∧
      ((events.filter fun e => e.kind.isActivity).map Event.arguments).Subperm
        (s.buffers.completions.flatMap fun c =>
          (c.records.take c.position).filterMap (Buffers.Activity.event pid)) ∧
      (∀ (k : Nat) (e : Option Nat × Call), s.buffers.recorded[k]? = some e →
        AtWords pool pid capacity wallNs monoNs contents as (Stays capacity.toNat k) →
        e.2.event pid (k + 1) ∈ events) ∧
      (s.buffers.recorded.length ≤ capacity.toNat →
        AtWords pool pid capacity wallNs monoNs contents as (fun x w =>
          w = 4 → ∀ k < s.buffers.recorded.length, Protocol.Finished x k) →
        ((events.filter fun e => e.kind.isActivity).map Event.arguments).Perm
          (s.buffers.completions.flatMap fun c =>
            (c.records.take c.position).filterMap (Buffers.Activity.event pid)) ∧
        ∀ c ∈ s.buffers.completions,
          ((c.records.take c.position).filterMap (Buffers.Activity.event pid)).Sublist
            (events.map Event.arguments)) := by
  obtain ⟨bs, hbs, hstop⟩ := buffers_of_run h
  have hd := Buffers.delivers_of_run hbs hstop
  have hperm := hd.perm_activities pid
  obtain ⟨header, events, hr, hsub, hmem⟩ := events_of_run hcapacity h hdone hexclusive hfew
  have harguments : (s.events pid).map Event.arguments
      = (s.buffers.recorded.map Prod.snd).map fun c => c.arguments.event pid 0 :=
    map_arguments_mapIdx pid _
  refine ⟨header, events, hr, ?_, hmem, fun hfit hfinished => ?_⟩
  · have hsome := (hsub.map Event.arguments).filter fun e => e.kind.isActivity
    rw [harguments] at hsome
    rw [filter_map_arguments]
    exact hsome.subperm.trans hperm.subperm
  · obtain rfl := events_of_fit hcapacity h hfit hfinished hsub hmem
    refine ⟨?_, fun c hc => ?_⟩
    · rw [filter_map_arguments, harguments]
      exact hperm
    · obtain ⟨k, hk⟩ := List.getElem?_of_mem hc
      rw [harguments, ← hd.map_share pid hk]
      exact share_sublist.map _

/-- A kernel and a marker in one buffer. A callback claims the second slot while the kernel is
being recorded, and the reader has begun before both. -/
theorem activities_of_kernel :
    ∃ (l m n : Nat) (s : State) (header : RingHeader) (events : List Event),
      Run (State.step samplePool 7 64) (State.start 64 7 1000 50 fun _ => [])
        ([.read, .buffers .request, .buffers (.advanceRequest 0), .buffers (.advanceRequest 0),
            .buffers (.write 0x10000000 [.other, .kernel 0 3 9 100 120 none none]),
            .buffers (.complete (some 0x10000000) 2), .buffers (.advanceCompletion 0 129 8),
            .buffers (.advanceCompletion 0 130 8), .store 0,
            .buffers (.callback .runtime 5 (some ⟨true, 9, none⟩) 131 9), .store 1] ++
          List.replicate l (.store 0) ++ List.replicate m (.store 1) ++
          List.replicate n .read) s ∧
      s.reader = .done (.ok (header, events)) ∧
      ((events.filter fun e => e.kind.isActivity).map Event.arguments).Perm
        [⟨0, 0, 100, 120, 9, 7, 0, 0, 3, .kernelDone, 0, 0, "", ""⟩] := by
  obtain ⟨x, hbegun, hlen, ⟨seq, todo, hfirst⟩, ⟨seq', todo', hsecond⟩, hread⟩ : ∃ x : State,
      Run (State.step samplePool 7 64) (State.start 64 7 1000 50 fun _ => [])
        [.read, .buffers .request, .buffers (.advanceRequest 0), .buffers (.advanceRequest 0),
          .buffers (.write 0x10000000 [.other, .kernel 0 3 9 100 120 none none]),
          .buffers (.complete (some 0x10000000) 2), .buffers (.advanceCompletion 0 129 8),
          .buffers (.advanceCompletion 0 130 8), .store 0,
          .buffers (.callback .runtime 5 (some ⟨true, 9, none⟩) 131 9), .store 1] x ∧
      x.buffers.recorded.length = 2 ∧
      (∃ seq todo, x.ring.calls[0]? = some ⟨seq, todo⟩) ∧
      (∃ seq todo, x.ring.calls[1]? = some ⟨seq, todo⟩) ∧
      (x.buffers.completions.flatMap fun c =>
          (c.records.take c.position).filterMap (Buffers.Activity.event 7))
        = [⟨0, 0, 100, 120, 9, 7, 0, 0, 3, .kernelDone, 0, 0, "", ""⟩] :=
    ⟨_, rfl, rfl, ⟨_, _, rfl⟩, ⟨_, _, rfl⟩, rfl⟩
  obtain ⟨l, y, hkernel, hybuffers, hyreader, hycalls⟩ :=
    exists_run_stores samplePool 7 64 todo hfirst
  have hwaiting : y.ring.calls[1]? = some ⟨seq', todo'⟩ := by
    rw [hycalls, List.getElem?_set_ne (by decide), hsecond]
  obtain ⟨m, z, hcallback, hzbuffers, hzreader, hzcalls⟩ :=
    exists_run_stores samplePool 7 64 todo' hwaiting
  obtain ⟨n, hreads⟩ := exists_run_read samplePool 7 64 z
  have hstored := (hbegun.append hkernel).append hcallback
  have hrun := hstored.append hreads
  have hz : z.buffers = x.buffers := hzbuffers.trans hybuffers
  have hfit : z.buffers.recorded.length ≤ (64 : UInt64).toNat := by
    rw [hz, hlen]
    decide
  have hfinished : ∀ k < z.buffers.recorded.length, Protocol.Finished z.ring k := by
    intro k hk
    rw [hz, hlen] at hk
    rw [hycalls] at hzcalls
    rcases Nat.le_one_iff_eq_zero_or_eq_one.mp (Nat.le_of_lt_succ hk) with rfl | rfl
    · refine ⟨seq, ?_⟩
      rw [hzcalls, List.getElem?_set_ne (by decide),
        List.getElem?_set_self (List.getElem?_eq_some_iff.mp hfirst).1]
    · refine ⟨seq', ?_⟩
      rw [hzcalls, List.getElem?_set_self]
      rw [List.length_set]
      exact (List.getElem?_eq_some_iff.mp hsecond).1
  obtain ⟨header, events, hr, -, -, hall⟩ := activities_of_run (by decide) hrun rfl
    (exclusive_of_fit hrun (by decide) hfit) (Nat.lt_of_le_of_lt hfit (by decide))
  refine ⟨l, m, n, _, header, events, hrun, congrArg Reading.done hr, ?_⟩
  rw [← hread, ← hz]
  refine (hall hfit (Run.along_append hstored ?_ (along_read (fun w _ => hfinished) n))).1
  -- The word that is read before both is the first one of the file.
  refine Run.along_cons_iff.mpr fun t _ => ⟨fun _ w next hw hcounter => ?_, along_of_not_read ?_⟩
  · obtain ⟨rfl, -⟩ := Reading.read.inj hw
    cases hcounter
  · simp [List.mem_replicate]

end

end Recording

end HangAnalyzer.Mspti
