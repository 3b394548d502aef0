import HangAnalyzer.Proofs.Recorder.Interleaved

/-!
# `HangAnalyzer.Proofs.Recorder.Lapped`: when concurrent calls lose nothing

`Lossless` says that the reader returns exactly the last calls of a finished
run, with the numbers `n - min slots n + 1` to `n`. It fails when a call is
lapped: it claimed a number, a whole ring of later calls claimed and stored,
and then its own stores land in a slot that a later call owns.

`lossless_iff` is the exact condition on the schedule. For each slot of the
window, no earlier call of that slot stores a call-dependent field after the
slot's last call has stored it. `lapped_loses_last` is a schedule of three
calls on two slots where the newest record disappears.
-/

set_option autoImplicit false

namespace HangAnalyzer.Recorder

open HangAnalyzer.Lib

variable {m₀ : Ring} {owner : UInt32} {slots : Nat} {args : Nat → Call} {s : Shared Cell.width}
  {ops : List Op}

/-- Every call has executed all its stores. -/
def Finished (s : Shared Cell.width) : Prop := ∀ fl ∈ s.calls, fl.todo = []

/-- The records of the last calls, as many as fit into the ring, each with the
arguments of the call that claimed its number. -/
def lastRecords (o : Origin) (slots : Nat) (args : Nat → Call) (n : Nat) : List Event :=
  (List.range' (n - slots) (min slots n)).map fun k => (args k).event o (k + 1)

/-- The reader returns exactly the last calls. -/
def Lossless (m₀ : Ring) (owner : UInt32) (slots : Nat) (args : Nat → Call)
    (s : Shared Cell.width) : Prop :=
  ∀ file, ∃ snap, readEvents file (Ring.fileBytes s.mem slots) = .ok snap ∧
    snap.events = lastRecords (m₀.origin owner) slots args s.calls.length

/-- At every moment of the schedule, if call `k` has executed its store number
`i`, so has call `j`. -/
def StoresFirst (ops : List Op) (i j k : Nat) : Prop :=
  ∀ pre, pre <+: ops → i < pre.count (.advance k) → i < pre.count (.advance j)

/-- Every slot of the window was stored to last by its last call, field by
field. -/
def Owned (slots : Nat) (s : Shared Cell.width) : Prop :=
  ∀ k, s.calls.length - slots ≤ k → k < s.calls.length → ∀ f : EventField, f.ofCall →
    s.tag (.event (Ring.place slots k) f) = some k

/-- The last records are those of the last calls. -/
theorem mem_lastRecords {o : Origin} {n : Nat} {e : Event} :
    e ∈ lastRecords o slots args n ↔
      ∃ k, n - slots ≤ k ∧ k < n ∧ (args k).event o (k + 1) = e := by
  simp only [lastRecords, List.mem_map, List.mem_range'_1]
  constructor
  · rintro ⟨k, hk, he⟩
    exact ⟨k, hk.1, by omega, he⟩
  · rintro ⟨k, hlo, hk, he⟩
    exact ⟨k, ⟨hlo, by omega⟩, he⟩

/-- The last records are in the order of their numbers. -/
theorem sorted_lastRecords (o : Origin) (slots : Nat) (args : Nat → Call) (n : Nat) :
    (lastRecords o slots args n).Pairwise (·.seq < ·.seq) := by
  rw [lastRecords, List.pairwise_map]
  exact (List.pairwise_lt_range' 1).imp fun hab => Nat.succ_lt_succ hab

/-! ### The condition on the tags -/

/-- Before the counter wraps a call goes to its position modulo the capacity. -/
theorem place_of_lt {k n : Nat} (hk : k < n) (hn : n < 2 ^ 64) :
    Ring.place slots k = k % slots := by
  rw [Ring.place, Nat.mod_eq_of_lt (Nat.lt_trans hk hn)]

/-- A ring whose window is owned by its calls is read back without loss. -/
theorem lossless_of_owned (h : Reached m₀ owner slots args s) (h₀ : m₀.Fresh slots)
    (hdone : Finished s) (hn : s.calls.length < 2 ^ 64) (howned : Owned slots s) :
    Lossless m₀ owner slots args s := by
  intro file
  refine ⟨_, Ring.readEvents_fileBytes (h.formatted h₀) file, ?_⟩
  refine eq_of_sorted (Snapshot.sorted _) (sorted_lastRecords _ _ _ _) fun e => ?_
  have hcap : s.mem.read (.header .capacity) = slots := (h.formatted h₀).capacity
  have hslots : 2 ≤ slots := h₀.formatted.two_le
  have hseq : s.mem.read (.header .writeSeq) = s.calls.length := by
    rw [h.writeSeq h₀, Nat.mod_eq_of_lt hn]
  -- A slot owned by a call of the window holds the call's event.
  have hevent : ∀ k, s.calls.length - slots ≤ k → k < s.calls.length →
      Ring.event s.mem (Ring.place slots k) = (args k).event (m₀.origin owner) (k + 1) := by
    intro k hlo hk
    rw [← Ring.seqAt_of_lt hk hn]
    refine h.event_tagged h₀ ?_ fun f hf _ => howned k hlo hk f hf
    exact h.seq_of_finished h₀ (howned k hlo hk .seq rfl) fun fl hfl =>
      hdone fl (List.mem_of_getElem? hfl)
  rw [Ring.mem_snapshot, mem_lastRecords]
  simp only [Ring.accepts_iff, hcap, hseq]
  constructor
  · rintro ⟨slot, -, rfl, ⟨hone, hlow⟩, hhigh, -⟩
    have hread : (Ring.event s.mem slot).seq = s.mem.read (.event slot .seq) := rfl
    obtain ⟨k, -, hk, hplace, hnumber⟩ := h.seq_tagged h₀
      (by omega : s.mem.read (.event slot .seq) ≠ 0)
    rw [hread, hnumber, Ring.seqAt_of_lt hk hn] at hlow
    refine ⟨k, by omega, hk, ?_⟩
    rw [hplace, hevent k (by omega) hk]
  · rintro ⟨k, hlo, hk, rfl⟩
    refine ⟨Ring.place slots k, Nat.mod_lt _ (by omega), hevent k hlo hk, ⟨?_, ?_⟩, ?_, ?_⟩
    · exact Nat.le_add_left _ _
    · show s.calls.length + 1 - slots ≤ k + 1
      omega
    · show k + 1 ≤ s.calls.length
      omega
    · rw [place_of_lt hk hn]
      rfl

/-- If the reader loses nothing whatever the calls pass, the window is owned by
its calls, and the counter has not wrapped. -/
theorem owned_of_lossless (hrun : Run ((recorderProtocol owner slots).step args)
      (Protocol.start m₀) ops s) (h₀ : m₀.Fresh slots)
    (hall : ∀ args' t, Run ((recorderProtocol owner slots).step args') (Protocol.start m₀) ops t →
      Lossless m₀ owner slots args' t) :
    s.calls.length < 2 ^ 64 ∧ Owned slots s := by
  have hslots : 2 ≤ slots := h₀.formatted.two_le
  -- A record of the window sits in its slot.
  have hslot : ∀ args' (t : Shared Cell.width), Reached m₀ owner slots args' t →
      Lossless m₀ owner slots args' t → ∀ k, t.calls.length - slots ≤ k → k < t.calls.length →
      Ring.event t.mem (k % slots) = (args' k).event (m₀.origin owner) (k + 1) := by
    intro args' t ht hloss k hlo hk
    obtain ⟨snap, hread, hevents⟩ := hloss "r"
    rw [Ring.readEvents_fileBytes (ht.formatted h₀), Except.ok.injEq] at hread
    have hmem : (args' k).event (m₀.origin owner) (k + 1) ∈ snap.events := by
      rw [hevents, mem_lastRecords]
      exact ⟨k, hlo, hk, rfl⟩
    rw [← hread, Ring.mem_snapshot] at hmem
    obtain ⟨slot, -, hevent, haccepts⟩ := hmem
    rw [Ring.accepts_iff, (ht.formatted h₀).capacity] at haccepts
    have hmod : k % slots = slot := haccepts.2.2
    rw [hmod, hevent]
  have hn : s.calls.length < 2 ^ 64 := by
    by_contra hlt
    have hlast := hslot args s (Protocol.tracked_run hrun) (hall args s hrun)
      (s.calls.length - 1) (by omega) (by omega)
    -- The last number does not fit into the slot's 64-bit word.
    have hseq : s.mem.read (.event ((s.calls.length - 1) % slots) .seq)
        = s.calls.length - 1 + 1 := congrArg Event.seq hlast
    have hbound := s.mem.read_lt (.event ((s.calls.length - 1) % slots) .seq)
    have hwidth : Cell.width (.event ((s.calls.length - 1) % slots) .seq) = 8 := rfl
    rw [hseq, hwidth] at hbound
    omega
  refine ⟨hn, fun k hlo hk f hf => ?_⟩
  -- Mark the call, and read its slot in the run of the marked calls.
  obtain ⟨t, htrun, halike⟩ :=
    Protocol.tags_eq (uniform_ofOrder owner slots) hrun (marked (· == k))
  have ht : Reached m₀ owner slots (marked (· == k)) t := halike.right
  have hlen := halike.length_eq
  have hevent := hslot _ t ht (hall _ t htrun) k (hlen ▸ hlo) (hlen ▸ hk)
  rw [place_of_lt hk hn, halike.tag]
  by_cases hseq : f = .seq
  · subst hseq
    have hread : t.mem.read (.event (k % slots) .seq) = k + 1 := congrArg Event.seq hevent
    obtain ⟨j, hj, hjlt, -, hnumber⟩ := ht.seq_tagged h₀
      (by omega : t.mem.read (.event (k % slots) .seq) ≠ 0)
    rw [hread, Ring.seqAt_of_lt hjlt (hlen ▸ hn)] at hnumber
    rw [hj, Nat.succ.inj hnumber]
  · have hread := read_of_event_marked hevent hf hseq
    rw [read_marked ht h₀ hf hseq, beq_self_eq_true, if_pos rfl] at hread
    simpa [Option.any_eq_true] using hread

/-! ### The condition on the schedule -/

/-- The stores of call `k` are those of `flight_record` with its number. -/
theorem stores_eq (h₀ : m₀.Fresh slots) (k : Nat) :
    (recorderProtocol owner slots).stores args m₀ k
      = recordStores owner slots (Ring.seqAt k) (args k) := by
  simp only [Protocol.stores, recorderProtocol]
  rw [h₀.writeSeq, Nat.zero_add, width_counter, Ring.seqAt]

/-- A call stores to its slot's field at the field's position. -/
theorem stores_dst (owner : UInt32) (args : Nat → Call) (h₀ : m₀.Fresh slots) (k : Nat)
    (f : EventField) :
    ((recorderProtocol owner slots).stores args m₀ k)[storeIndex f]?.map Assign.dst
      = some (.event (Ring.place slots k) f) := by
  rw [stores_eq h₀, recordStores_getElem?, Option.map_some, fieldStore, Ring.slotOf_seqAt]

/-- A store to a field comes at the position of the field or, when the number is cleared,
before. -/
theorem stores_index (h₀ : m₀.Fresh slots) {i k slot : Nat} {f : EventField}
    (h : ((recorderProtocol owner slots).stores args m₀ k)[i]?.map Assign.dst
      = some (.event slot f)) : i ≤ storeIndex f := by
  rw [stores_eq h₀] at h
  rcases index_of_dst owner slots _ _ _ h with hi | ⟨-, hi⟩ <;> omega

/-- The stores of the fields are the first fourteen. -/
theorem storeIndex_lt (f : EventField) : storeIndex f < 14 := by
  cases f <;> decide

section
variable (hrun : Run ((recorderProtocol owner slots).step args) (Protocol.start m₀) ops s)
  (h₀ : m₀.Fresh slots) (hdone : Finished s)
include hrun h₀ hdone

/-- A finished call has a step in the schedule for each of its stores. -/
theorem steps_of_finished {k : Nat} (hk : k < s.calls.length) :
    14 ≤ ops.count (.advance k) := by
  have htodo := (Protocol.counted hrun k).2 _ (List.getElem?_eq_getElem hk)
  rw [hdone _ (List.getElem_mem hk), stores_eq h₀, eq_comm, List.drop_eq_nil_iff] at htodo
  exact htodo

/-- A finished call has stored to every field of its slot. -/
theorem isSome_of_finished {k : Nat} (hk : k < s.calls.length) (f : EventField) :
    (s.tag (.event (Ring.place slots k) f)).isSome := by
  have ht : Reached m₀ owner slots args s := Protocol.tracked_run hrun
  obtain ⟨done, hprog, hsome⟩ := ht.todo k _ (List.getElem?_eq_getElem hk)
  rw [hdone _ (List.getElem_mem hk), List.append_nil,
    ht.seq_eq h₀ (List.getElem?_eq_getElem hk)] at hprog
  have hmem : fieldStore owner slots (Ring.seqAt k) (args k) f ∈ done := by
    rw [← hprog]
    exact List.mem_of_getElem? (recordStores_getElem? _ _ _ _ f)
  have hstored := hsome _ hmem
  rwa [fieldStore, Ring.slotOf_seqAt] at hstored

/-- The window is owned by its calls exactly when no lapped call stores a
call-dependent field late. -/
theorem owned_iff_storesFirst (hn : s.calls.length < 2 ^ 64) :
    Owned slots s ↔ ∀ j k, j < k → k < s.calls.length → s.calls.length - slots ≤ k →
      j % slots = k % slots → ∀ f : EventField, f.ofCall →
      StoresFirst ops (storeIndex f) j k := by
  have ht : Reached m₀ owner slots args s := Protocol.tracked_run hrun
  constructor
  · intro howned j k hjk hk hlo hmod f hf pre' hpre' hi
    -- Call `j` stored to the field before call `k` did so for the last time.
    have hdst := stores_dst owner args h₀ j f
    rw [place_of_lt (Nat.lt_trans hjk hk) hn, hmod, ← place_of_lt hk hn] at hdst
    have hj := steps_of_finished hrun h₀ hdone (Nat.lt_trans hjk hk)
    have hf14 := storeIndex_lt f
    obtain ⟨pre, i', hpre, hbefore, hafter, hdst'⟩ :=
      Protocol.last_after hrun (howned k hlo hk f hf) (Nat.ne_of_lt hjk) (by omega) hdst
    have hi' := stores_index h₀ hdst'
    rcases List.prefix_or_prefix_of_prefix hpre hpre' with hle | hle
    · exact Nat.lt_of_lt_of_le hbefore (hle.sublist.count_le _)
    · have hcount := hle.sublist.count_le (.advance k)
      omega
  · intro horder k hlo hk f hf
    obtain ⟨j, hj⟩ := Option.isSome_iff_exists.mp (isSome_of_finished hrun h₀ hdone hk f)
    obtain ⟨hjlt, hplace, -⟩ := ht.read_tagged h₀ hj
    by_cases hjk : j = k
    · rw [hj, hjk]
    · -- Another call stored last: it is a lapped one, and the order forbids it.
      exfalso
      have hmod : j % slots = k % slots := by
        rw [← place_of_lt hjlt hn, ← place_of_lt hk hn]
        exact hplace.symm
      have hlt : j < k := by
        by_contra hle
        have heq := Ring.eq_of_mod_eq (a := k) (b := j) (d := slots) (by omega) (by omega)
          hmod.symm
        exact hjk heq.symm
      have hf14 := storeIndex_lt f
      have hsteps := steps_of_finished hrun h₀ hdone hk
      obtain ⟨pre, i', hpre, hbefore, hafter, hdst'⟩ :=
        Protocol.last_after hrun hj (Ne.symm hjk) (by omega)
          (stores_dst owner args h₀ k f)
      have hi' := stores_index h₀ hdst'
      have hfirst := horder j k hlt hk hlo hmod f hf pre hpre hbefore
      omega

end

/-- **When concurrent calls lose nothing.** A finished schedule makes the reader
return exactly the last calls, whatever the calls pass, if and only if there
are fewer than `2 ^ 64` of them and no call stores a call-dependent field of
its slot after a call that laps it, and that is still in the window, stored the
field. -/
theorem lossless_iff (hrun : Run ((recorderProtocol owner slots).step args)
      (Protocol.start m₀) ops s) (h₀ : m₀.Fresh slots) (hdone : Finished s) :
    (∀ args' t, Run ((recorderProtocol owner slots).step args') (Protocol.start m₀) ops t →
        Lossless m₀ owner slots args' t) ↔
      ops.count .claim < 2 ^ 64 ∧
      ∀ j k, j < k → k < ops.count .claim → ops.count .claim - slots ≤ k →
        j % slots = k % slots → ∀ f : EventField, f.ofCall →
        StoresFirst ops (storeIndex f) j k := by
  rw [← Protocol.length_calls hrun]
  constructor
  · intro hall
    obtain ⟨hn, howned⟩ := owned_of_lossless hrun h₀ hall
    exact ⟨hn, (owned_iff_storesFirst hrun h₀ hdone hn).mp howned⟩
  · rintro ⟨hn, horder⟩ args' t hrun'
    have howned := (owned_iff_storesFirst hrun h₀ hdone hn).mpr horder
    -- The run under other arguments has the same tags and is finished, too.
    obtain ⟨t', htrun, halike⟩ :=
      Protocol.tags_eq (uniform_ofOrder owner slots) hrun args'
    have htt : t' = t := Run.deterministic htrun hrun'
    subst htt
    have hlen := halike.length_eq
    refine lossless_of_owned halike.right h₀ (halike.todo_nil hdone) (hlen ▸ hn) ?_
    intro k hlo hk f hf
    rw [← halike.tag]
    exact howned k (hlen ▸ hlo) (hlen ▸ hk) f hf

/-- Two calls on a ring of two slots, alternating store by store, lose nothing. -/
theorem lossless_two_calls :
    ∃ s, Run ((recorderProtocol 100 2).step fun _ => ⟨15, 1, 9, 4, 2, 0, 10, 101⟩)
        (Protocol.start (initRing 0 0 2 ⟨none, none, none, 100, 5, 7⟩))
        ([.claim, .claim] ++ (List.replicate 14 [.advance 1, .advance 0]).flatten) s ∧
      Lossless (initRing 0 0 2 ⟨none, none, none, 100, 5, 7⟩) 100 2
        (fun _ => ⟨15, 1, 9, 4, 2, 0, 10, 101⟩) s := by
  have hcomputed : ((([.claim, .claim] ++
      (List.replicate 14 [.advance 1, .advance 0]).flatten : List Op).foldlM
      ((recorderProtocol 100 2).step fun _ => ⟨15, 1, 9, 4, 2, 0, 10, 101⟩)
      (Protocol.start (initRing 0 0 2 ⟨none, none, none, 100, 5, 7⟩))).map fun s =>
        s.calls.all fun fl => fl.todo.isEmpty) = some true := by
    decide +kernel
  obtain ⟨s, hrun, hdone⟩ := Option.map_eq_some_iff.mp hcomputed
  simp only [List.all_eq_true, List.isEmpty_iff] at hdone
  refine ⟨s, hrun, (lossless_iff hrun (fresh_initRing 0 0 _ (by decide)) hdone).mpr
    ⟨by decide, fun j k hjk hk _ hmod => ?_⟩ _ s hrun⟩
  have hcount : ([.claim, .claim] ++
      (List.replicate 14 [.advance 1, .advance 0]).flatten : List Op).count .claim = 2 := by
    decide
  omega

/-- The schedule of a lapped call on two slots: the first of three calls claims
its number and executes its stores after the third. -/
def lappedOps : List Op :=
  [.claim, .claim, .claim] ++ List.replicate 14 (.advance 1) ++ List.replicate 14 (.advance 2)
    ++ List.replicate 14 (.advance 0)

/-- Three calls on a ring of two slots finish, and the record of the third is
lost: the first call overwrote its slot. -/
theorem lapped_loses_last :
    ∃ s, Run ((recorderProtocol 100 2).step fun _ => ⟨15, 1, 9, 4, 2, 0, 10, 101⟩)
        (Protocol.start (initRing 0 0 2 ⟨none, none, none, 100, 5, 7⟩)) lappedOps s ∧
      Finished s ∧ s.calls.length = 3 ∧
      ¬ Lossless (initRing 0 0 2 ⟨none, none, none, 100, 5, 7⟩) 100 2
        (fun _ => ⟨15, 1, 9, 4, 2, 0, 10, 101⟩) s := by
  have hcomputed : ((lappedOps.foldlM
      ((recorderProtocol 100 2).step fun _ => ⟨15, 1, 9, 4, 2, 0, 10, 101⟩)
      (Protocol.start (initRing 0 0 2 ⟨none, none, none, 100, 5, 7⟩))).map fun s =>
        (s.calls.all fun fl => fl.todo.isEmpty, s.calls.length, s.mem.read (.event 0 .seq)))
      = some (true, 3, 1) := by
    decide +kernel
  obtain ⟨s, hrun, hs⟩ := Option.map_eq_some_iff.mp hcomputed
  simp only [Prod.mk.injEq, List.all_eq_true, List.isEmpty_iff] at hs
  obtain ⟨hdone, hlen, hseq⟩ := hs
  refine ⟨s, hrun, hdone, hlen, fun hloss => ?_⟩
  have h₀ : (initRing 0 0 2 ⟨none, none, none, 100, 5, 7⟩).Fresh 2 :=
    fresh_initRing 0 0 _ (by decide)
  have ht := Protocol.tracked_run hrun
  obtain ⟨snap, hread, hevents⟩ := hloss "r0.flight"
  rw [Ring.readEvents_fileBytes (Reached.formatted ht h₀), Except.ok.injEq] at hread
  -- The third record would have to sit in slot zero, which holds number one.
  have hmem : ∃ e ∈ snap.events, e.seq = 3 := by
    rw [hevents]
    exact ⟨_, mem_lastRecords.mpr ⟨2, by omega, by omega, rfl⟩, rfl⟩
  obtain ⟨e, he, hthree⟩ := hmem
  rw [← hread, Ring.mem_snapshot] at he
  obtain ⟨slot, -, hevent, haccepts⟩ := he
  rw [Ring.accepts_iff, (Reached.formatted ht h₀).capacity, hthree] at haccepts
  have hslot : slot = 0 := haccepts.2.2.symm
  subst hslot
  have hthree' : s.mem.read (.event 0 .seq) = 3 := (congrArg Event.seq hevent).trans hthree
  omega

end HangAnalyzer.Recorder
