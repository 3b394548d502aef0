import HangAnalyzer.Proofs.Recorder.RoundTrip

/-!
# `HangAnalyzer.Proofs.Recorder.Interleaved`: calls that overlap

Any number of `flight_record` calls run on one mapping, store by store, in any
order. The facts here hold in every state on the way, and the tags of
`HangAnalyzer.Lib.SharedStores` carry them: the tag of a field is the call that
stored to it last, so its value is the one that call passes
(`read_tagged`). A slot whose fields are all tagged by one call holds the
event of that call (`event_tagged`), and a slot with a number was tagged by the
call that has the number (`seq_tagged`).

The process, the rank and the device are the same for all calls, so the tags of
these three fields do not matter. `EventField.ofCall` selects the others.
-/

set_option autoImplicit false

namespace HangAnalyzer.Recorder

open HangAnalyzer.Lib

/-- A field whose value depends on the call. -/
def EventField.ofCall : EventField → Bool
  | .pid | .deviceId | .rankId => false
  | _ => true

/-- A call-dependent field of the same 8-byte word that a call stores no sooner. -/
def EventField.partner : EventField → EventField
  | .pid => .tid
  | .deviceId | .rankId => .streamId
  | f => f

/-- The partner of a field depends on the call. -/
theorem EventField.ofCall_partner (f : EventField) : f.partner.ofCall = true := by
  cases f <;> rfl

/-- The position of a field's store among the stores of a call. -/
def storeIndex (f : EventField) : Nat := storeOrder.idxOf f + 1

section
variable (owner : UInt32) (capacity seq : Nat) (c : Call)

/-- The store of a field at its position. -/
theorem recordStores_getElem? (f : EventField) :
    (recordStores owner capacity seq c)[storeIndex f]?
      = some (fieldStore owner capacity seq c f) := by
  cases f <;> rfl

/-- A field is stored to at its own position only, `seq` also at the front. -/
theorem index_of_dst (slot : Nat) {i : Nat} {f : EventField}
    (h : (recordStores owner capacity seq c)[i]?.map Assign.dst = some (.event slot f)) :
    i = storeIndex f ∨ f = .seq ∧ i = 0 := by
  rw [recordStores_eq, List.cons_append] at h
  -- The first store clears the number.
  cases i with
  | zero =>
      simp only [List.getElem?_cons_zero, Option.map_some, clearStore, Option.some.injEq,
        Cell.event.injEq] at h
      exact .inr ⟨h.2.symm, rfl⟩
  -- The others are those of the fields, in order, and then that of `last_ns`.
  | succ i =>
      rw [List.getElem?_cons_succ, List.getElem?_append] at h
      split at h
      · rename_i hi
        rw [List.length_map] at hi
        rw [List.getElem?_map, List.getElem?_eq_getElem hi] at h
        simp only [Option.map_some, fieldStore, Option.some.injEq, Cell.event.injEq] at h
        rw [storeIndex, ← h.2, nodup_storeOrder.idxOf_getElem i hi]
        exact .inl rfl
      · obtain ⟨a, ha, hdst⟩ := Option.map_eq_some_iff.mp h
        have hlast := List.mem_singleton.mp (List.mem_of_getElem? ha)
        simp [hlast, lastNsStore] at hdst

end

variable {m₀ : Ring} {owner : UInt32} {slots : Nat} {args : Nat → Call} {s : Shared Cell.width}

/-! ### The header -/

/-- No call changes the header words other than the counter and `last_ns`. -/
theorem readOnly_header {f : HeaderField} (h : f ≠ .writeSeq) (h' : f ≠ .lastNs) :
    (recorderProtocol owner slots).ReadOnly (.header f) :=
  ⟨by simpa [recorderProtocol] using h, fun seq c _ ha => dst_ne_header owner slots seq c ha h'⟩

/-- What a call stores does not change while it runs. -/
theorem stable_source (c : Call) (seq : Nat) (f : EventField) :
    (recorderProtocol owner slots).Stable (c.source owner seq f) := by
  cases f
  case deviceId | rankId => exact readOnly_header (by decide) (by decide)
  all_goals trivial

/-- A state that calls on the fresh mapping `m₀` reach. -/
abbrev Reached (m₀ : Ring) (owner : UInt32) (slots : Nat) (args : Nat → Call)
    (s : Shared Cell.width) : Prop :=
  (recorderProtocol owner slots).Tracked args m₀ s

namespace Reached

/-- The header stays as `flight_init` has written it. -/
theorem formatted (h : Reached m₀ owner slots args s) (h₀ : m₀.Fresh slots) :
    Ring.Formatted s.mem slots where
  magic := (h.readOnly (readOnly_header (by decide) (by decide))).trans h₀.formatted.magic
  version := (h.readOnly (readOnly_header (by decide) (by decide))).trans h₀.formatted.version
  eventSize :=
    (h.readOnly (readOnly_header (by decide) (by decide))).trans h₀.formatted.eventSize
  capacity := (h.readOnly (readOnly_header (by decide) (by decide))).trans h₀.formatted.capacity
  two_le := h₀.formatted.two_le

/-- The counter is the number of claims, modulo `2 ^ 64`. -/
theorem writeSeq (h : Reached m₀ owner slots args s) (h₀ : m₀.Fresh slots) :
    s.mem.read (.header .writeSeq) = s.calls.length % 2 ^ 64 := by
  have hcounter := h.counter
  simp only [recorderProtocol] at hcounter
  rw [hcounter, h₀.writeSeq, Nat.zero_add, width_counter]

/-- Call `k` got the number `seqAt k`. -/
theorem seq_eq (h : Reached m₀ owner slots args s) (h₀ : m₀.Fresh slots) {k : Nat}
    {fl : Flight Cell} (hk : s.calls[k]? = some fl) : fl.seq = Ring.seqAt k := by
  have hseq := h.seq k fl hk
  simp only [recorderProtocol] at hseq
  rw [hseq, h₀.writeSeq, Nat.zero_add, width_counter, Ring.seqAt]

/-! ### The slots -/

/-- A tagged field: the call that stored to it last has claimed, the slot is its
own, and the field holds what the call passes, or zero when the call has only
cleared `seq`. -/
theorem read_tagged (h : Reached m₀ owner slots args s) (h₀ : m₀.Fresh slots) {slot k : Nat}
    {f : EventField} (ht : s.tag (.event slot f) = some k) :
    k < s.calls.length ∧ slot = Ring.place slots k ∧
      (s.mem.read (.event slot f)
          = ((args k).source owner (Ring.seqAt k) f).eval m₀ % 256 ^ Cell.width (.event slot f) ∨
        f = .seq ∧ s.mem.read (.event slot f) = 0) := by
  -- The last store into the field is one of that call.
  obtain ⟨fl, pre, st, mid, hk, hprog, hdst, -, hval⟩ := (h.last _ _ ht).exists_store
  have hseq := h.seq_eq h₀ hk
  have hmem : st ∈ recordStores owner slots fl.seq (args k) := by
    have hprog' : recordStores owner slots fl.seq (args k) = pre ++ st :: mid ++ fl.todo := hprog
    simp [hprog']
  obtain ⟨hslot, hstore⟩ := mem_recordStores _ _ _ _ hmem hdst
  refine ⟨(List.getElem?_eq_some_iff.mp hk).1, ?_, ?_⟩
  · rw [hslot, hseq, Ring.slotOf_seqAt]
  · -- The value stored is the field of the call, or 0 while the slot is being cleared.
    rcases hstore with rfl | ⟨rfl, rfl⟩
    · left
      rw [hval (stable_source _ _ _), fieldStore, hseq]
    · right
      refine ⟨rfl, (hval trivial).trans ?_⟩
      rw [clearStore, Source.eval, Nat.zero_mod]

/-- A call that is past the store to a field has stored to the field. -/
theorem isSome_of_index (h : Reached m₀ owner slots args s) {k : Nat} {fl : Flight Cell}
    (hk : s.calls[k]? = some fl) {done : List (Assign Cell)}
    (hprog : recordStores owner slots fl.seq (args k) = done ++ fl.todo) {f : EventField}
    (hindex : storeIndex f < done.length) :
    (s.tag (.event (slotOf slots fl.seq) f)).isSome := by
  obtain ⟨done', hdone, hsome⟩ := h.todo k fl hk
  simp only [recorderProtocol] at hdone
  obtain rfl : done = done' := List.append_cancel_right (hprog.symm.trans hdone)
  have hget := recordStores_getElem? owner slots fl.seq (args k) f
  rw [hprog, List.getElem?_append_left hindex] at hget
  exact hsome _ (List.mem_of_getElem? hget)

/-- A call that has stored to a field's partner has stored to the field. -/
theorem isSome_of_partner (h : Reached m₀ owner slots args s) {slot k : Nat}
    {f : EventField} (ht : s.tag (.event slot f.partner) = some k) (hf : f ≠ .seq) :
    (s.tag (.event slot f)).isSome := by
  obtain ⟨fl, pre, st, mid, hk, hprog, hdst, -⟩ := (h.last _ _ ht).exists_store
  simp only [recorderProtocol] at hprog
  have hst : (recordStores owner slots fl.seq (args k))[pre.length]? = some st := by
    rw [hprog, List.append_assoc, List.cons_append, List.getElem?_append_right (Nat.le_refl _)]
    simp
  have hslot := (mem_recordStores _ _ _ _ (List.mem_of_getElem? hst) hdst).1
  -- The partner's store is at its own position, and the field's is not after it.
  have hindex : storeIndex f ≤ pre.length := by
    have hpos := index_of_dst owner slots fl.seq (args k) slot (i := pre.length)
      (f := f.partner) (by rw [hst, Option.map_some, hdst])
    cases f <;> simp_all [EventField.partner, storeIndex, storeOrder]
  rw [hslot]
  refine h.isSome_of_index hk hprog ?_
  rw [List.length_append, List.length_cons]
  omega

/-- A slot with a number: the call that stored it has stored to every field
before. -/
theorem isSome_of_seq (h : Reached m₀ owner slots args s) {slot k : Nat}
    (ht : s.tag (.event slot .seq) = some k) (hne : s.mem.read (.event slot .seq) ≠ 0)
    (f : EventField) : (s.tag (.event slot f)).isSome := by
  obtain ⟨fl, pre, st, mid, hk, hprog, hdst, -, hval⟩ := (h.last _ _ ht).exists_store
  simp only [recorderProtocol] at hprog
  have hst : (recordStores owner slots fl.seq (args k))[pre.length]? = some st := by
    rw [hprog, List.append_assoc, List.cons_append, List.getElem?_append_right (Nat.le_refl _)]
    simp
  have hslot := (mem_recordStores _ _ _ _ (List.mem_of_getElem? hst) hdst).1
  -- The store is not the clearing one, so it is the last store of the slot.
  have hindex : storeIndex f ≤ pre.length := by
    have hpos := index_of_dst owner slots fl.seq (args k) slot (i := pre.length) (f := .seq)
      (by rw [hst, Option.map_some, hdst])
    rcases hpos with hpos | ⟨-, hpos⟩
    · cases f <;> simp [hpos, storeIndex, storeOrder]
    · rw [hpos, recordStores_eq, List.cons_append, List.getElem?_cons_zero] at hst
      obtain rfl := Option.some.inj hst
      refine absurd ((hval trivial).trans ?_) hne
      rw [clearStore, Source.eval, Nat.zero_mod]
  rw [hslot]
  refine h.isSome_of_index hk hprog ?_
  rw [List.length_append, List.length_cons]
  omega

/-- The value of a field whose partner is tagged: what the partner's call
passes. -/
theorem read_of_partner (h : Reached m₀ owner slots args s) (h₀ : m₀.Fresh slots)
    {slot k : Nat} {f : EventField} (ht : s.tag (.event slot f.partner) = some k)
    (hf : f ≠ .seq) :
    s.mem.read (.event slot f)
      = ((args k).source owner (Ring.seqAt k) f).eval m₀ % 256 ^ Cell.width (.event slot f) := by
  obtain ⟨j, hj⟩ := Option.isSome_iff_exists.mp (h.isSome_of_partner ht hf)
  obtain ⟨-, -, hread⟩ := h.read_tagged h₀ hj
  have hvalue := hread.resolve_right fun hseq => hf hseq.1
  rw [hvalue]
  -- A common field has one value for all calls, the others are their own partner.
  cases f
  case pid | deviceId | rankId => rfl
  case seq => exact absurd rfl hf
  all_goals
    have hjk : j = k := Option.some.inj (hj.symm.trans ht)
    rw [hjk]

/-- A slot with a number: the last call to store to `seq` has it. -/
theorem seq_tagged (h : Reached m₀ owner slots args s) (h₀ : m₀.Fresh slots) {slot : Nat}
    (hne : s.mem.read (.event slot .seq) ≠ 0) :
    ∃ k, s.tag (.event slot .seq) = some k ∧ k < s.calls.length ∧
      slot = Ring.place slots k ∧ s.mem.read (.event slot .seq) = Ring.seqAt k := by
  cases ht : s.tag (.event slot .seq) with
  -- A slot that was never written has the number 0.
  | none =>
      exact absurd ((h.untouched _ (by simp [recorderProtocol]) ht).trans (h₀.blank _ _)) hne
  | some k =>
      obtain ⟨hk, hslot, hread⟩ := h.read_tagged h₀ ht
      refine ⟨k, rfl, hk, hslot, ?_⟩
      rw [hread.resolve_right fun hzero => hne hzero.2, Call.source, Source.eval, Cell.width,
        EventField.width]
      exact Nat.mod_eq_of_lt (Nat.mod_lt _ (by decide))

/-- A call with no store left has stored its number after clearing `seq`. -/
theorem seq_of_finished (h : Reached m₀ owner slots args s) (h₀ : m₀.Fresh slots)
    {slot k : Nat} (ht : s.tag (.event slot .seq) = some k)
    (hdone : ∀ fl, s.calls[k]? = some fl → fl.todo = []) :
    s.mem.read (.event slot .seq) = Ring.seqAt k := by
  obtain ⟨fl, pre, st, mid, hk, hprog, hdst, hmid, hval⟩ := (h.last _ _ ht).exists_store
  have hseq := h.seq_eq h₀ hk
  rw [hdone fl hk, List.append_nil] at hprog
  have hprog' : recordStores owner slots fl.seq (args k) = pre ++ st :: mid := hprog
  obtain ⟨hslot, hstore⟩ := mem_recordStores owner slots fl.seq (args k) (a := st)
    (by simp [hprog']) hdst
  -- The last of its stores is that of the number, not the one that clears it.
  have hvalue : st = fieldStore owner slots fl.seq (args k) .seq := by
    rcases hstore with hfield | ⟨-, hclear⟩
    · exact hfield
    · -- The clearing store is the first one, and the number is stored after it.
      have hget := recordStores_getElem? owner slots fl.seq (args k) .seq
      rw [hprog', List.getElem?_append] at hget
      split at hget
      · rename_i hlt
        have hpos := index_of_dst owner slots fl.seq (args k) slot (i := pre.length)
          (f := .seq) (by simp [hprog', hdst])
        rcases hpos with hpos | ⟨-, hpos⟩ <;> omega
      · rw [List.getElem?_cons] at hget
        split at hget
        · exact Option.some.inj hget
        · exact absurd (hslot ▸ rfl) (hmid _ (List.mem_of_getElem? hget))
  have hstable : (recorderProtocol owner slots).Stable st.src := by
    rw [hvalue]
    exact stable_source (args k) fl.seq .seq
  rw [hval hstable, hvalue, fieldStore, hseq, Call.source, Source.eval, Cell.width,
    EventField.width]
  exact Nat.mod_eq_of_lt (Nat.mod_lt _ (by decide))

/-- A slot whose call-dependent fields were stored to last by the call that has
the slot's number holds the event of that call. -/
theorem event_tagged (h : Reached m₀ owner slots args s) (h₀ : m₀.Fresh slots) {slot k : Nat}
    (hseq : s.mem.read (.event slot .seq) = Ring.seqAt k)
    (ht : ∀ f : EventField, f.ofCall → f ≠ .seq → s.tag (.event slot f) = some k) :
    Ring.event s.mem slot = (args k).event (m₀.origin owner) (Ring.seqAt k) := by
  -- Each field was stored by the call, and so was the number.
  refine event_eq_of_fields (Nat.mod_lt _ (by decide)) fun f => ?_
  by_cases hf : f = .seq
  · subst hf
    rw [hseq, Call.source, Source.eval, Cell.width, EventField.width]
    exact (Nat.mod_eq_of_lt (Nat.mod_lt _ (by decide))).symm
  · have hpartner : f.partner ≠ .seq := by
      cases f <;> simp_all [EventField.partner]
    exact h.read_of_partner h₀ (ht _ f.ofCall_partner hpartner) hf

/-- A ring that shows as many events as its counter says has not wrapped, and
holds the event of every call, finished or not. -/
theorem mem_of_no_loss (h : Reached m₀ owner slots args s) (h₀ : m₀.Fresh slots)
    (hn : s.calls.length < 2 ^ 64) {path : String}
    (hall : s.calls.length ≤ (Ring.snapshot s.mem path).events.length) {k : Nat}
    (hk : k < s.calls.length) :
    (args k).event (m₀.origin owner) (k + 1) ∈ (Ring.snapshot s.mem path).events := by
  have hread := Ring.readEvents_fileBytes (h.formatted h₀) path
  have hcap : s.mem.read (.header .capacity) = slots := (h.formatted h₀).capacity
  have hseq : s.mem.read (.header .writeSeq) = s.calls.length := by
    rw [h.writeSeq h₀, Nat.mod_eq_of_lt hn]
  have hpresent : ∀ q, 1 ≤ q → q ≤ s.calls.length →
      ∃ e ∈ (Ring.snapshot s.mem path).events, e.seq = q := by
    intro q hone hq
    exact seq_present hread (hseq.le.trans hall) hone (hq.trans hseq.ge)
  -- The first number is still in the window, so no slot was used twice.
  have hfit : s.calls.length ≤ slots := by
    obtain ⟨e, he, hone⟩ := hpresent 1 (Nat.le_refl _) (by omega)
    obtain ⟨_, -, -, haccepts⟩ := (Ring.mem_snapshot _).mp he
    rw [hone, Ring.accepts_iff, hseq, hcap] at haccepts
    omega
  obtain ⟨e, he, hnumber⟩ := hpresent (k + 1) (by omega) hk
  obtain ⟨slot, -, rfl, haccepts⟩ := (Ring.mem_snapshot _).mp he
  have hslot : Ring.place slots k = slot := by
    rw [hnumber, Ring.accepts_iff, hcap] at haccepts
    rw [Ring.place, Nat.mod_eq_of_lt (hk.trans hn)]
    exact haccepts.2.2
  have hfield : s.mem.read (.event slot .seq) = k + 1 := hnumber
  have hat : Ring.seqAt k = k + 1 := Nat.mod_eq_of_lt (by omega)
  have hne : s.mem.read (.event slot .seq) ≠ 0 := by omega
  obtain ⟨j, htag, -⟩ := h.seq_tagged h₀ hne
  have hevent := h.event_tagged h₀ (hfield.trans hat.symm) fun f _ _ => by
    obtain ⟨i, hi⟩ := Option.isSome_iff_exists.mp (h.isSome_of_seq htag hne f)
    obtain ⟨hlt, hplace, -⟩ := h.read_tagged h₀ hi
    rw [← hslot, Ring.place, Ring.place, Nat.mod_eq_of_lt (hlt.trans hn),
      Nat.mod_eq_of_lt (hk.trans hn), Nat.mod_eq_of_lt (by omega),
      Nat.mod_eq_of_lt (by omega)] at hplace
    rw [hi, hplace]
  rw [← hat, ← hevent]
  exact he

end Reached

/-! ### Calls one after the other -/

/-- Calls that do not overlap are one of the interleavings: it ends in the
mapping of `Ring.recordAll`. -/
theorem exists_run_recordAll (m₀ : Ring) (owner : UInt32) {slots : Nat} (h₀ : m₀.Fresh slots)
    {args : Nat → Call} (calls : List Call) (hargs : ∀ k c, calls[k]? = some c → args k = c) :
    ∃ ops s, Run ((recorderProtocol owner slots).step args) (Protocol.start m₀) ops s ∧
      s.mem = m₀.recordAll owner calls ∧ s.calls.length = calls.length := by
  induction calls using List.reverseRecOn with
  | nil => exact ⟨[], _, Run.nil_iff.mpr rfl, rfl, rfl⟩
  -- The next call runs alone, from its claim to its last store.
  | append_singleton calls c ih =>
      obtain ⟨ops, s, hrun, hmem, hlen⟩ := ih fun k c' hk => hargs k c' <| by
        rw [List.getElem?_append_left (List.getElem?_eq_some_iff.mp hk).1, hk]
      have hc : args s.calls.length = c := hargs _ _ <| by
        rw [hlen, List.getElem?_concat_length]
      have hcap : (m₀.recordAll owner calls).claim.read (.header .capacity) = slots := by
        rw [Ring.claim, Memory.read_store_of_ne _ _ (by simp)]
        exact (Ring.formatted_recordAll owner h₀ calls).capacity
      obtain ⟨ops', s', seq, hrun', -, hseq, hmem', hcalls'⟩ :=
        Protocol.exists_run_call (recorderProtocol owner slots) args s
      refine ⟨ops ++ ops', s', hrun.append hrun', ?_, ?_⟩
      · rw [hmem', hc, hmem, Ring.recordAll_concat, Ring.record, hcap, hseq, hmem]
        rfl
      · rw [hcalls', List.length_append, List.length_append, hlen]
        rfl

/-! ### Calls that tell themselves apart -/

/-- The calls `p` selects pass one everywhere, the others zero. -/
def marked (p : Nat → Bool) : Nat → Call := fun k =>
  if p k then ⟨1, 1, 1, 1, 1, 1, 1, 1⟩ else ⟨0, 0, 0, 0, 0, 0, 0, 0⟩

variable {p : Nat → Bool}

/-- Under `marked p`, a call-dependent field other than `seq` holds one exactly
when a call that `p` selects stored to it last. -/
theorem read_marked {slot : Nat} (h : Reached m₀ owner slots (marked p) s)
    (h₀ : m₀.Fresh slots) {f : EventField} (hf : f.ofCall) (hseq : f ≠ .seq) :
    s.mem.read (.event slot f) = if (s.tag (.event slot f)).any p then 1 else 0 := by
  -- No call has stored into the field, which is blank.
  cases ht : s.tag (.event slot f) with
  | none =>
      rw [h.untouched _ (by simp [recorderProtocol]) ht, h₀.blank]
      simp
  -- The field shows whether the call that stored it is marked.
  | some j =>
      obtain ⟨-, -, hread⟩ := h.read_tagged h₀ ht
      rw [hread.resolve_right fun hzero => hseq hzero.1, marked]
      by_cases hj : p j
      · cases f <;> simp_all [EventField.ofCall, Call.source, Source.eval, Cell.width,
          EventField.width]
      · cases f <;> simp_all [EventField.ofCall, Call.source, Source.eval]

/-- The event of a call under `marked p` has one everywhere, or zero. -/
theorem read_of_event_marked {m : Ring} {slot k seq : Nat} {o : Origin}
    (h : m.event slot = (marked p k).event o seq) {f : EventField} (hf : f.ofCall)
    (hseq : f ≠ .seq) : m.read (.event slot f) = if p k then 1 else 0 := by
  simp only [Ring.event, Call.event, Event.mk.injEq] at h
  obtain ⟨htime, -, -, htid, -, -, hstream, htype, hflags, hcorr, harg0, harg1⟩ := h
  have hkind := congrArg (fun t => typeNumber t.name) htype
  simp only [typeNumber_name, Option.some.injEq] at hkind
  -- The mark is in each field that a call stores.
  cases f
  case pid | deviceId | rankId => cases hf
  case seq => exact absurd rfl hseq
  all_goals
    by_cases hk : p k <;> simp_all [marked]

end HangAnalyzer.Recorder
