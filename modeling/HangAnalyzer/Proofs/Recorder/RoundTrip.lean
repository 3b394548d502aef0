import HangAnalyzer.Proofs.Recorder.Sequential

/-!
# `HangAnalyzer.Proofs.Recorder.RoundTrip`: decoding what `flight_record` encoded

From `flight_init` on: `flightInit_eq` says what a successful call returns, and
`fresh_initRing` that its mapping is ready for the invariants of
`Proofs/Recorder/Sequential.lean`. `recordCalls_eq` and `readEvents_recordCalls`
then give the whole round trip through the file, for any number of calls.

`last_ns` and `write_seq` are the two header words that calls change. The first
ends at the time of the last call (`Ring.read_recordAll_lastNs`). The second is a 64-bit
counter, so `2 ^ 64` calls bring it back to zero.

`typeNumber_name` is the round trip of the type names.
-/

set_option autoImplicit false

namespace HangAnalyzer.Recorder

open HangAnalyzer.Lib

/-! ### Type names -/

/-- The names of `NAMES` do not look like the name of an unknown type. -/
theorem idxOf?_unknown (n : Nat) : NAMES.idxOf? ("TYPE_" ++ n.repr) = none := by
  have hnames : ∀ s ∈ NAMES, ¬ "TYPE_".toList <+: s.toList := by decide
  rw [List.idxOf?_eq_none_iff]
  intro hmem
  exact hnames _ hmem ⟨n.repr.toList, by rw [String.toList_append]⟩

/-- **A type name gives back the recorded number**, named or not. -/
theorem typeNumber_name (kind : Nat) : typeNumber (EventType.ofKind kind).name = some kind := by
  have hknown : ∀ k < 25, NAMES.idxOf? (EventType.ofKind k).name = some k := by decide
  by_cases hk : kind < 25
  · -- The name of a known type is in the table.
    simp [typeNumber, hknown kind hk]
  · -- The name of another type has its number, which is read back.
    have hother : EventType.ofKind kind = .other (kind - 25) := by
      have hlen : EventType.known[kind]? = none :=
        List.getElem?_eq_none (Nat.le_of_not_lt hk)
      simp [EventType.ofKind, List.getD_eq_getElem?_getD, hlen]
    have hname : (EventType.ofKind kind).name = "TYPE_" ++ kind.repr := by
      rw [hother, EventType.name, Nat.add_sub_cancel' (Nat.le_of_not_lt hk)]
      rfl
    have hdigits : ("TYPE_" ++ kind.repr).toList
        = 'T' :: 'Y' :: 'P' :: 'E' :: '_' :: Nat.toDigits 10 kind := by
      rw [String.toList_append]
      simp [Nat.toList_repr]
    simp only [typeNumber, hname, idxOf?_unknown, hdigits, Nat.ofDigitChars_ten_toDigits]

/-! ### A new recorder -/

/-- What a successful `flight_init` returns. -/
theorem flightInit_eq {current : Option RecorderState} {path : Option String}
    {rank device : UInt16} {capacity : UInt64} {env : InitEnv} {r : RecorderState}
    (h : flightInit current path rank device capacity env = .ok r) :
    2 ≤ capacity.toNat ∧ r = ⟨initRing rank device capacity env, capacity.toNat, env.getpid⟩ := by
  unfold flightInit at h
  split at h
  · cases h
  · rename_i hargs
    -- Only the last way creates the recorder.
    split at h
    · cases h
    · split at h
      · cases h
      · cases h
      · cases h
      · simp only [Except.ok.injEq] at h
        exact ⟨by omega, h.symm⟩

/-- A header field of the new mapping that a store of `flight_init` sets. -/
theorem read_initRing (rank device : UInt16) (capacity : UInt64) (env : InitEnv)
    (f : HeaderField) :
    (initRing rank device capacity env).read (.header f) = match f with
      | .magic         => MAGIC
      | .version       => 1
      | .eventSize     => 64
      | .capacity      => capacity.toNat
      | .pid           => env.getpid.toNat
      | .rank          => rank.toNat
      | .device        => device.toNat
      | .writeSeq      => 0
      | .lastNs        => env.monoNs.toNat
      | .startedWallNs => env.wallNs.toNat
      | .startedMonoNs => env.monoNs.toNat := by
  have hmagic : MAGIC < 18446744073709551616 := by decide
  cases f <;>
    simp [initRing, Memory.read_store_of_ne, Cell.width, HeaderField.width, hmagic]

/-- A new ring is empty. -/
theorem fresh_initRing (rank device : UInt16) {capacity : UInt64} (env : InitEnv)
    (h : 2 ≤ capacity.toNat) :
    (initRing rank device capacity env).Fresh capacity.toNat where
  formatted := {
    magic := read_initRing rank device capacity env .magic
    version := read_initRing rank device capacity env .version
    eventSize := read_initRing rank device capacity env .eventSize
    capacity := read_initRing rank device capacity env .capacity
    two_le := h }
  writeSeq := read_initRing rank device capacity env .writeSeq
  blank slot f := by simp [initRing, Memory.read_store_of_ne]

/-! ### The calls of one process -/

/-- Calls of the owner record one after the other. -/
theorem recordCalls_eq (r : RecorderState) (calls : List Call) :
    recordCalls (some r) r.owner calls
      = some { r with mem := r.mem.recordAll r.owner calls } := by
  induction calls generalizing r with
  | nil => rfl
  | cons c calls ih =>
      have hstep : (flightRecord (some r) r.owner c).1
          = some { r with mem := r.mem.record r.owner c } := by
        simp [flightRecord]
      rw [recordCalls, List.foldl_cons, hstep]
      exact ih { r with mem := r.mem.record r.owner c }

/-- The time of the last call, or the start time of the recorder. -/
def lastTime (startNs : Nat) (calls : List Call) : Nat :=
  (calls.getLast?.map fun c => c.timestampNs.toNat).getD startNs

namespace Ring

/-- The time of an event is that of its slot. -/
theorem timestampNs_event (m : Ring) (slot : Nat) :
    (m.event slot).timestampNs = m.read (.event slot .timestampNs) := rfl

/-- A call stores its own time to `last_ns`. -/
theorem read_record_lastNs (m : Ring) (owner : UInt32) (c : Call) :
    (m.record owner c).read (.header .lastNs) = c.timestampNs.toNat := by
  have htime : ((m.record owner c).event m.nextSlot).timestampNs = c.timestampNs.toNat := by
    rw [event_record_self, Call.event]
  -- The last store copies the slot's time, and leaves the slot alone.
  obtain ⟨before, hlast⟩ : ∃ before : Ring, m.record owner c
      = before.store (.header .lastNs) (before.read (.event m.nextSlot .timestampNs)) := by
    have hfold := m.record_eq owner c
    rw [recordStores_eq, List.foldl_append, List.foldl_cons, List.foldl_nil, Assign.exec,
      lastNsStore, Source.eval] at hfold
    rw [nextSlot]
    exact ⟨_, hfold⟩
  have hkeep := Memory.read_store_of_ne before
    (before.read (.event m.nextSlot .timestampNs))
    (show Cell.event m.nextSlot .timestampNs ≠ .header .lastNs by simp)
  have hwidth : Cell.width (.header .lastNs) = 8 := rfl
  rw [timestampNs_event, hlast] at htime
  rw [hlast, Memory.read_store_self, ← hkeep, htime, hwidth, toNat_mod_8]

/-- `last_ns` is the time of the last call. -/
theorem read_recordAll_lastNs (m : Ring) (owner : UInt32) (calls : List Call) :
    (m.recordAll owner calls).read (.header .lastNs)
      = lastTime (m.read (.header .lastNs)) calls := by
  induction calls using List.reverseRecOn with
  | nil => rfl
  | append_singleton calls c _ =>
      rw [recordAll_concat, read_record_lastNs]
      simp [lastTime]

end Ring

/-- The header after the calls on a new recorder. -/
theorem header_recordAll {rank device : UInt16} {capacity : UInt64} {env : InitEnv}
    (h : 2 ≤ capacity.toNat) (calls : List Call) (path : String) :
    ((initRing rank device capacity env).recordAll env.getpid calls).header path
      = { path
          capacity := capacity.toNat
          pid := env.getpid.toNat
          rank := rank.toNat
          device := device.toNat
          writeSeq := calls.length % 2 ^ 64
          lastNs := lastTime env.monoNs.toNat calls
          startedWallNs := env.wallNs.toNat
          startedMonoNs := env.monoNs.toNat } := by
  -- No call stores into the other fields of the header.
  have hw := Ring.wrapped_recordAll env.getpid (fresh_initRing rank device env h) calls
  unfold Ring.header
  rw [Ring.read_recordAll_lastNs, hw.writeSeq]
  simp only [hw.header _ (show HeaderField.capacity ≠ _ by decide) (by decide),
    hw.header _ (show HeaderField.pid ≠ _ by decide) (by decide),
    hw.header _ (show HeaderField.rank ≠ _ by decide) (by decide),
    hw.header _ (show HeaderField.device ≠ _ by decide) (by decide),
    hw.header _ (show HeaderField.startedWallNs ≠ _ by decide) (by decide),
    hw.header _ (show HeaderField.startedMonoNs ≠ _ by decide) (by decide), read_initRing]

/-! ### The round trip -/

section
variable {current : Option RecorderState} {path : Option String} {rank device : UInt16}
  {capacity : UInt64} {env : InitEnv} {r : RecorderState}

/-- What the reader makes of the file of a new recorder after any number of
calls. The counter shows their number modulo `2 ^ 64`. -/
theorem readEvents_recordCalls (h : flightInit current path rank device capacity env = .ok r)
    (calls : List Call) (file : String) :
    ∃ r' s, recordCalls (some r) env.getpid calls = some r' ∧
      readHeader file r'.file = .ok s.header ∧ readEvents file r'.file = .ok s ∧
      s.header = ⟨file, capacity.toNat, env.getpid.toNat, rank.toNat, device.toNat,
        calls.length % 2 ^ 64, lastTime env.monoNs.toNat calls, env.wallNs.toNat,
        env.monoNs.toNat⟩ ∧
      s.events = (Ring.events ⟨env.getpid.toNat, rank.toNat, device.toNat⟩ calls).drop
        (calls.length - Ring.retained capacity.toNat calls.length) := by
  obtain ⟨hcap, rfl⟩ := flightInit_eq h
  have hfresh := fresh_initRing rank device env hcap
  have hformatted := Ring.formatted_recordAll env.getpid hfresh calls
  have horigin : (initRing rank device capacity env).origin env.getpid
      = ⟨env.getpid.toNat, rank.toNat, device.toNat⟩ := by
    simp only [Ring.origin, read_initRing]
  refine ⟨_, Ring.snapshot _ file, recordCalls_eq _ calls,
    Ring.readHeader_fileBytes hformatted file, Ring.readEvents_fileBytes hformatted file,
    header_recordAll hcap calls file, ?_⟩
  rw [← horigin]
  exact Ring.events_recordAll hfresh calls file

/-- **Decoding undoes encoding** below `2 ^ 64` calls: the header shows their
number and the time of the last one, and the events are the last calls, as many
as fit, in order and with every field. -/
theorem decode_recordCalls (h : flightInit current path rank device capacity env = .ok r)
    (calls : List Call) (hcalls : calls.length < 2 ^ 64) (file : String) :
    ∃ r' s, recordCalls (some r) env.getpid calls = some r' ∧
      readHeader file r'.file = .ok s.header ∧ readEvents file r'.file = .ok s ∧
      s.header = ⟨file, capacity.toNat, env.getpid.toNat, rank.toNat, device.toNat,
        calls.length, lastTime env.monoNs.toNat calls, env.wallNs.toNat, env.monoNs.toNat⟩ ∧
      s.events.Pairwise (·.seq < ·.seq) ∧
      s.events = (calls.mapIdx fun k c =>
          c.event ⟨env.getpid.toNat, rank.toNat, device.toNat⟩ (k + 1)).drop
        (calls.length - min capacity.toNat calls.length) ∧
      ∀ e ∈ s.events, ∃ c ∈ calls, e.type = .ofKind c.type.toNat ∧
        typeNumber e.type.name = some c.type.toNat := by
  obtain ⟨r', s, hr', hheader, hevents, hs, hdrop⟩ := readEvents_recordCalls h calls file
  -- The counter has not wrapped, so it is the number of calls.
  have hmod : calls.length % 2 ^ 64 = calls.length := Nat.mod_eq_of_lt hcalls
  have hseq : Ring.events ⟨env.getpid.toNat, rank.toNat, device.toNat⟩ calls
      = calls.mapIdx fun k c =>
          c.event ⟨env.getpid.toNat, rank.toNat, device.toNat⟩ (k + 1) := by
    refine List.mapIdx_eq_mapIdx_iff.mpr fun k hk => ?_
    rw [Ring.seqAt, Nat.mod_eq_of_lt (by omega)]
  -- The header and the window count alike.
  rw [hmod] at hs
  rw [Ring.retained, hmod, hseq] at hdrop
  refine ⟨r', s, hr', hheader, hevents, hs, s.sorted, hdrop, fun e he => ?_⟩
  rw [hdrop] at he
  obtain ⟨k, hk, rfl⟩ := List.mem_mapIdx.mp (List.mem_of_mem_drop he)
  exact ⟨_, List.getElem_mem hk, rfl, typeNumber_name _⟩

/-- The round trip of three calls on a ring of two slots. -/
theorem decode_recordCalls_three :
    ∃ r' s, recordCalls (some ⟨initRing 3 1 2 ⟨none, none, none, 100, 5, 7⟩, 2, 100⟩) 100
        [⟨15, 1, 9, 4, 2, 0, 10, 101⟩, ⟨40, 1, 9, 4, 2, 0, 11, 101⟩,
          ⟨16, 1, 9, 4, 2, 0, 12, 102⟩] = some r' ∧
      readEvents "r3.flight" r'.file = .ok s ∧ s.header.writeSeq = 3 ∧
      s.events.map (fun e => (e.seq, e.type.name)) = [(2, "TYPE_40"), (3, "HCCL_END")] := by
  have hinit : flightInit none (some "r3.flight") 3 1 2 ⟨none, none, none, 100, 5, 7⟩
      = .ok ⟨initRing 3 1 2 ⟨none, none, none, 100, 5, 7⟩, 2, 100⟩ := rfl
  obtain ⟨r', s, hr', -, hevents, hs, -, hdrop, -⟩ :=
    decode_recordCalls hinit
      [⟨15, 1, 9, 4, 2, 0, 10, 101⟩, ⟨40, 1, 9, 4, 2, 0, 11, 101⟩,
        ⟨16, 1, 9, 4, 2, 0, 12, 102⟩] (by decide) "r3.flight"
  refine ⟨r', s, hr', hevents, ?_, ?_⟩
  · rw [hs]
    rfl
  · rw [hdrop]
    decide

end

/-- After `2 ^ 64` calls the counter is back at zero: the header shows no call,
and the reader returns no event. -/
theorem decode_wrapped_counter :
    ∃ r r' s, flightInit none (some "r0.flight") 0 0 2 ⟨none, none, none, 100, 5, 7⟩ = .ok r ∧
      recordCalls (some r) 100 (List.replicate (2 ^ 64) ⟨15, 1, 9, 4, 2, 0, 10, 101⟩)
        = some r' ∧
      readEvents "r0.flight" r'.file = .ok s ∧ s.header.writeSeq = 0 ∧ s.events = [] := by
  have hwrap : ∀ calls : List Call, calls.length = 2 ^ 64 →
      ∃ r r' s,
        flightInit none (some "r0.flight") 0 0 2 ⟨none, none, none, 100, 5, 7⟩ = .ok r ∧
        recordCalls (some r) 100 calls = some r' ∧
        readEvents "r0.flight" r'.file = .ok s ∧ s.header.writeSeq = 0 ∧ s.events = [] := by
    intro calls hlen
    have hinit : flightInit none (some "r0.flight") 0 0 2 ⟨none, none, none, 100, 5, 7⟩
        = .ok ⟨initRing 0 0 2 ⟨none, none, none, 100, 5, 7⟩, 2, 100⟩ := rfl
    obtain ⟨r', s, hr', -, hevents, hs, hdrop⟩ :=
      readEvents_recordCalls hinit calls "r0.flight"
    -- The counter is back at 0, so the window is empty.
    refine ⟨_, r', s, rfl, hr', hevents, ?_, ?_⟩
    · rw [hs, hlen, Nat.mod_self]
    · rw [hdrop, Ring.retained, hlen, Nat.mod_self, Nat.min_zero, Nat.sub_zero]
      refine List.drop_eq_nil_of_le ?_
      rw [Ring.events, List.length_mapIdx, hlen]
  exact hwrap _ List.length_replicate

end HangAnalyzer.Recorder
