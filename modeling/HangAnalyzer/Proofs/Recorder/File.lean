import Mathlib.Order.Interval.Finset.Nat
import HangAnalyzer.Recorder.Ring
import HangAnalyzer.Recorder.Format

/-!
# `HangAnalyzer.Proofs.Recorder.File`: the reader sees the mapping

The C structs and the Python formats describe the same bytes
(`headerItems_eq`, `eventItems_eq`). So `readEvents` on the file of a formatted
mapping never fails, and what it returns is `Ring.snapshot`, read off the
mapping's fields (`readEvents_fileBytes`). Every later statement about
`readEvents` goes through this theorem and never looks at a byte again.
-/

set_option autoImplicit false

namespace HangAnalyzer.Recorder

open HangAnalyzer.Lib

/-! ### One layout -/

/-- The reader's header format covers the struct up to its `pad`. -/
theorem headerItems_eq : cStruct 64 headerFields = formatItems HEADER ++ [.field 64] := by
  decide

/-- The reader's event format is the struct, padding included. -/
theorem eventItems_eq : cStruct 64 eventFields = formatItems EVENT := by
  decide

namespace Ring

variable (m : Ring)

/-- The bytes of a cell are read as its value. -/
@[simp] theorem ofBytesLE_chunk (c : Cell) : ofBytesLE (m.chunk c) = m.read c := by
  rw [chunk, ofBytesLE_toBytesLE, Memory.read_mod]

/-- A cell takes its width. -/
@[simp] theorem length_chunk (c : Cell) : (m.chunk c).length = c.width := by
  simp [chunk]

/-- The header takes 128 bytes. -/
theorem length_headerBytes : m.headerBytes.length = 128 := by
  rw [headerBytes, length_pack]
  · decide
  · rw [List.map_append, List.map_map]
    simp only [Function.comp_def, length_chunk]
    decide

/-- A slot takes 64 bytes. -/
theorem length_slotBytes (slot : Nat) : (m.slotBytes slot).length = 64 := by
  rw [slotBytes, length_pack]
  · decide
  · rw [List.map_map]
    simp only [Function.comp_def, length_chunk]
    rfl

/-- The slots follow each other without a gap. -/
theorem length_flatMap_slotBytes (l : List Nat) :
    (l.flatMap m.slotBytes).length = l.length * 64 := by
  induction l with
  | nil => rfl
  | cons i l ih =>
      simp only [List.flatMap_cons, List.length_append, length_slotBytes, ih, List.length_cons]
      omega

/-- The length of the file. -/
theorem length_fileBytes (slots : Nat) : (m.fileBytes slots).length = 128 + slots * 64 := by
  rw [fileBytes, List.length_append, length_headerBytes, length_flatMap_slotBytes,
    List.length_range]

/-- The file from slot `i` on starts with the bytes of slot `i`. -/
theorem drop_fileBytes {slots i : Nat} (hi : i < slots) :
    ∃ rest, (m.fileBytes slots).drop (128 + i * 64) = m.slotBytes i ++ rest := by
  have hrange : List.range slots = List.range i ++ i :: List.range' (i + 1) (slots - i - 1) := by
    rw [List.range_eq_range', List.range_eq_range', ← List.range'_succ]
    have happend := List.range'_append_1 (s := 0) (m := i) (n := slots - i - 1 + 1)
    rw [Nat.zero_add] at happend
    rw [happend]
    congr 1
    omega
  refine ⟨(List.range' (i + 1) (slots - i - 1)).flatMap m.slotBytes, ?_⟩
  rw [fileBytes, ← List.drop_drop, List.drop_left' m.length_headerBytes, hrange,
    List.flatMap_append, List.flatMap_cons, List.drop_left']
  rw [length_flatMap_slotBytes, List.length_range]

/-! ### The decoded mapping -/

/-- The header `readHeader` returns for the mapping. -/
def header (path : String) : FlightHeader where
  path := path
  capacity := m.read (.header .capacity)
  pid := m.read (.header .pid)
  rank := m.read (.header .rank)
  device := m.read (.header .device)
  writeSeq := m.read (.header .writeSeq)
  lastNs := m.read (.header .lastNs)
  startedWallNs := m.read (.header .startedWallNs)
  startedMonoNs := m.read (.header .startedMonoNs)

/-- The event in a slot of the mapping, valid or not. -/
def event (slot : Nat) : Event where
  timestampNs := m.read (.event slot .timestampNs)
  seq := m.read (.event slot .seq)
  pid := m.read (.event slot .pid)
  tid := m.read (.event slot .tid)
  device := m.read (.event slot .deviceId)
  rank := m.read (.event slot .rankId)
  stream := m.read (.event slot .streamId)
  type := .ofKind (m.read (.event slot .type))
  flags := m.read (.event slot .flags)
  correlationId := m.read (.event slot .correlationId)
  arg0 := m.read (.event slot .arg0)
  arg1 := m.read (.event slot .arg1)

/-- The snapshot `readEvents` returns for the mapping. -/
def snapshot (path : String) : Snapshot where
  header := m.header path
  events := sortBySeq
    ((m.header path).select (m.header path).capacity fun slot => some (m.event slot))
  sorted := sortBySeq_sorted ((m.header path).select_nodup _ _)

/-- The header words `flight_init` writes once and nobody changes. -/
structure Formatted (slots : Nat) : Prop where
  magic : m.read (.header .magic) = MAGIC
  version : m.read (.header .version) = 1
  eventSize : m.read (.header .eventSize) = 64
  capacity : m.read (.header .capacity) = slots
  two_le : 2 ≤ slots

/-- The events of a snapshot are those of the slots that the header accepts. -/
theorem mem_snapshot {path : String} {e : Event} :
    e ∈ (m.snapshot path).events ↔ ∃ slot < m.read (.header .capacity),
      m.event slot = e ∧ (m.header path).accepts slot e.seq = true := by
  simp only [snapshot, mem_sortBySeq, FlightHeader.mem_select, Option.some.injEq]
  rfl

variable {m}

/-- The header of the file is that of the ring. -/
theorem readHeader_fileBytes {slots : Nat} (h : m.Formatted slots) (path : String) :
    readHeader path (m.fileBytes slots) = .ok (m.header path) := by
  have htake : (m.fileBytes slots).take 128 = m.headerBytes := by
    rw [fileBytes, List.take_left' m.length_headerBytes]
  have hunpack : (unpack (formatItems HEADER) m.headerBytes).map ofBytesLE
      = HeaderField.all.map fun f => m.read (.header f) := by
    have hpack := unpack_pack (formatItems HEADER) [.field 64]
      (HeaderField.all.map fun f => m.chunk (.header f)) [List.replicate 64 0] []
      (by rw [List.map_map]; simp only [Function.comp_def, length_chunk]; decide)
    rw [List.append_nil, ← headerItems_eq] at hpack
    rw [headerBytes, hpack, List.map_map]
    exact List.map_congr_left fun f _ => ofBytesLE_chunk m _
  unfold readHeader
  simp only [htake, hunpack, length_headerBytes, HeaderField.all, List.map_cons, List.map_nil]
  rw [if_neg (by omega), if_neg]
  · rfl
  · have hmagic : FILE_MAGIC = MAGIC := rfl
    have htwo := h.two_le
    rw [h.magic, h.version, h.eventSize, h.capacity, hmagic]
    omega

/-- The format cuts the chunks of a slot out of the file. -/
theorem unpack_fileBytes {slots slot : Nat} (hslot : slot < slots) :
    unpack (formatItems EVENT) ((m.fileBytes slots).drop (128 + slot * 64))
      = EventField.all.map fun f => m.chunk (.event slot f) := by
  obtain ⟨rest, hdrop⟩ := m.drop_fileBytes hslot
  have hpack := unpack_pack (formatItems EVENT) []
    (EventField.all.map fun f => m.chunk (.event slot f)) [] rest
    (by rw [List.map_map]; simp only [Function.comp_def, length_chunk]; rfl)
  rw [List.append_nil, List.append_nil] at hpack
  rw [hdrop, slotBytes, eventItems_eq, hpack]

/-- A slot of the file is that of the ring. -/
theorem slotEvent_fileBytes {slots slot : Nat} (hslot : slot < slots) :
    slotEvent (m.fileBytes slots) slot = some (m.event slot) := by
  have hnumbers : (EventField.all.map fun f => m.chunk (.event slot f)).map ofBytesLE
      = EventField.all.map fun f => m.read (.event slot f) := by
    rw [List.map_map]
    exact List.map_congr_left fun f _ => ofBytesLE_chunk m _
  unfold slotEvent
  rw [unpack_fileBytes hslot, hnumbers]
  rfl

/-- Reading the file of a formatted mapping gives its snapshot. -/
theorem readEvents_fileBytes {slots : Nat} (h : m.Formatted slots) (path : String) :
    readEvents path (m.fileBytes slots) = .ok (m.snapshot path) := by
  have hcap : (m.header path).capacity = slots := h.capacity
  have hcount : min slots (((m.fileBytes slots).length - 128) / 64) = slots := by
    rw [length_fileBytes]
    omega
  have hselect : (m.header path).select slots (slotEvent (m.fileBytes slots))
      = (m.header path).select slots fun slot => some (m.event slot) := by
    unfold FlightHeader.select
    exact List.filterMap_congr fun slot hslot => by
      rw [slotEvent_fileBytes (List.mem_range.mp hslot)]
  unfold readEvents
  simp only [readHeader_fileBytes h, bind, Except.bind, pure, Except.pure, hcap, hcount, hselect,
    snapshot]

end Ring

/-! ### The numbers of the events -/

/-- The numbers of the returned events lie in the window of the header. -/
theorem seq_of_readEvents {path : String} {raw : List UInt8} {s : Snapshot}
    (h : readEvents path raw = .ok s) {e : Event} (he : e ∈ s.events) :
    s.header.lower ≤ e.seq ∧ e.seq ≤ s.header.writeSeq := by
  simp only [readEvents, bind, Except.bind, pure, Except.pure] at h
  split at h
  · cases h
  · obtain rfl := Except.ok.inj h
    rw [mem_sortBySeq, FlightHeader.mem_select] at he
    obtain ⟨slot, -, -, haccepts⟩ := he
    simp only [FlightHeader.accepts, decide_eq_true_eq] at haccepts
    exact ⟨haccepts.1, haccepts.2.1⟩

/-- As many events as the counter says: every number up to the counter is there. -/
theorem seq_present {path : String} {raw : List UInt8} {s : Snapshot}
    (h : readEvents path raw = .ok s) (hall : s.header.writeSeq ≤ s.events.length) {q : Nat}
    (hone : 1 ≤ q) (hq : q ≤ s.header.writeSeq) : ∃ e ∈ s.events, e.seq = q := by
  have hnodup : (s.events.map Event.seq).Nodup := by
    rw [List.Nodup, List.pairwise_map]
    exact s.sorted.imp fun hab => Nat.ne_of_lt hab
  have hsubset : (s.events.map Event.seq).toFinset ⊆ Finset.Icc 1 s.header.writeSeq := by
    intro n hn
    obtain ⟨e, he, rfl⟩ := List.mem_map.mp (List.mem_toFinset.mp hn)
    obtain ⟨hlow, hhigh⟩ := seq_of_readEvents h he
    have hlower : 1 ≤ s.header.lower := Nat.le_max_left _ _
    exact Finset.mem_Icc.mpr ⟨hlower.trans hlow, hhigh⟩
  -- The numbers are distinct, so there are too many of them to leave one out.
  have hcard : (Finset.Icc 1 s.header.writeSeq).card ≤ (s.events.map Event.seq).toFinset.card := by
    rw [List.toFinset_card_of_nodup hnodup, List.length_map, Nat.card_Icc]
    omega
  have hmem : q ∈ (s.events.map Event.seq).toFinset := by
    rw [Finset.eq_of_subset_of_card_le hsubset hcard]
    exact Finset.mem_Icc.mpr ⟨hone, hq⟩
  exact List.mem_map.mp (List.mem_toFinset.mp hmem)

end HangAnalyzer.Recorder
