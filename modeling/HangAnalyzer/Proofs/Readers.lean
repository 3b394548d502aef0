import HangAnalyzer.Recorder.Checked
import HangAnalyzer.Mspti.Checked
import HangAnalyzer.Proofs.Mspti.File
import HangAnalyzer.Proofs.Mspti.Live

/-!
# `HangAnalyzer.Proofs.Readers`: both readers on arbitrary bytes

A file that a crash left behind can hold anything. `readEventsChecked_eq` and
`readFile_cases` say that the guards of the two readers suffice: a reader that raises where
the Python raises refuses the same files with the same texts as the model that cuts fields
out of nothing, and returns the same events on all others.

What is returned is read off the models without faults. `read_events` looks at every
complete slot and sorts, `read_ring` looks up one number after another, and both select by
the same rule (`readers_total_exact`).
-/

set_option autoImplicit false

namespace HangAnalyzer.Recorder

open HangAnalyzer.Lib

/-! ### The recorder's reader -/

/-- A header that is long enough has its fields. -/
theorem readHeaderChecked_eq (path : String) (raw : List UInt8) :
    readHeaderChecked path raw = (readHeader path raw).mapError .value := by
  unfold readHeaderChecked readHeader
  by_cases hshort : (raw.take 128).length < 128
  · simp only [hshort, if_true]
    rfl
  · have hsize : Item.total (formatItems HEADER) = 64 := by decide
    simp only [hshort, if_false]
    rw [unpackFrom_ok (by omega), List.drop_zero]
    -- `HEADER` has eleven codes.
    show (if _ then _ else _) = Except.mapError _ (if _ then _ else _)
    split
    · rfl
    · rfl

/-- The capacity that `readHeader` lets through. -/
theorem two_le_capacity {path : String} {raw : List UInt8} {h : FlightHeader}
    (hread : readHeader path raw = .ok h) : 2 ≤ h.capacity := by
  unfold readHeader at hread
  simp only at hread
  split at hread
  · cases hread
  · split at hread
    · split at hread
      · cases hread
      · -- A capacity below 2 is refused.
        rename_i capacity _ _ _ _ _ _ _ _ hguard
        obtain rfl := Except.ok.inj hread
        show 2 ≤ capacity
        omega
    · cases hread

/-- A slot that lies in the file is read, and accepted or not. -/
theorem readSlotChecked_eq {h : FlightHeader} {raw : List UInt8} {slot : Nat}
    (hcapacity : 0 < h.capacity) (hslot : 128 + slot * 64 + 64 ≤ raw.length) :
    readSlotChecked h raw slot
      = .ok ((slotEvent raw slot).filter fun e => h.accepts slot e.seq) := by
  have hsize : Item.total (formatItems EVENT) = 64 := by decide
  unfold readSlotChecked slotEvent
  rw [unpackFrom_ok (by omega)]
  generalize raw.drop (128 + slot * 64) = bytes
  -- `EVENT` has twelve value codes.
  show (if _ then _ else _) = Except.ok (Option.filter _ (some _))
  rw [checkedMod_ok hcapacity, Option.filter_some]
  show (if _ then (if _ then _ else _) else _) = _
  simp only [FlightHeader.accepts, decide_eq_true_eq]
  split
  · rename_i hwindow
    split
    · rename_i hresidue
      rw [if_pos ⟨hwindow.1, hwindow.2, hresidue⟩]
    · rename_i hresidue
      rw [if_neg fun hall => hresidue hall.2.2]
  · rename_i hwindow
    rw [if_neg fun hall => hwindow ⟨hall.1, hall.2.1⟩]

/-- `read_events` raises the `ValueError`s of its header, or nothing. -/
theorem readEventsChecked_eq (path : String) (raw : List UInt8) :
    readEventsChecked path raw
      = ((readEvents path raw).map fun s => (s.header, s.events)).mapError .value := by
  unfold readEventsChecked readEvents
  rw [readHeaderChecked_eq]
  cases hread : readHeader path raw with
  | error text => rfl
  -- The capacity and the length of the file keep every index in range.
  | ok h =>
      have hcapacity := two_le_capacity hread
      have hbody : ∀ slot ∈ List.range (min h.capacity ((raw.length - 128) / 64)),
          readSlotChecked h raw slot
            = .ok ((slotEvent raw slot).filter fun e => h.accepts slot e.seq) := by
        intro slot hslot
        rw [List.mem_range] at hslot
        exact readSlotChecked_eq (by omega) (by omega)
      show (collect _ _ >>= _) = _
      rw [collect_ok hbody]
      rfl

end HangAnalyzer.Recorder

namespace HangAnalyzer.Mspti

open HangAnalyzer.Lib

/-! ### The ring's reader -/

/-- Both formats are a multiple of eight bytes, and longer than the number. -/
theorem eventSize_cases (version : Nat) : eventSize version = 128 ∨ eventSize version = 192 := by
  unfold eventSize eventFormat
  split
  · exact .inr (by decide)
  · exact .inl (by decide)

/-- Decoding under a number: the fields have to start with it. -/
theorem decodeSlot_eq (version seq : Nat) (raw : List UInt8) :
    ∃ e : Event, e.seq = seq ∧
      dictChecked version seq (unpack (formatItems (eventFormat version)) raw) = .ok e ∧
      decodeSlot version seq raw = if ofBytesLE (raw.take 8) ≠ seq then none else some e := by
  unfold eventFormat decodeSlot
  by_cases hversion : version = 2
  · subst hversion
    exact ⟨_, rfl, rfl, rfl⟩
  · unfold dictChecked
    simp only [if_neg hversion]
    exact ⟨_, rfl, rfl, rfl⟩

section
variable {file : List UInt8} {version capacity seq : Nat}

/-- Every record starts with its number. -/
theorem index_zero (version : Nat) (raw : List UInt8) :
    index (unpack (formatItems (eventFormat version)) raw) 0 = .ok (raw.take 8) := by
  unfold eventFormat
  split <;> rfl

/-- The loop body raises nothing for a slot that lies in the file. -/
theorem readSlotChecked_eq (hcapacity : 0 < capacity) {offset : Nat}
    (hoffset : offset = 128 + (seq - 1) % capacity * eventSize version)
    (hslot : offset + eventSize version ≤ file.length) :
    readSlotChecked file version (eventSize version) capacity seq
      = .ok (decodeSlot version seq ((file.drop offset).take (eventSize version))) := by
  have hsizes := eventSize_cases version
  have hword : Item.total (formatItems [Code.Q]) = 8 := by decide
  obtain ⟨e, -, hdict, hdecode⟩ :=
    decodeSlot_eq version seq ((file.drop offset).take (eventSize version))
  rw [unpack_take (n := eventSize version) _ _ (Nat.le_refl _)] at hdict
  rw [List.take_take, Nat.min_eq_left (by omega)] at hdecode
  unfold readSlotChecked
  simp only [checkedMod_ok hcapacity, bind, Except.bind, ← hoffset]
  -- The slot is in the file, so nothing is read beyond its end.
  rw [unpackFrom_ok (by omega), unpackFrom_ok hslot]
  simp only [index_zero, hdict, hdecode]
  show (if ofBytesLE ((file.drop offset).take 8) ≠ seq then _ else _) = _
  -- The first test of the number decides, and the second one sees the same bytes.
  by_cases hseq : ofBytesLE ((file.drop offset).take 8) ≠ seq
  · rw [if_pos hseq, if_pos hseq]
  · rw [if_neg hseq, if_neg hseq]
    show (if ofBytesLE ((file.drop offset).take 8) ≠ seq ∨
      ofBytesLE ((file.drop offset).take 8) ≠ seq then _ else _) = _
    rw [if_neg (not_or.mpr ⟨hseq, hseq⟩)]
    rfl

/-- The bytes of a slot are words of the file. -/
theorem eval_words_slot {offset size : Nat} (hoffset : 8 * (offset / 8) = offset)
    (hsize : 8 * (size / 8) = size) :
    (Reading.words (offset / 8) (size / 8)).eval (fileWord file)
      = (file.drop offset).take size := by
  have hword (i : Nat) :
      fileWord file (offset / 8 + i) = ((file.drop offset).drop (8 * i)).take 8 := by
    rw [fileWord, List.drop_drop, Nat.mul_add, hoffset]
  rw [Reading.eval_words]
  simp only [hword]
  rw [flatMap_words, hsize]

/-- The reader of a mapping that does not change sees the bytes of the slot. -/
theorem eval_readSlot {offset : Nat}
    (hoffset : offset = 128 + (seq - 1) % capacity * eventSize version) :
    (readSlot version (eventSize version) capacity seq).eval (fileWord file)
      = decodeSlot version seq ((file.drop offset).take (eventSize version)) := by
  have hsizes := eventSize_cases version
  -- The size of a slot is a multiple of eight, so a slot starts at a word.
  have haligned : 8 * (offset / 8) = offset := by
    rcases hsizes with hsize | hsize
    · rw [hsize] at hoffset
      omega
    · rw [hsize] at hoffset
      omega
  have hword : fileWord file (offset / 8) = (file.drop offset).take 8 := by
    rw [fileWord, haligned]
  obtain ⟨e, -, -, hdecode⟩ :=
    decodeSlot_eq version seq ((file.drop offset).take (eventSize version))
  rw [List.take_take, Nat.min_eq_left (by omega)] at hdecode
  unfold readSlot slotWord
  rw [← hoffset]
  show Reading.eval _ (if ofBytesLE (fileWord file (offset / 8)) ≠ seq then _ else _) = _
  rw [hword]
  -- The reader goes on only if the number is the expected one.
  by_cases hseq : ofBytesLE ((file.drop offset).take 8) ≠ seq
  · rw [if_pos hseq, hdecode, if_pos hseq]
    rfl
  · rw [if_neg hseq, Reading.eval_bind, eval_words_slot haligned (by omega)]
    show (if ofBytesLE (fileWord file (offset / 8)) ≠ seq then _ else _) = _
    rw [hword, if_neg hseq]

/-- The events of a mapping that does not change, one number after another. -/
theorem eval_scan (h : RingHeader) (seqs : List Nat) (events : List Event) {size : Nat} :
    (scan version size h seqs events).eval (fileWord file)
      = .ok (h, events ++ seqs.filterMap fun seq =>
          (readSlot version size h.capacity seq).eval (fileWord file)) := by
  induction seqs generalizing events with
  | nil =>
      rw [List.filterMap_nil, List.append_nil]
      rfl
  | cons seq seqs ih =>
      -- Each slot adds its event, if it has one.
      rw [scan, Reading.eval_bind, ih, List.append_assoc, List.filterMap_cons]
      cases (readSlot version size h.capacity seq).eval (fileWord file) with
      | none => rfl
      | some e => rfl

/-- A number of the window is looked up in its slot. -/
theorem decodeSlot_eq_slotEvent {version : Nat} (hversion : fileVersion file = version) :
    decodeSlot version seq ((file.drop (128 + (seq - 1) % capacity * eventSize version)).take
        (eventSize version))
      = (slotEvent file ((seq - 1) % capacity)).filter fun e => e.seq = seq := by
  subst hversion
  unfold slotEvent
  simp only
  generalize (file.drop (128 + (seq - 1) % capacity * eventSize (fileVersion file))).take
    (eventSize (fileVersion file)) = raw
  obtain ⟨e, hseq, -, hdecode⟩ := decodeSlot_eq (fileVersion file) seq raw
  -- A slot with another number is refused by both.
  by_cases hnumber : ofBytesLE (raw.take 8) = seq
  · rw [hnumber, hdecode, if_neg (not_not.mpr hnumber), Option.filter_some,
      if_pos (by simpa using hseq)]
  · obtain ⟨e', hseq', -, hdecode'⟩ :=
      decodeSlot_eq (fileVersion file) (ofBytesLE (raw.take 8)) raw
    rw [hdecode, if_pos hnumber, hdecode', if_neg (not_not.mpr rfl), Option.filter_some,
      if_neg (by simpa [hseq'] using hnumber)]

end

/-- The numbers of the header, cut out at their offsets. -/
theorem header_fields (file : List UInt8) :
    ∃ magic size pid reserved wall mono dropped,
      (unpack (formatItems HEADER) file).map ofBytesLE
        = [magic, fileVersion file, size, ofBytesLE ((file.drop 16).take 8), pid, reserved,
            ofBytesLE ((file.drop 32).take 8), wall, mono, dropped] := by
  have hcut := unpack_eq (formatItems HEADER) 0 file
  rw [List.drop_zero] at hcut
  rw [hcut]
  exact ⟨_, _, _, _, _, _, _, rfl⟩

/-- The size that goes with a version. -/
theorem size_eq {version size : Nat} (h : Supported version size) :
    size = eventSize version := by
  rcases List.mem_pair.mp h with heq | heq
  · obtain ⟨rfl, rfl⟩ := Prod.mk.inj heq
    rfl
  · obtain ⟨rfl, rfl⟩ := Prod.mk.inj heq
    rfl

/-- Both models of `read_ring` refuse a file with the same text, or read the numbers of the
window, one after another. -/
theorem readFile_cases (file : List UInt8) :
    (∃ text, readFile file = .error text ∧ readRingChecked file = .error (.value text)) ∨
    ∃ h : RingHeader, h.capacity = ofBytesLE ((file.drop 16).take 8) ∧
      h.written = ofBytesLE ((file.drop 32).take 8) ∧
      readFile file = .ok (h, seqScan Event.seq (slotEvent file) h.capacity
        (window h.capacity h.written)) ∧
      readRingChecked file = .ok (h, seqScan Event.seq (slotEvent file) h.capacity
        (window h.capacity h.written)) := by
  unfold readFile readRing readRingChecked
  by_cases hempty : file.length = 0
  · rw [if_pos hempty, if_pos hempty]
    exact .inl ⟨_, rfl, rfl⟩
  rw [if_neg hempty, if_neg hempty]
  by_cases hshort : file.length < 128
  · rw [if_pos hshort, if_pos hshort]
    exact .inl ⟨_, rfl, rfl⟩
  rw [if_neg hshort, if_neg hshort]
  have hsize : Item.total (formatItems HEADER) = 64 := by decide
  have hwords : (Reading.words 0 8).eval (fileWord file) = (file.drop 0).take 64 :=
    @eval_words_slot file 0 64 rfl rfl
  rw [Reading.eval_bind, hwords, unpack_take _ _ (Nat.le_of_eq hsize), unpackFrom_ok (by omega),
    List.drop_zero]
  obtain ⟨magic, size, pid, reserved, wall, mono, dropped, hfields⟩ := header_fields file
  simp only [bind, Except.bind, hfields]
  by_cases hguard : magic ≠ FILE_MAGIC ∨ ¬ Supported (fileVersion file) size
  · rw [if_pos hguard, if_pos hguard]
    exact .inl ⟨_, rfl, rfl⟩
  rw [if_neg hguard, if_neg hguard]
  generalize ofBytesLE ((file.drop 16).take 8) = capacity
  generalize ofBytesLE ((file.drop 32).take 8) = written
  by_cases htruncated : file.length < 128 + capacity * size
  · rw [if_pos htruncated, if_pos htruncated]
    exact .inl ⟨_, rfl, rfl⟩
  rw [if_neg htruncated, if_neg htruncated]
  obtain rfl := size_eq (not_not.mp (not_or.mp hguard).2)
  -- Every slot of the ring lies in the file.
  have hbody : ∀ seq ∈ window capacity written,
      readSlotChecked file (fileVersion file) (eventSize (fileVersion file)) capacity seq
        = .ok ((slotEvent file ((seq - 1) % capacity)).filter fun e => e.seq = seq) := by
    intro seq hseq
    rw [mem_window] at hseq
    have hmod : (seq - 1) % capacity < capacity := Nat.mod_lt _ (by omega)
    have hslot : ((seq - 1) % capacity + 1) * eventSize (fileVersion file)
        ≤ capacity * eventSize (fileVersion file) := Nat.mul_le_mul_right _ hmod
    rw [Nat.succ_mul] at hslot
    rw [readSlotChecked_eq (by omega) rfl (by omega), decodeSlot_eq_slotEvent rfl]
  refine .inr ⟨⟨pid, capacity, written, wall, mono, dropped, written - capacity⟩, rfl, rfl, ?_, ?_⟩
  · rw [eval_scan, List.nil_append]
    simp only [eval_readSlot rfl, decodeSlot_eq_slotEvent]
    rfl
  · rw [collect_ok hbody]
    rfl

/-- The numbers of the window increase. -/
theorem sorted_window (capacity written : Nat) : (window capacity written).Pairwise (· < ·) :=
  List.pairwise_lt_range'

end HangAnalyzer.Mspti

namespace HangAnalyzer

open HangAnalyzer.Lib

/-! ### Both readers -/

/-- The `capacity` and the `write_seq` in the header of a file, which stand at the same
offsets in both formats. -/
def fileCapacity (file : List UInt8) : Nat := ofBytesLE ((file.drop 16).take 8)
def fileWriteSeq (file : List UInt8) : Nat := ofBytesLE ((file.drop 32).take 8)

/-- The header that `readHeader` returns shows the capacity and the counter of the file. -/
theorem header_of_readHeader {path : String} {file : List UInt8} {h : Recorder.FlightHeader}
    (hread : Recorder.readHeader path file = .ok h) :
    h.capacity = fileCapacity file ∧ h.writeSeq = fileWriteSeq file := by
  have hcut := unpack_eq (formatItems Recorder.HEADER) 0 (file.take 128)
  -- The words of the header are those of the file.
  have hword (offset : Nat) (hoffset : offset + 8 ≤ 128) :
      ((file.take 128).drop offset).take 8 = (file.drop offset).take 8 := by
    rw [List.drop_take, List.take_take, Nat.min_eq_left (by omega)]
  rw [fileCapacity, fileWriteSeq, ← hword 16 (by decide), ← hword 32 (by decide)]
  rw [List.drop_zero] at hcut
  unfold Recorder.readHeader at hread
  simp only [hcut] at hread
  split at hread
  · cases hread
  · change (if _ then _ else Except.ok _) = _ at hread
    split at hread
    · cases hread
    · obtain rfl := Except.ok.inj hread
      exact ⟨rfl, rfl⟩

/-- What `read_events` returns. -/
theorem selects_readEvents {path : String} {file : List UInt8} {s : Recorder.Snapshot}
    (hread : Recorder.readEvents path file = .ok s) :
    Selects Recorder.Event.seq (Recorder.slotEvent file)
      (min (fileCapacity file) ((file.length - 128) / 64)) (fileCapacity file)
      (fileWriteSeq file) s.events := by
  refine ⟨s.sorted, fun e => ?_⟩
  unfold Recorder.readEvents at hread
  cases hheader : Recorder.readHeader path file with
  | error text =>
      rw [hheader] at hread
      cases hread
  | ok h =>
      rw [hheader] at hread
      obtain rfl := Except.ok.inj hread
      obtain ⟨hcap, hwritten⟩ := header_of_readHeader hheader
      rw [← hcap, ← hwritten, Recorder.mem_sortBySeq, Recorder.FlightHeader.mem_select]
      simp only [Recorder.FlightHeader.accepts, decide_eq_true_eq]
      rfl

/-- **Both readers are total and exact on arbitrary bytes.** They raise nothing but a
`ValueError`. On success they return the events of the slots that hold a number of the
window in its own slot, each number once and in increasing order; `read_events` looks at the
complete slots of the file. -/
theorem readers_total_exact (path : String) (file : List UInt8) :
    (∀ fault, Recorder.readEventsChecked path file = .error fault → ∃ text, fault = .value text) ∧
    (∀ fault, Mspti.readRingChecked file = .error fault → ∃ text, fault = .value text) ∧
    (∀ h events, Recorder.readEventsChecked path file = .ok (h, events) →
      Selects Recorder.Event.seq (Recorder.slotEvent file)
        (min (fileCapacity file) ((file.length - 128) / 64)) (fileCapacity file)
        (fileWriteSeq file) events) ∧
    (∀ h events, Mspti.readRingChecked file = .ok (h, events) →
      Selects Mspti.Event.seq (Mspti.slotEvent file) (fileCapacity file) (fileCapacity file)
        (fileWriteSeq file) events) := by
  refine ⟨?_, ?_, ?_, ?_⟩
  · -- The checked reader only fails where the unchecked one does.
    intro fault herror
    rw [Recorder.readEventsChecked_eq] at herror
    cases hread : Recorder.readEvents path file with
    | error text =>
        rw [hread] at herror
        exact ⟨text, (Except.error.inj herror).symm⟩
    | ok s =>
        rw [hread] at herror
        cases herror
  · intro fault herror
    rcases Mspti.readFile_cases file with ⟨text, -, hchecked⟩ | ⟨h, -, -, -, hchecked⟩
    · rw [hchecked] at herror
      exact ⟨text, (Except.error.inj herror).symm⟩
    · rw [hchecked] at herror
      cases herror
  · -- What it accepts is what the unchecked one accepts.
    intro h events hread
    rw [Recorder.readEventsChecked_eq] at hread
    cases hevents : Recorder.readEvents path file with
    | error text =>
        rw [hevents] at hread
        cases hread
    | ok s =>
        rw [hevents] at hread
        obtain ⟨-, rfl⟩ := Prod.mk.inj (Except.ok.inj hread)
        exact selects_readEvents hevents
  · intro h events hread
    rcases Mspti.readFile_cases file with ⟨text, -, hchecked⟩ | ⟨h', hcap, hwritten, -, hchecked⟩
    · rw [hchecked] at hread
      cases hread
    · rw [hchecked] at hread
      obtain ⟨rfl, rfl⟩ := Prod.mk.inj (Except.ok.inj hread)
      rw [fileCapacity, fileWriteSeq, ← hcap, ← hwritten]
      refine selects_seqScan (Mspti.sorted_window _ _) fun seq => ?_
      rw [Mspti.mem_window]
      omega

end HangAnalyzer
