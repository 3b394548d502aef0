import Mathlib.Data.List.Basic
import HangAnalyzer.Mspti.Ring
import HangAnalyzer.Mspti.Format

/-!
# `HangAnalyzer.Proofs.Mspti.File`: the reader sees the mapping

The C structs and the Python formats describe the same bytes (`headerItems_eq`,
`eventItems_eq`). A word of the file is a word of the header or of one slot, so the
words that `readRing` reads are those of the fields, even if each word is read from
another state of the mapping (`header_words`). `decodeSlot` on the bytes of a slot
reads them off the fields (`decodeSlot_slotBytes`).
-/

set_option autoImplicit false

namespace HangAnalyzer.Mspti

open HangAnalyzer.Lib

/-! ### One layout -/

/-- The reader's header format covers the struct up to its `pad`. -/
theorem headerItems_eq : cStruct 64 headerFields = formatItems HEADER ++ [.field 64] := by
  decide

/-- The reader's event format is the struct. -/
theorem eventItems_eq : cStruct 64 eventFields = formatItems EVENT := by
  decide

/-- The size of an event in bytes. -/
theorem EVENT_SIZE_eq : EVENT_SIZE = 192 := by
  decide

/-! ### Words -/

/-- Cutting a list into words and joining them again. -/
theorem flatMap_words (bs : List UInt8) (n : Nat) :
    (List.range n).flatMap (fun j => (bs.drop (8 * j)).take 8) = bs.take (8 * n) := by
  induction n with
  | zero => simp
  | succ n ih =>
      rw [List.range_succ, List.flatMap_append, ih, List.flatMap_singleton, Nat.mul_succ,
        List.take_add]

/-- A word of a list of words. -/
theorem word_flatten (groups : List (List UInt8)) (rest : List UInt8)
    (h : ∀ g ∈ groups, g.length = 8) {j : Nat} (hj : j < groups.length) :
    ((groups.flatten ++ rest).drop (8 * j)).take 8 = groups.getD j [] := by
  induction groups generalizing j with
  | nil => cases hj
  | cons g groups ih =>
      have hg := h g List.mem_cons_self
      rw [List.flatten_cons, List.append_assoc]
      cases j with
      | zero => exact List.take_left' hg
      | succ j =>
          rw [Nat.mul_succ, Nat.add_comm, ← List.drop_drop, List.drop_left' hg]
          exact ih (fun g' hg' => h g' (List.mem_cons_of_mem _ hg')) (Nat.lt_of_succ_lt_succ hj)

namespace Ring

variable (m : Ring)

/-- The bytes of a cell are read as its value. -/
@[simp] theorem ofBytesLE_chunk (c : Cell) : ofBytesLE (m.chunk c) = m.read c := by
  rw [chunk, ofBytesLE_toBytesLE, Memory.read_mod]

/-- A cell takes its width. -/
@[simp] theorem length_chunk (c : Cell) : (m.chunk c).length = c.width := by
  simp [chunk]

/-- A string takes 64 bytes. -/
@[simp] theorem length_chars (byte : Nat → Cell) : (m.chars byte).length = 64 := by
  simp [chars]

/-- The header takes 128 bytes. -/
theorem length_headerBytes : m.headerBytes.length = 128 := by
  rw [headerBytes, length_pack]
  · decide
  · rw [List.map_append, List.map_map]
    simp only [Function.comp_def, length_chunk]
    decide

/-- A slot takes 192 bytes. -/
theorem length_slotBytes (slot : Nat) : (m.slotBytes slot).length = 192 := by
  rw [slotBytes, length_pack]
  · decide
  · rw [List.map_append, List.map_map]
    simp only [Function.comp_def, length_chunk, List.map_cons, List.map_nil, length_chars]
    rfl

/-- The slots follow each other without a gap. -/
theorem length_flatMap_slotBytes (l : List Nat) :
    (l.flatMap m.slotBytes).length = l.length * 192 := by
  induction l with
  | nil => rfl
  | cons i l ih =>
      simp only [List.flatMap_cons, List.length_append, length_slotBytes, ih, List.length_cons]
      omega

/-- The length of the file. -/
theorem length_fileBytes (slots : Nat) : (m.fileBytes slots).length = 128 + slots * 192 := by
  rw [fileBytes, List.length_append, length_headerBytes, length_flatMap_slotBytes,
    List.length_range]

/-- The file from slot `i` on starts with the bytes of slot `i`. -/
theorem drop_fileBytes {slots i : Nat} (hi : i < slots) :
    ∃ rest, (m.fileBytes slots).drop (128 + i * 192) = m.slotBytes i ++ rest := by
  have hrange : List.range slots = List.range i ++ i :: List.range' (i + 1) (slots - i - 1) := by
    rw [List.range_eq_range', List.range_eq_range', ← List.range'_succ]
    have happend := List.range'_append_1 (s := 0) (m := i) (n := slots - i - 1 + 1)
    rw [Nat.zero_add] at happend
    rw [happend]
    congr 1
    omega
  refine ⟨(List.range' (i + 1) (slots - i - 1)).flatMap m.slotBytes, ?_⟩
  rw [fileBytes, ← List.drop_drop, List.drop_left' m.length_headerBytes, hrange,
    List.flatMap_append, List.flatMap_cons, List.drop_left']
  rw [length_flatMap_slotBytes, List.length_range]

/-- A word of a slot. -/
theorem fileWord_slot {slots i j : Nat} (hi : i < slots) (hj : j < 24) :
    fileWord (m.fileBytes slots) ((128 + i * 192) / 8 + j)
      = ((m.slotBytes i).drop (8 * j)).take 8 := by
  obtain ⟨rest, hrest⟩ := m.drop_fileBytes hi
  have hoffset : 8 * ((128 + i * 192) / 8 + j) = 128 + i * 192 + 8 * j := by omega
  rw [fileWord, hoffset, ← List.drop_drop, hrest, List.drop_append_of_le_length,
    List.take_append_of_le_length]
  · rw [List.length_drop, length_slotBytes]
    omega
  · rw [length_slotBytes]
    omega

/-- A word of the header. -/
theorem fileWord_header {slots j : Nat} (hj : j < 16) :
    fileWord (m.fileBytes slots) j = ((m.headerBytes).drop (8 * j)).take 8 := by
  rw [fileWord, fileBytes, List.drop_append_of_le_length, List.take_append_of_le_length]
  · rw [List.length_drop, length_headerBytes]
    omega
  · rw [length_headerBytes]
    omega

/-- The first word of a slot is its number. -/
theorem number_word {slots i : Nat} (hi : i < slots) :
    ofBytesLE (fileWord (m.fileBytes slots) ((128 + i * 192) / 8)) = m.read (.event i .seq) := by
  have hword := m.fileWord_slot hi (j := 0) (by decide)
  rw [Nat.add_zero, Nat.mul_zero, List.drop_zero] at hword
  rw [hword]
  have htake : (m.slotBytes i).take 8 = m.chunk (.event i .seq) :=
    List.take_left' (by rw [length_chunk]; rfl)
  rw [htake, ofBytesLE_chunk]

/-- The words of the header before its `pad`. -/
def headerWords : List (List UInt8) :=
  [m.chunk (.header .magic), m.chunk (.header .version) ++ m.chunk (.header .eventSize),
    m.chunk (.header .capacity), m.chunk (.header .pid) ++ m.chunk (.header .reserved),
    m.chunk (.header .writeSeq), m.chunk (.header .startedWallNs),
    m.chunk (.header .startedMonoNs), m.chunk (.header .dropped)]

/-- The header is made of its words and of zeros. -/
theorem headerBytes_eq : m.headerBytes = m.headerWords.flatten ++ List.replicate 64 0 := by
  rw [headerBytes, headerItems_eq]
  show m.chunk _ ++ (m.chunk _ ++ (m.chunk _ ++ (m.chunk _ ++ (m.chunk _ ++ (m.chunk _ ++
    (m.chunk _ ++ (m.chunk _ ++ (m.chunk _ ++ (m.chunk _ ++ (List.replicate 64 0 ++ []))))))))))
      = _
  simp only [headerWords, List.flatten_cons, List.flatten_nil, List.append_assoc,
    List.append_nil]

/-- A word of the header is one of `headerWords`. -/
theorem header_word {slots j : Nat} (hj : j < 8) :
    fileWord (m.fileBytes slots) j = m.headerWords.getD j [] := by
  rw [m.fileWord_header (by omega), headerBytes_eq]
  refine word_flatten _ _ (fun g hg => ?_) hj
  simp only [headerWords, List.mem_cons, List.not_mem_nil, or_false] at hg
  rcases hg with rfl | rfl | rfl | rfl | rfl | rfl | rfl | rfl <;>
    simp [Cell.width, HeaderField.width]

/-- The words of the header, each from a mapping of its own. -/
theorem header_words (mem : Nat → Ring) (slots : Nat) :
    (List.range 8).flatMap (fun j => fileWord ((mem j).fileBytes slots) j)
      = pack (formatItems HEADER)
          [(mem 0).chunk (.header .magic), (mem 1).chunk (.header .version),
            (mem 1).chunk (.header .eventSize), (mem 2).chunk (.header .capacity),
            (mem 3).chunk (.header .pid), (mem 3).chunk (.header .reserved),
            (mem 4).chunk (.header .writeSeq), (mem 5).chunk (.header .startedWallNs),
            (mem 6).chunk (.header .startedMonoNs), (mem 7).chunk (.header .dropped)] := by
  have hword : ∀ j ∈ List.range 8, fileWord ((mem j).fileBytes slots) j
      = (mem j).headerWords.getD j [] := by
    intro j hj
    exact (mem j).header_word (List.mem_range.mp hj)
  rw [List.flatMap_congr hword]
  show _ = _ ++ (_ ++ (_ ++ (_ ++ (_ ++ (_ ++ (_ ++ (_ ++ (_ ++ (_ ++ [])))))))))
  have hrange : List.range 8 = [0, 1, 2, 3, 4, 5, 6, 7] := rfl
  simp [hrange, headerWords]

end Ring

end HangAnalyzer.Mspti
