import Mathlib.Data.List.GetD
import Mathlib.Data.List.TakeWhile
import HangAnalyzer.Proofs.Mspti.File

/-!
# `HangAnalyzer.Proofs.Mspti.Slot`: the slot after one call

A `record` call stores each number of its slot, and of each string the bytes up to the
NUL (`stored`). Bytes behind the NUL keep what an earlier call left there, and the
reader stops before them. So the slot decodes to the event of the call, whatever it
held before (`decodeSlot_exec`).
-/

set_option autoImplicit false

namespace HangAnalyzer.Mspti

open HangAnalyzer.Lib

/-! ### The event of a call -/

/-- The string that the reader shows for a recorded one: at most 63 bytes of it. -/
def shown : Option CString → String
  | none     => ""
  | some src => String.ofList (decodeReplace (src.bytes.take 63))

/-- The event of a call with the number `seq`. -/
def Call.event (c : Call) (owner : UInt32) (seq : Nat) : Event where
  seq := seq
  observedNs := c.observedNs.toNat
  startNs := c.start.toNat
  endNs := c.stop.toNat
  correlationId := c.correlation.toNat
  pid := owner.toNat
  tid := c.tid.toNat
  device := c.device.toNat
  stream := c.stream.toNat
  kind := .ofNumber c.kind.toNat
  flags := 0
  code := c.code.toNat
  name := shown c.name
  detail := shown c.detail

/-- The event in a slot. -/
def Ring.event (m : Ring) (slot : Nat) : Event where
  seq := m.read (.event slot .seq)
  observedNs := m.read (.event slot .observedNs)
  startNs := m.read (.event slot .activityStartNs)
  endNs := m.read (.event slot .activityEndNs)
  correlationId := m.read (.event slot .correlationId)
  pid := m.read (.event slot .pid)
  tid := m.read (.event slot .tid)
  device := m.read (.event slot .deviceId)
  stream := m.read (.event slot .streamId)
  kind := .ofNumber (m.read (.event slot .kind))
  flags := m.read (.event slot .flags)
  code := m.read (.event slot .code)
  name := text (m.chars fun i => .event slot (.name i))
  detail := text (m.chars fun i => .event slot (.detail i))

/-- The reader finds the event in the bytes of a slot. -/
theorem decodeSlot_slotBytes (m : Ring) (slot seq : Nat) :
    decodeSlot 2 seq (m.slotBytes slot)
      = if m.read (.event slot .seq) = seq then some (m.event slot) else none := by
  -- The bytes of the slot are read back field by field.
  have hunpack : unpack (formatItems EVENT) (m.slotBytes slot)
      = EventField.numbers.map (fun f => m.chunk (.event slot f)) ++
          [m.chars fun i => .event slot (.name i), m.chars fun i => .event slot (.detail i)] := by
    have h := unpack_pack (formatItems EVENT) [] (EventField.numbers.map
      (fun f => m.chunk (.event slot f)) ++ [m.chars fun i => .event slot (.name i),
        m.chars fun i => .event slot (.detail i)]) [] [] (by
          rw [List.map_append, List.map_map]
          simp only [Function.comp_def, Ring.length_chunk, List.map_cons, List.map_nil,
            Ring.length_chars]
          rfl)
    simpa [Ring.slotBytes, eventItems_eq] using h
  unfold decodeSlot
  rw [if_pos rfl, hunpack]
  show (if _ then _ else _) = _
  simp only [Ring.ofBytesLE_chunk]
  by_cases hseq : m.read (.event slot .seq) = seq
  · simp only [hseq, ne_eq, not_true_eq_false, if_false, if_true]
    rw [Ring.event, hseq]
    rfl
  · simp only [hseq, ne_eq, not_false_eq_true, if_true, if_false]

/-! ### What a call stores -/

/-- The byte that `nameCopy` stores at a place of the string. -/
def copied : Option CString → Nat → Option Nat
  | none,     i => if i = 0 then some 0 else none
  | some src, i =>
      let n := min src.bytes.length 63
      if i < n then some (src.bytes.getD i 0).toNat else if i = n then some 0 else none

/-- What a call stores into a field. -/
def stored (owner : UInt32) (seq : Nat) (c : Call) : EventField → Option Nat
  | .seq             => some seq
  | .observedNs      => some c.observedNs.toNat
  | .activityStartNs => some c.start.toNat
  | .activityEndNs   => some c.stop.toNat
  | .correlationId   => some c.correlation.toNat
  | .pid             => some owner.toNat
  | .tid             => some c.tid.toNat
  | .deviceId        => some c.device.toNat
  | .streamId        => some c.stream.toNat
  | .kind            => some c.kind.toNat
  | .flags           => some 0
  | .code            => some c.code.toNat
  | .name i          => copied c.name i
  | .detail i        => copied c.detail i

/-- `nameCopy` stores the bytes of `copied`. -/
theorem mem_nameCopy_iff {dst : Nat → Cell} {src : Option CString} {a : Assign Cell} :
    a ∈ nameCopy dst src ↔ ∃ i v, copied src i = some v ∧ a = ⟨dst i, .const v⟩ := by
  cases src with
  | none => simp [nameCopy, copied]
  | some src =>
      simp only [nameCopy, List.mem_append, List.mem_map, List.mem_range, List.mem_singleton]
      constructor
      · -- The copy has one store for each character, and one for the end.
        intro h
        rcases h with ⟨i, hi, rfl⟩ | rfl
        · exact ⟨i, _, if_pos hi, rfl⟩
        · exact ⟨min src.bytes.length 63, 0, by simp [copied], rfl⟩
      · intro ⟨i, v, hv, ha⟩
        simp only [copied] at hv
        split at hv
        · rename_i hi
          exact Or.inl ⟨i, hi, by rw [ha, ← Option.some.inj hv]⟩
        · split at hv
          · rename_i hi
            exact Or.inr (by rw [ha, ← Option.some.inj hv, hi])
          · cases hv

/-- The stores between the two stores to `seq` are those of `stored`. -/
theorem mem_fieldStores_iff {owner : UInt32} {slot : EventField → Cell} (seq : Nat) {c : Call}
    {a : Assign Cell} :
    a ∈ fieldStores owner slot c ↔
      ∃ f v, f ≠ .seq ∧ stored owner seq c f = some v ∧ a = ⟨slot f, .const v⟩ := by
  constructor
  · intro h
    rcases List.mem_append.mp h with hmem | hmem
    · rcases List.mem_append.mp hmem with hmem | hmem
      · simp only [List.mem_cons, List.not_mem_nil, or_false] at hmem
        rcases hmem with rfl | rfl | rfl | rfl | rfl | rfl | rfl | rfl | rfl | rfl | rfl
        all_goals exact ⟨_, _, by simp, by rfl, rfl⟩
      · obtain ⟨i, v, hv, rfl⟩ := mem_nameCopy_iff.mp hmem
        exact ⟨.name i, v, by simp, hv, rfl⟩
    · obtain ⟨i, v, hv, rfl⟩ := mem_nameCopy_iff.mp hmem
      exact ⟨.detail i, v, by simp, hv, rfl⟩
  · intro ⟨f, v, hf, hv, ha⟩
    have hname : ∀ i, f = .name i → a ∈ nameCopy (fun i => slot (.name i)) c.name := by
      intro i hi
      subst hi
      exact mem_nameCopy_iff.mpr ⟨i, v, hv, ha⟩
    have hdetail : ∀ i, f = .detail i → a ∈ nameCopy (fun i => slot (.detail i)) c.detail := by
      intro i hi
      subst hi
      exact mem_nameCopy_iff.mpr ⟨i, v, hv, ha⟩
    subst ha
    -- The fields that are no bytes of a text are stored whatever the call is.
    cases f with
    | seq => exact absurd rfl hf
    | name i => simp [fieldStores, hname i rfl]
    | detail i => simp [fieldStores, hdetail i rfl]
    | _ =>
        obtain rfl := Option.some.inj hv
        simp [fieldStores]

/-- The slot after a call, field by field. -/
theorem read_recordStores {owner : UInt32} {capacity seq : Nat} {c : Call} {f : EventField}
    {v : Nat} (m : Ring) (hv : stored owner seq c f = some v) :
    ((recordStores owner capacity seq c).foldl Assign.exec m).read
        (.event (slotOf capacity seq) f) = v % 256 ^ f.width := by
  by_cases hf : f = .seq
  · -- The number is stored last.
    subst hf
    obtain rfl := Option.some.inj hv
    exact read_exec_last (a := ⟨.event (slotOf capacity seq) .seq, .const seq⟩) _ [] m (by simp)
  · -- The stores to `seq` go elsewhere, and the others to this field store `v`.
    refine read_exec_of_mem _ m ?_ ?_
    · refine List.mem_append_left _ (List.mem_cons_of_mem _ ?_)
      exact (mem_fieldStores_iff seq).mpr ⟨f, v, hf, hv, rfl⟩
    · intro b hb hdst
      rcases List.mem_append.mp hb with hb | hb
      · rcases List.mem_cons.mp hb with rfl | hb
        · exact absurd (Cell.event.inj hdst).2.symm hf
        · obtain ⟨f', v', -, hv', rfl⟩ := (mem_fieldStores_iff seq).mp hb
          obtain rfl := (Cell.event.inj hdst).2
          rw [Option.some.inj (hv.symm.trans hv')]
      · obtain rfl := List.mem_singleton.mp hb
        exact absurd (Cell.event.inj hdst).2.symm hf

/-! ### Strings -/

/-- The reader stops at the first NUL. -/
theorem takeWhile_range (g : Nat → UInt8) {n N : Nat} (hn : n < N) (hfront : ∀ i < n, g i ≠ 0)
    (hend : g n = 0) :
    ((List.range N).map g).takeWhile (· ≠ 0) = (List.range n).map g := by
  obtain ⟨k, rfl⟩ : ∃ k, N = n + (k + 1) := ⟨N - n - 1, by omega⟩
  rw [List.range_add, List.range_succ_eq_map, List.map_append]
  rw [List.takeWhile_append_of_pos]
  · simp [hend]
  · intro b hb
    obtain ⟨i, hi, rfl⟩ := List.mem_map.mp hb
    exact decide_eq_true (hfront i (List.mem_range.mp hi))

/-- The text of a string that `nameCopy` has stored. -/
theorem text_chars {m : Ring} {byte : Nat → Cell} {src : Option CString}
    (h : ∀ i v, copied src i = some v → m.read (byte i) = v % 256) :
    text (m.chars byte) = shown src := by
  cases src with
  -- `name_copy` of a null pointer stores a NUL and nothing else.
  | none =>
      have hzero : m.read (byte 0) = 0 := h 0 0 rfl
      have htake := takeWhile_range (fun i => UInt8.ofNat (m.read (byte i))) (n := 0) (N := 64)
        (by omega) (by simp) (by simp [hzero])
      rw [text, Ring.chars, htake]
      rfl
  -- The bytes that are stored have no NUL, and the next byte is one.
  | some src =>
      have hbyte : ∀ i < min src.bytes.length 63,
          UInt8.ofNat (m.read (byte i)) = src.bytes.getD i 0 := by
        intro i hi
        rw [h i (src.bytes.getD i 0).toNat (if_pos hi)]
        simp
      have hnul : m.read (byte (min src.bytes.length 63)) = 0 :=
        h _ 0 (by simp [copied])
      have htake := takeWhile_range (fun i => UInt8.ofNat (m.read (byte i)))
        (n := min src.bytes.length 63) (N := 64) (by omega) (fun i hi => by
          have hlt : i < src.bytes.length := by omega
          show UInt8.ofNat (m.read (byte i)) ≠ 0
          rw [hbyte i hi, List.getD_eq_getElem _ _ hlt]
          intro hz
          exact src.nonzero (hz ▸ List.getElem_mem hlt)) (by simp [hnul])
      have hbytes : (List.range (min src.bytes.length 63)).map
          (fun i => UInt8.ofNat (m.read (byte i))) = src.bytes.take 63 := by
        apply List.ext_getElem
        · simp [Nat.min_comm]
        · intro i h₁ h₂
          have hi : i < min src.bytes.length 63 := by simpa using h₁
          have hlt : i < src.bytes.length := by omega
          rw [List.getElem_map, List.getElem_range, hbyte i hi, List.getD_eq_getElem _ _ hlt,
            List.getElem_take]
      rw [text, Ring.chars, htake, hbytes]
      rfl

/-! ### The event -/

/-- A slot whose fields are those after a call decodes to the event of the call. -/
theorem decodeSlot_exec {owner : UInt32} {capacity seq : Nat} {c : Call} {m : Ring}
    (m' : Ring) (hseq : seq < 2 ^ 64)
    (h : ∀ f, m.read (.event (slotOf capacity seq) f)
      = ((recordStores owner capacity seq c).foldl Assign.exec m').read
          (.event (slotOf capacity seq) f)) :
    decodeSlot 2 seq (m.slotBytes (slotOf capacity seq)) = some (c.event owner seq) := by
  -- No field is truncated, for each value fits its field.
  have hread : ∀ f v, stored owner seq c f = some v → v < 256 ^ f.width →
      m.read (.event (slotOf capacity seq) f) = v := by
    intro f v hv hlt
    rw [h f, read_recordStores m' hv, Nat.mod_eq_of_lt hlt]
  -- The reader takes the text up to the first zero.
  have hname : text (m.chars fun i => .event (slotOf capacity seq) (.name i)) = shown c.name :=
    text_chars fun i v hv => (h (.name i)).trans (read_recordStores (f := .name i) m' hv)
  have hdetail : text (m.chars fun i => .event (slotOf capacity seq) (.detail i))
      = shown c.detail :=
    text_chars fun i v hv => (h (.detail i)).trans (read_recordStores (f := .detail i) m' hv)
  rw [decodeSlot_slotBytes, if_pos (hread .seq seq rfl (by simpa [EventField.width] using hseq))]
  rw [Ring.event, hname, hdetail]
  simp only [Call.event, Option.some.injEq, Event.mk.injEq, and_true]
  refine ⟨hread .seq seq rfl (by simpa [EventField.width] using hseq),
    hread .observedNs _ rfl c.observedNs.toNat_lt, hread .activityStartNs _ rfl c.start.toNat_lt,
    hread .activityEndNs _ rfl c.stop.toNat_lt, hread .correlationId _ rfl c.correlation.toNat_lt,
    hread .pid _ rfl owner.toNat_lt, hread .tid _ rfl c.tid.toNat_lt,
    hread .deviceId _ rfl c.device.toNat_lt, hread .streamId _ rfl c.stream.toNat_lt,
    congrArg _ (hread .kind _ rfl c.kind.toNat_lt), hread .flags _ rfl (by simp [EventField.width]),
    hread .code _ rfl c.code.toNat_lt⟩

end HangAnalyzer.Mspti
