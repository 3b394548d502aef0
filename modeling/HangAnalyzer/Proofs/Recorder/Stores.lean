import HangAnalyzer.Proofs.Recorder.File

/-!
# `HangAnalyzer.Proofs.Recorder.Stores`: what the stores of one call write

`recordStores` in a uniform shape: the slot's `seq` is cleared, then every field
of the slot is stored exactly once, `seq` last, and then `last_ns` in the
header (`recordStores_eq`). `Call.source` is the value of a field's store.

The facts here are about the list of stores alone. `Proofs/Recorder/Sequential.lean`
runs it without interruption, `Proofs/Recorder/Interleaved.lean` in any
interleaving with other calls.
-/

set_option autoImplicit false

namespace HangAnalyzer.Recorder

open HangAnalyzer.Lib

/-! ### Field values fit their fields -/

/-- A word of 64 bits fits in eight bytes. -/
theorem toNat_mod_8 (x : UInt64) : x.toNat % 256 ^ 8 = x.toNat :=
  Nat.mod_eq_of_lt x.toNat_lt

/-- A word of 32 bits fits in four bytes. -/
theorem toNat_mod_4 (x : UInt32) : x.toNat % 256 ^ 4 = x.toNat :=
  Nat.mod_eq_of_lt x.toNat_lt

/-- A word of 16 bits fits in two bytes. -/
theorem toNat_mod_2 (x : UInt16) : x.toNat % 256 ^ 2 = x.toNat :=
  Nat.mod_eq_of_lt x.toNat_lt

/-- The counter is a 64-bit word. -/
theorem width_counter : 256 ^ Cell.width (.header .writeSeq) = 2 ^ 64 := by
  have hwidth : Cell.width (.header .writeSeq) = 8 := rfl
  rw [hwidth]
  norm_num

/-! ### The value of a call -/

/-- What the last store of a call to a field of its slot writes. -/
def Call.source (c : Call) (owner : UInt32) (seq : Nat) : EventField → Source Cell
  | .timestampNs   => .const c.timestampNs.toNat
  | .seq           => .const seq
  | .pid           => .const owner.toNat
  | .tid           => .const c.tid.toNat
  | .deviceId      => .load (.header .device)
  | .rankId        => .load (.header .rank)
  | .streamId      => .const c.stream.toNat
  | .type          => .const c.type.toNat
  | .flags         => .const c.flags.toNat
  | .correlationId => .const c.correlation.toNat
  | .arg0          => .const c.arg0.toNat
  | .arg1          => .const c.arg1.toNat

/-- What the events of one ring have in common: the process, and the rank and
device of the mapping's header. -/
structure Origin where
  pid : Nat
  rank : Nat
  device : Nat
  deriving Repr, DecidableEq

def Ring.origin (m : Ring) (owner : UInt32) : Origin where
  pid := owner.toNat
  rank := m.read (.header .rank)
  device := m.read (.header .device)

/-- The event of a call with the sequence number `seq`. -/
def Call.event (c : Call) (o : Origin) (seq : Nat) : Event where
  timestampNs := c.timestampNs.toNat
  seq := seq
  pid := o.pid
  tid := c.tid.toNat
  device := o.device
  rank := o.rank
  stream := c.stream.toNat
  type := .ofKind c.type.toNat
  flags := c.flags.toNat
  correlationId := c.correlation.toNat
  arg0 := c.arg0.toNat
  arg1 := c.arg1.toNat

/-- A slot whose fields hold the values of a call is the event of the call. -/
theorem event_eq_of_fields {m m₀ : Ring} {owner : UInt32} {c : Call} {seq slot : Nat}
    (hseq : seq < 2 ^ 64)
    (h : ∀ f, m.read (.event slot f)
      = (c.source owner seq f).eval m₀ % 256 ^ Cell.width (.event slot f)) :
    m.event slot = c.event (m₀.origin owner) seq := by
  have hw8 : seq % 256 ^ 8 = seq := Nat.mod_eq_of_lt (by omega)
  have hdev : m₀.read (.header .device) % 256 ^ 2 = m₀.read (.header .device) :=
    m₀.read_mod (.header .device)
  have hrank : m₀.read (.header .rank) % 256 ^ 2 = m₀.read (.header .rank) :=
    m₀.read_mod (.header .rank)
  unfold Ring.event Call.event Ring.origin
  simp only [h, Call.source, Source.eval, Cell.width, EventField.width, toNat_mod_8, toNat_mod_4,
    toNat_mod_2, hw8, hdev, hrank]

/-- The fields in the order of their stores. -/
def storeOrder : List EventField :=
  [.timestampNs, .pid, .tid, .deviceId, .rankId, .streamId, .type, .flags, .correlationId,
    .arg0, .arg1, .seq]

/-- Every field is stored. -/
theorem mem_storeOrder (f : EventField) : f ∈ storeOrder := by
  cases f <;> decide

/-- No field is stored twice. -/
theorem nodup_storeOrder : storeOrder.Nodup := by decide

section
variable (owner : UInt32) (capacity seq : Nat) (c : Call)

/-- The store of a field's value. -/
def fieldStore (f : EventField) : Assign Cell :=
  ⟨.event (slotOf capacity seq) f, c.source owner seq f⟩

/-- The store that clears the slot's `seq`. -/
def clearStore : Assign Cell := ⟨.event (slotOf capacity seq) .seq, .const 0⟩

/-- The store of `last_ns`. -/
def lastNsStore : Assign Cell :=
  ⟨.header .lastNs, .load (.event (slotOf capacity seq) .timestampNs)⟩

/-- A call clears the number, stores the fields and then the time. -/
theorem recordStores_eq : recordStores owner capacity seq c
    = clearStore capacity seq :: storeOrder.map (fieldStore owner capacity seq c)
        ++ [lastNsStore capacity seq] := rfl

/-- A store of a call to a slot field goes to its own slot, and writes the value
of the field or clears `seq`. -/
theorem mem_recordStores {a : Assign Cell} (h : a ∈ recordStores owner capacity seq c)
    {slot : Nat} {f : EventField} (hdst : a.dst = .event slot f) :
    slot = slotOf capacity seq ∧
      (a = fieldStore owner capacity seq c f ∨ f = .seq ∧ a = clearStore capacity seq) := by
  rw [recordStores_eq] at h
  simp only [List.cons_append, List.mem_cons, List.mem_append, List.mem_map, List.not_mem_nil,
    or_false] at h
  rcases h with rfl | ⟨g, -, rfl⟩ | rfl
  · simp only [clearStore, Cell.event.injEq] at hdst
    exact ⟨hdst.1.symm, .inr ⟨hdst.2.symm, rfl⟩⟩
  · simp only [fieldStore, Cell.event.injEq] at hdst
    obtain ⟨rfl, rfl⟩ := hdst
    exact ⟨rfl, .inl rfl⟩
  · simp [lastNsStore] at hdst

/-- No store of a call goes to a header field other than `last_ns`. -/
theorem dst_ne_header {a : Assign Cell} (h : a ∈ recordStores owner capacity seq c)
    {f : HeaderField} (hf : f ≠ .lastNs) : a.dst ≠ .header f := by
  rw [recordStores_eq] at h
  simp only [List.cons_append, List.mem_cons, List.mem_append, List.mem_map, List.not_mem_nil,
    or_false] at h
  rcases h with rfl | ⟨g, -, rfl⟩ | rfl
  · simp [clearStore]
  · simp [fieldStore]
  · simpa [lastNsStore] using hf.symm

/-- The stores of a call cut at the store of a field: what follows leaves the
field alone. -/
theorem recordStores_split (f : EventField) :
    ∃ pre post, recordStores owner capacity seq c
        = pre ++ fieldStore owner capacity seq c f :: post ∧
      ∀ b ∈ post, b.dst ≠ .event (slotOf capacity seq) f := by
  obtain ⟨before, after, hsplit⟩ := List.append_of_mem (mem_storeOrder f)
  have hnot : f ∉ after := by
    have hnodup := nodup_storeOrder
    rw [hsplit, List.nodup_append, List.nodup_cons] at hnodup
    exact hnodup.2.1.1
  refine ⟨clearStore capacity seq :: before.map (fieldStore owner capacity seq c),
    after.map (fieldStore owner capacity seq c) ++ [lastNsStore capacity seq], ?_, ?_⟩
  · rw [recordStores_eq, hsplit]
    simp
  · intro b hb
    simp only [List.mem_append, List.mem_map, List.mem_singleton] at hb
    rcases hb with ⟨g, hg, rfl⟩ | rfl
    · simp only [fieldStore, ne_eq, Cell.event.injEq, true_and]
      exact fun e => hnot (e ▸ hg)
    · simp [lastNsStore]

end

/-! ### What does not depend on the call -/

/-- The words whose value depends on the order of the stores only: the header
but for `last_ns`, and the number of each slot. -/
def Cell.ofOrder : Cell → Bool
  | header f  => f != .lastNs
  | event _ f => f == .seq

/-- The calls store to the same cells whatever their arguments, and the cells of the order get
the same values. -/
theorem uniform_ofOrder (owner : UInt32) (capacity : Nat) :
    (recorderProtocol owner capacity).Uniform Cell.ofOrder where
  outline_eq _ _ _ := rfl
  stable seq c a ha hp := by
    have ha' : a ∈ recordStores owner capacity seq c := ha
    rw [recordStores_eq] at ha'
    simp only [List.cons_append, List.mem_cons, List.mem_append, List.mem_map,
      List.not_mem_nil, or_false] at ha'
    rcases ha' with rfl | ⟨f, -, rfl⟩ | rfl
    · trivial
    · have hf : f = .seq := by simpa [fieldStore, Cell.ofOrder] using hp
      subst hf
      trivial
    · cases hp

end HangAnalyzer.Recorder
