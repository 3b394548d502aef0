import HangAnalyzer.Lib.Layout
import HangAnalyzer.Lib.SharedStores

/-!
# `HangAnalyzer.Mspti.Ring`: the mapped `.msflight` file and its writer

The model of `Header`, `hang_event`, `name_copy` and `record` in `src/hang_mspti.cpp`
and `include/hang_mspti.h`, in the way of `HangAnalyzer.Recorder.Ring`: a mapping is a
`Memory` with one location for each field, and one for each byte of the two strings
of a slot.

`recordStores` lists the stores of one `record` call in program order. `Ring.record`
executes them without interruption, and `msptiProtocol` hands them to the interleaving
of `HangAnalyzer.Lib.SharedStores`.
-/

set_option autoImplicit false

namespace HangAnalyzer.Mspti

open HangAnalyzer.Lib

/-! ### The layout -/

/-- The fields of `Header`, in declaration order, without the trailing `pad`. -/
inductive HeaderField where
  | magic
  | version
  | eventSize
  | capacity
  | pid
  | reserved
  | writeSeq
  | startedWallNs
  | startedMonoNs
  | dropped
  deriving Repr, DecidableEq

/-- The fields of `hang_event`, in declaration order. `name i` and `detail i` are the
bytes of the two strings. -/
inductive EventField where
  | seq
  | observedNs
  | activityStartNs
  | activityEndNs
  | correlationId
  | pid
  | tid
  | deviceId
  | streamId
  | kind
  | flags
  | code
  | name (i : Nat)
  | detail (i : Nat)
  deriving Repr, DecidableEq

namespace HeaderField

def all : List HeaderField :=
  [magic, version, eventSize, capacity, pid, reserved, writeSeq, startedWallNs,
    startedMonoNs, dropped]

/-- The size in bytes of the field's unsigned integer type. -/
def width : HeaderField → Nat
  | version | eventSize | pid | reserved => 4
  | magic | capacity | writeSeq | startedWallNs | startedMonoNs | dropped => 8

end HeaderField

namespace EventField

/-- The fields that are numbers. -/
def numbers : List EventField :=
  [seq, observedNs, activityStartNs, activityEndNs, correlationId, pid, tid, deviceId,
    streamId, kind, flags, code]

/-- The size in bytes of a number, or of one byte of a string. -/
def width : EventField → Nat
  | seq | observedNs | activityStartNs | activityEndNs | correlationId => 8
  | pid | tid | deviceId | streamId | code => 4
  | kind | flags => 2
  | name _ | detail _ => 1

end EventField

/-- A location of the mapping: a header field, or a field of a slot. -/
inductive Cell where
  | header (f : HeaderField)
  | event (slot : Nat) (f : EventField)
  deriving Repr, DecidableEq

/-- The size in bytes of a location. -/
def Cell.width : Cell → Nat
  | header f  => f.width
  | event _ f => f.width

/-- The contents of the mapping. -/
abbrev Ring := Memory Cell.width

/-- The C fields of `struct alignas(64) Header`. -/
def headerFields : List CField :=
  HeaderField.all.map (fun f => .uint f.width) ++ [.chars 64]

/-- The C fields of `struct aligned(64) hang_event`. -/
def eventFields : List CField :=
  EventField.numbers.map (fun f => .uint f.width) ++ [.chars 64, .chars 64]

namespace Ring

variable (m : Ring)

/-- The bytes of one number. -/
def chunk (c : Cell) : List UInt8 := toBytesLE c.width (m.read c)

/-- The bytes of a `char[64]`. -/
def chars (byte : Nat → Cell) : List UInt8 :=
  (List.range 64).map fun i => UInt8.ofNat (m.read (byte i))

def headerBytes : List UInt8 :=
  pack (cStruct 64 headerFields)
    (HeaderField.all.map (fun f => m.chunk (.header f)) ++ [List.replicate 64 0])

def slotBytes (slot : Nat) : List UInt8 :=
  pack (cStruct 64 eventFields)
    (EventField.numbers.map (fun f => m.chunk (.event slot f)) ++
      [m.chars fun i => .event slot (.name i), m.chars fun i => .event slot (.detail i)])

/-- The file behind a mapping of `slots` slots. -/
def fileBytes (slots : Nat) : List UInt8 :=
  m.headerBytes ++ (List.range slots).flatMap m.slotBytes

end Ring

/-! ### The start of a ring -/

def MAGIC : Nat := 0x315450534d474e48

/-- The header stores of `hang_mspti_start` into the zero-filled mapping. -/
def initRing (capacity : UInt64) (getpid : UInt32) (wallNs monoNs : UInt64) : Ring :=
  (Memory.zero Cell.width)
    |>.store (.header .magic) MAGIC
    |>.store (.header .version) 2
    |>.store (.header .eventSize) 192
    |>.store (.header .capacity) capacity.toNat
    |>.store (.header .pid) getpid.toNat
    |>.store (.header .startedWallNs) wallNs.toNat
    |>.store (.header .startedMonoNs) monoNs.toNat

/-! ### `record` -/

/-- A C string: its bytes before the NUL. -/
structure CString where
  bytes : List UInt8
  nonzero : 0 ∉ bytes

/-- The stores of `name_copy`. The pointer may be null. -/
def nameCopy (dst : Nat → Cell) : Option CString → List (Assign Cell)
  | none     => [⟨dst 0, .const 0⟩]
  | some src =>
      -- `strnlen(src, sizeof(dst) - 1)`
      let n := min src.bytes.length 63
      (List.range n).map (fun i => ⟨dst i, .const (src.bytes.getD i 0).toNat⟩) ++
        [⟨dst n, .const 0⟩]

/-- The arguments of a `record` call, with the clock value and the thread id it reads
while it runs. -/
structure Call where
  kind : UInt16
  device : UInt32
  stream : UInt32
  correlation : UInt64
  start : UInt64
  stop : UInt64
  code : UInt32
  name : Option CString
  detail : Option CString
  observedNs : UInt64
  tid : UInt32

/-- The slot of a sequence number: `(seq - 1) % capacity` in 64-bit arithmetic. -/
def slotOf (capacity seq : Nat) : Nat := (seq + (2 ^ 64 - 1)) % 2 ^ 64 % capacity

/-- The stores of `record` between the two stores to the slot's `seq`. -/
def fieldStores (owner : UInt32) (slot : EventField → Cell) (c : Call) : List (Assign Cell) :=
  [ ⟨slot .observedNs, .const c.observedNs.toNat⟩,
    ⟨slot .activityStartNs, .const c.start.toNat⟩,
    ⟨slot .activityEndNs, .const c.stop.toNat⟩,
    ⟨slot .correlationId, .const c.correlation.toNat⟩,
    ⟨slot .pid, .const owner.toNat⟩,
    ⟨slot .tid, .const c.tid.toNat⟩,
    ⟨slot .deviceId, .const c.device.toNat⟩,
    ⟨slot .streamId, .const c.stream.toNat⟩,
    ⟨slot .kind, .const c.kind.toNat⟩,
    ⟨slot .flags, .const 0⟩,
    ⟨slot .code, .const c.code.toNat⟩ ] ++
    nameCopy (fun i => slot (.name i)) c.name ++ nameCopy (fun i => slot (.detail i)) c.detail

/-- The stores of `record` after the claim, in program order. -/
def recordStores (owner : UInt32) (capacity seq : Nat) (c : Call) : List (Assign Cell) :=
  let slot := Cell.event (slotOf capacity seq)
  ⟨slot .seq, .const 0⟩ :: fieldStores owner slot c ++ [⟨slot .seq, .const seq⟩]

/-- The mapping after the claim: the counter is one up, modulo `2 ^ 64`. -/
def Ring.claim (m : Ring) : Ring :=
  m.store (.header .writeSeq) (m.read (.header .writeSeq) + 1)

/-- The process globals `g_header`, `g_events`, `g_size` and `g_owner` of a started
recorder: the mapping, its number of slots and the owning process. -/
structure MsptiState where
  mem : Ring
  slots : Nat
  owner : UInt32

/-- The mapping after a whole `record` call. -/
def Ring.record (m : Ring) (owner : UInt32) (c : Call) : Ring :=
  let m := m.claim
  (recordStores owner (m.read (.header .capacity)) (m.read (.header .writeSeq)) c).foldl
    Assign.exec m

/-- `record` in the process `getpid`, run to its end. -/
def record (r : Option MsptiState) (getpid : UInt32) (c : Call) : Option MsptiState :=
  match r with
  | none => none
  | some r =>
      if getpid ≠ r.owner then some r else some { r with mem := r.mem.record r.owner c }

/-- The recorder after the calls, one after the other, all in one process. -/
def recordCalls (r : Option MsptiState) (getpid : UInt32) (calls : List Call) :
    Option MsptiState :=
  calls.foldl (fun r c => record r getpid c) r

/-- The bytes of a recorder's `.msflight` file. -/
def MsptiState.file (r : MsptiState) : List UInt8 := r.mem.fileBytes r.slots

/-! ### The protocol -/

/-- Copying a string stores constants in its bytes. -/
theorem mem_nameCopy {dst : Nat → Cell} {src : Option CString} {a : Assign Cell}
    (h : a ∈ nameCopy dst src) : ∃ i v, a = ⟨dst i, .const v⟩ := by
  cases src with
  | none => exact ⟨0, 0, List.mem_singleton.mp h⟩
  | some src =>
      rcases List.mem_append.mp h with hmem | hmem
      · obtain ⟨i, -, rfl⟩ := List.mem_map.mp hmem
        exact ⟨i, _, rfl⟩
      · exact ⟨_, 0, List.mem_singleton.mp hmem⟩

/-- Between its two stores to `seq`, a `record` call stores constants into the other
fields. -/
theorem mem_fieldStores {owner : UInt32} {slot : EventField → Cell} {c : Call} {a : Assign Cell}
    (h : a ∈ fieldStores owner slot c) : ∃ f v, f ≠ .seq ∧ a = ⟨slot f, .const v⟩ := by
  rcases List.mem_append.mp h with hmem | hmem
  · rcases List.mem_append.mp hmem with hmem | hmem
    · simp only [List.mem_cons, List.not_mem_nil, or_false] at hmem
      rcases hmem with rfl | rfl | rfl | rfl | rfl | rfl | rfl | rfl | rfl | rfl | rfl
      all_goals exact ⟨_, _, by simp, rfl⟩
    · obtain ⟨i, v, rfl⟩ := mem_nameCopy hmem
      exact ⟨.name i, v, by simp, rfl⟩
  · obtain ⟨i, v, rfl⟩ := mem_nameCopy hmem
    exact ⟨.detail i, v, by simp, rfl⟩

/-- The stores of a `record` call go to its slot. -/
theorem mem_recordStores {owner : UInt32} {capacity seq : Nat} {c : Call} {a : Assign Cell}
    (h : a ∈ recordStores owner capacity seq c) :
    ∃ f v, a = ⟨.event (slotOf capacity seq) f, .const v⟩ := by
  rcases List.mem_append.mp h with hmem | hmem
  · rcases List.mem_cons.mp hmem with rfl | hmem
    · exact ⟨.seq, 0, rfl⟩
    · obtain ⟨f, v, -, rfl⟩ := mem_fieldStores hmem
      exact ⟨f, v, rfl⟩
  · exact ⟨.seq, seq, List.mem_singleton.mp hmem⟩

/-- The claim protocol of `record` on a ring of the given capacity. -/
def msptiProtocol (owner : UInt32) (capacity : Nat) : Protocol Cell Call where
  counter := .header .writeSeq
  program := recordStores owner capacity
  dst_ne_counter seq c a ha := by
    obtain ⟨f, v, rfl⟩ := mem_recordStores ha
    simp

/-- The arguments of the calls of a list, by their place in it. -/
def argsOf (calls : List Call) (k : Nat) : Call :=
  calls.getD k ⟨0, 0, 0, 0, 0, 0, 0, none, none, 0, 0⟩

end HangAnalyzer.Mspti
