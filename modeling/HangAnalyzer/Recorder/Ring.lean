import HangAnalyzer.Lib.Layout
import HangAnalyzer.Lib.SharedStores

/-!
# `HangAnalyzer.Recorder.Ring`: the mapped `.flight` file and its writer

The model of `src/flight_recorder.cpp` and `include/flight_recorder.h`. A
recorder owns one mapped file: a 128-byte header and `capacity` slots of 64
bytes. The mapping is a `Memory` with one location per struct field, so a store
truncates to the field's C type. `fileBytes` lays the fields out by the C
alignment rule.

`recordStores` lists the stores of one `flight_record` call in program order.
`flightRecord` executes them without interruption. `recorderProtocol` hands the
same list to the interleaving of `HangAnalyzer.Lib.SharedStores`.
-/

set_option autoImplicit false

namespace HangAnalyzer.Recorder

open HangAnalyzer.Lib

/-! ### The layout -/

/-- The fields of `Header`, in declaration order, without the trailing `pad`. -/
inductive HeaderField where
  | magic
  | version
  | eventSize
  | capacity
  | pid
  | rank
  | device
  | writeSeq
  | lastNs
  | startedWallNs
  | startedMonoNs
  deriving Repr, DecidableEq

/-- The fields of `flight_event`, in declaration order. -/
inductive EventField where
  | timestampNs
  | seq
  | pid
  | tid
  | deviceId
  | rankId
  | streamId
  | type
  | flags
  | correlationId
  | arg0
  | arg1
  deriving Repr, DecidableEq

namespace HeaderField

def all : List HeaderField :=
  [magic, version, eventSize, capacity, pid, rank, device, writeSeq, lastNs,
    startedWallNs, startedMonoNs]

/-- The size in bytes of the field's unsigned integer type. -/
def width : HeaderField → Nat
  | version | eventSize | pid => 4
  | rank | device => 2
  | magic | capacity | writeSeq | lastNs | startedWallNs | startedMonoNs => 8

end HeaderField

namespace EventField

def all : List EventField :=
  [timestampNs, seq, pid, tid, deviceId, rankId, streamId, type, flags, correlationId,
    arg0, arg1]

/-- The size in bytes of the field's unsigned integer type. -/
def width : EventField → Nat
  | pid | tid | streamId => 4
  | deviceId | rankId | type | flags => 2
  | timestampNs | seq | correlationId | arg0 | arg1 => 8

end EventField

/-- A location of the mapping: a header field, or a field of a slot. -/
inductive Cell where
  | header (f : HeaderField)
  | event (slot : Nat) (f : EventField)
  deriving Repr, DecidableEq

/-- The size in bytes of a location. -/
def Cell.width : Cell → Nat
  | header f  => f.width
  | event _ f => f.width

/-- The contents of the mapping. -/
abbrev Ring := Memory Cell.width

/-- The C fields of `struct alignas(64) Header`. -/
def headerFields : List CField :=
  HeaderField.all.map (fun f => .uint f.width) ++ [.chars 64]

/-- The C fields of `struct aligned(64) flight_event`. -/
def eventFields : List CField := EventField.all.map fun f => .uint f.width

/-- The byte offset of a field in the header. -/
def HeaderField.offset (f : HeaderField) : Nat :=
  (Item.offsets 0 (cStruct 64 headerFields)).getD (HeaderField.all.idxOf f) 0

/-- The byte offset of a field in a slot. -/
def EventField.offset (f : EventField) : Nat :=
  (Item.offsets 0 (cStruct 64 eventFields)).getD (EventField.all.idxOf f) 0

/-- The byte offset of a location in the file. -/
def Cell.offset : Cell → Nat
  | header f     => f.offset
  | event slot f => 128 + slot * 64 + f.offset

/-- The aligned 8-byte word of the file a location lies in. -/
def Cell.word (c : Cell) : Nat := c.offset / 8

/-- The bytes of one location. -/
def Ring.chunk (m : Ring) (c : Cell) : List UInt8 := toBytesLE c.width (m.read c)

def Ring.headerBytes (m : Ring) : List UInt8 :=
  pack (cStruct 64 headerFields)
    (HeaderField.all.map (fun f => m.chunk (.header f)) ++ [List.replicate 64 0])

def Ring.slotBytes (m : Ring) (slot : Nat) : List UInt8 :=
  pack (cStruct 64 eventFields) (EventField.all.map fun f => m.chunk (.event slot f))

/-- The file behind a mapping of `slots` slots. -/
def Ring.fileBytes (m : Ring) (slots : Nat) : List UInt8 :=
  m.headerBytes ++ (List.range slots).flatMap m.slotBytes

/-! ### `flight_init` -/

def MAGIC : Nat := 0x31524647534e4341

def EINVAL : Nat := 22
def EOVERFLOW : Nat := 75

/-- The process globals `header`, `events`, `mapped_size` and `owner` of a mapped
recorder: the mapping, its number of slots and the owning process. -/
structure RecorderState where
  mem : Ring
  slots : Nat
  owner : UInt32

/-- What the system answers during `flight_init`: an `errno` for a failing call,
the process id, and the two clocks. -/
structure InitEnv where
  openErrno : Option Nat
  ftruncateErrno : Option Nat
  mmapErrno : Option Nat
  getpid : UInt32
  wallNs : UInt64
  monoNs : UInt64

/-- The header stores of `flight_init` into the zero-filled mapping. -/
def initRing (rank device : UInt16) (capacity : UInt64) (env : InitEnv) : Ring :=
  (Memory.zero Cell.width)
    |>.store (.header .magic) MAGIC
    |>.store (.header .version) 1
    |>.store (.header .eventSize) 64
    |>.store (.header .capacity) capacity.toNat
    |>.store (.header .pid) env.getpid.toNat
    |>.store (.header .rank) rank.toNat
    |>.store (.header .device) device.toNat
    |>.store (.header .startedWallNs) env.wallNs.toNat
    |>.store (.header .startedMonoNs) env.monoNs.toNat
    |>.store (.header .lastNs) env.monoNs.toNat

/-- `flight_init`: the new recorder, or the error code it returns. `current` is
the recorder of an earlier call that was not closed. -/
def flightInit (current : Option RecorderState) (path : Option String) (rank device : UInt16)
    (capacity : UInt64) (env : InitEnv) : Except Nat RecorderState :=
  if path.isNone ∨ capacity.toNat < 2 ∨ 2 ^ 26 < capacity.toNat ∨ current.isSome then
    .error EINVAL
  else if (2 ^ 64 - 1 - 128) / 64 < capacity.toNat then .error EOVERFLOW
  else
    -- The calls are made in this order, and the first one that fails ends `flight_init`.
    match env.openErrno, env.ftruncateErrno, env.mmapErrno with
    | some e, _, _ => .error e
    | none, some e, _ => .error e
    | none, none, some e => .error e
    | none, none, none =>
        .ok { mem := initRing rank device capacity env
              slots := capacity.toNat
              owner := env.getpid }

/-! ### `flight_record` -/

/-- The arguments of a `flight_record` call, with the clock value and the thread
id it reads while it runs. -/
structure Call where
  type : UInt16
  stream : UInt32
  correlation : UInt64
  arg0 : UInt64
  arg1 : UInt64
  flags : UInt16
  timestampNs : UInt64
  tid : UInt32
  deriving Repr, DecidableEq

/-- The slot of a sequence number: `(seq - 1) % capacity` in 64-bit arithmetic. -/
def slotOf (capacity seq : Nat) : Nat := (seq + (2 ^ 64 - 1)) % 2 ^ 64 % capacity

/-- The stores of `flight_record` after the claim, in program order. -/
def recordStores (owner : UInt32) (capacity seq : Nat) (c : Call) : List (Assign Cell) :=
  let slot := Cell.event (slotOf capacity seq)
  -- Zero marks the slot as being written, and the number is stored last.
  [ ⟨slot .seq, .const 0⟩,
    ⟨slot .timestampNs, .const c.timestampNs.toNat⟩,
    ⟨slot .pid, .const owner.toNat⟩,
    ⟨slot .tid, .const c.tid.toNat⟩,
    ⟨slot .deviceId, .load (.header .device)⟩,
    ⟨slot .rankId, .load (.header .rank)⟩,
    ⟨slot .streamId, .const c.stream.toNat⟩,
    ⟨slot .type, .const c.type.toNat⟩,
    ⟨slot .flags, .const c.flags.toNat⟩,
    ⟨slot .correlationId, .const c.correlation.toNat⟩,
    ⟨slot .arg0, .const c.arg0.toNat⟩,
    ⟨slot .arg1, .const c.arg1.toNat⟩,
    ⟨slot .seq, .const seq⟩,
    ⟨.header .lastNs, .load (slot .timestampNs)⟩ ]

/-- The mapping after the claim: the counter is one up, modulo `2 ^ 64`. -/
def Ring.claim (m : Ring) : Ring :=
  m.store (.header .writeSeq) (m.read (.header .writeSeq) + 1)

/-- The mapping after a whole `flight_record` call. -/
def Ring.record (m : Ring) (owner : UInt32) (c : Call) : Ring :=
  let m := m.claim
  let seq := m.read (.header .writeSeq)
  (recordStores owner (m.read (.header .capacity)) seq c).foldl Assign.exec m

/-- `flight_record` in the process `getpid`, run to its end: the recorder after
the call and the returned sequence number, zero when nothing was recorded. -/
def flightRecord (r : Option RecorderState) (getpid : UInt32) (c : Call) :
    Option RecorderState × Nat :=
  match r with
  | none => (none, 0)
  | some r =>
      -- A forked child does not write into the ring of its parent.
      if getpid ≠ r.owner then (some r, 0)
      else (some { r with mem := r.mem.record r.owner c }, r.mem.claim.read (.header .writeSeq))

/-- The recorder after the calls, one after the other, all in one process. -/
def recordCalls (r : Option RecorderState) (getpid : UInt32) (calls : List Call) :
    Option RecorderState :=
  calls.foldl (fun r c => (flightRecord r getpid c).1) r

/-- The bytes of a recorder's `.flight` file. -/
def RecorderState.file (r : RecorderState) : List UInt8 := r.mem.fileBytes r.slots

/-- The claim protocol of `flight_record` on a ring of the given capacity. -/
def recorderProtocol (owner : UInt32) (capacity : Nat) : Protocol Cell Call where
  counter := .header .writeSeq
  program := recordStores owner capacity
  dst_ne_counter := by
    intro seq c st hst
    simp only [recordStores, List.mem_cons, List.not_mem_nil, or_false] at hst
    rcases hst with h | h | h | h | h | h | h | h | h | h | h | h | h | h <;> simp [h]

end HangAnalyzer.Recorder
