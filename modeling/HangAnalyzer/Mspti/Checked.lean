import HangAnalyzer.Lib.Buffer
import HangAnalyzer.Mspti.Format

/-!
# `HangAnalyzer.Mspti.Checked`: what `read_ring` can raise

`readRingChecked` is `read_ring` on a file that does not change, written with the
operations of `Lib/Buffer`: each `unpack_from`, the division by the capacity and each
access to a field of a record raises where the Python raises.

`slotEvent` says what the slots of a file hold, without a window: the bytes of a slot,
decoded under the number that stands in them.
-/

set_option autoImplicit false

namespace HangAnalyzer.Mspti

open HangAnalyzer.Lib

/-- `event_format`. -/
def eventFormat (version : Nat) : List Code := if version = 2 then EVENT else EVENT_V1

/-- The size of an event of a version. -/
def eventSize (version : Nat) : Nat := Item.total (formatItems (eventFormat version))

/-- The `dict` of a record. Only the second version has a `detail`. -/
def dictChecked (version seq : Nat) (raw : List (List UInt8)) : Except Fault Event := do
  let name := text (← index raw 12)
  let detail ← if version = 2 then (index raw 13).map text else .ok ""
  return {
    seq
    observedNs := ofBytesLE (← index raw 1)
    startNs := ofBytesLE (← index raw 2)
    endNs := ofBytesLE (← index raw 3)
    correlationId := ofBytesLE (← index raw 4)
    pid := ofBytesLE (← index raw 5)
    tid := ofBytesLE (← index raw 6)
    device := ofBytesLE (← index raw 7)
    stream := ofBytesLE (← index raw 8)
    kind := .ofNumber (ofBytesLE (← index raw 9))
    flags := ofBytesLE (← index raw 10)
    code := ofBytesLE (← index raw 11)
    name
    detail }

/-- The body of the loop of `read_ring`. -/
def readSlotChecked (data : List UInt8) (version size capacity seq : Nat) :
    Except Fault (Option Event) := do
  let offset := 128 + (← checkedMod (seq - 1) capacity) * size
  let before ← index (← unpackFrom [.Q] data offset) 0
  if ofBytesLE before ≠ seq then .ok none
  else
    let raw ← unpackFrom (eventFormat version) data offset
    let after ← index (← unpackFrom [.Q] data offset) 0
    if ofBytesLE (← index raw 0) ≠ seq ∨ ofBytesLE after ≠ seq then .ok none
    else (dictChecked version seq raw).map some

/-- `read_ring`. -/
def readRingChecked (data : List UInt8) : Except Fault (RingHeader × List Event) := do
  if data.length = 0 then .error (.value "cannot mmap an empty file")
  else if data.length < 128 then .error (.value "ring header is truncated")
  else
    match (← unpackFrom HEADER data 0).map ofBytesLE with
    | [magic, version, size, capacity, pid, _, written, wall, mono, dropped] =>
        if magic ≠ FILE_MAGIC ∨ ¬ Supported version size then
          .error (.value "unsupported msPTI ring format")
        else if data.length < 128 + capacity * size then .error (.value "ring is truncated")
        else
          let events ← collect (readSlotChecked data version size capacity)
            (window capacity written)
          return (⟨pid, capacity, written, wall, mono, dropped, written - capacity⟩, events)
    | _ => .error .index

/-- The `version` in the header of a file. -/
def fileVersion (file : List UInt8) : Nat := ofBytesLE ((file.drop 8).take 4)

/-- The event in a slot of a file, under the number in the slot's first word. -/
def slotEvent (file : List UInt8) (slot : Nat) : Option Event :=
  let size := eventSize (fileVersion file)
  let raw := (file.drop (128 + slot * size)).take size
  decodeSlot (fileVersion file) (ofBytesLE (raw.take 8)) raw

end HangAnalyzer.Mspti
