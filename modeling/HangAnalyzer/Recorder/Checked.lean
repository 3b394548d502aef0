import HangAnalyzer.Lib.Buffer
import HangAnalyzer.Recorder.Format

/-!
# `HangAnalyzer.Recorder.Checked`: what `read_events` can raise

`readHeader` and `readEvents` cut fields out of bytes as if the bytes were always there.
`readHeaderChecked` and `readEventsChecked` are the same functions with the operations of
`Lib/Buffer` in place of the total ones, so they raise what the Python raises. That the
guards of the source suffice, and no operation fails, is proved in `Proofs/Readers`.
-/

set_option autoImplicit false

namespace HangAnalyzer.Recorder

open HangAnalyzer.Lib

/-- `read_header`. -/
def readHeaderChecked (path : String) (raw : List UInt8) : Except Fault FlightHeader := do
  let raw := raw.take 128
  if raw.length < 128 then .error (.value ("short header: " ++ path))
  else
    match (← unpackFrom HEADER raw 0).map ofBytesLE with
    | [magic, version, eventSize, capacity, pid, rank, device, writeSeq, lastNs, wall, mono] =>
        if magic ≠ FILE_MAGIC ∨ version ≠ 1 ∨ eventSize ≠ 64 ∨ capacity < 2 then
          .error (.value ("unsupported flight format: " ++ path))
        else
          .ok { path, capacity, pid, rank, device, writeSeq, lastNs,
                startedWallNs := wall, startedMonoNs := mono }
    | _ => .error .index

/-- The body of the loop of `read_events`. The last comparison is made only if the first
two hold, so only then is there a division. -/
def readSlotChecked (h : FlightHeader) (raw : List UInt8) (slot : Nat) :
    Except Fault (Option Event) := do
  match (← unpackFrom EVENT raw (128 + slot * 64)).map ofBytesLE with
  | [timestampNs, seq, pid, tid, device, rank, stream, kind, flags, corr, arg0, arg1] =>
      if h.lower ≤ seq ∧ seq ≤ h.writeSeq then
        let residue ← checkedMod (seq - 1) h.capacity
        if residue = slot then
          .ok (some { timestampNs, seq, pid, tid, device, rank, stream, type := .ofKind kind,
                      flags, correlationId := corr, arg0, arg1 })
        else .ok none
      else .ok none
  | _ => .error .index

/-- `read_events`. -/
def readEventsChecked (path : String) (raw : List UInt8) :
    Except Fault (FlightHeader × List Event) := do
  let h ← readHeaderChecked path raw
  let count := min h.capacity ((raw.length - 128) / 64)
  let result ← collect (readSlotChecked h raw) (List.range count)
  return (h, sortBySeq result)

end HangAnalyzer.Recorder
