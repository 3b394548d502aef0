import HangAnalyzer.Lib.Layout
import HangAnalyzer.Lib.LiveRead
import HangAnalyzer.Lib.Utf8

/-!
# `HangAnalyzer.Mspti.Format`: reading a `.msflight` file

The model of `read_ring` in `flightrecorder/mspti_ring.py`. The file is mapped and may
change while it is read, so `readRing` is a `Reading`: it reads the words of the
header, and then for each number of the window the number word of its slot, the words
of the slot, and the number word again. `readFile` runs it on a file that does not
change.

All offsets are multiples of eight, because both sizes of an event are.
-/

set_option autoImplicit false

namespace HangAnalyzer.Mspti

open HangAnalyzer.Lib

/-- The `MAGIC` constant of the reader. -/
def FILE_MAGIC : Nat := 0x315450534D474E48

/-- The format `<QIIQIIQQQQ`. -/
def HEADER : List Code := [.Q, .I, .I, .Q, .I, .I, .Q, .Q, .Q, .Q]

/-- The format `<QQQQQIIIIHHI64s`. -/
def EVENT_V1 : List Code := [.Q, .Q, .Q, .Q, .Q, .I, .I, .I, .I, .H, .H, .I, .s 64]

/-- The format `<QQQQQIIIIHHI64s64s`. -/
def EVENT : List Code := [.Q, .Q, .Q, .Q, .Q, .I, .I, .I, .I, .H, .H, .I, .s 64, .s 64]

/-- `EVENT_V1.size` and `EVENT.size`. -/
def EVENT_V1_SIZE : Nat := Item.total (formatItems EVENT_V1)
def EVENT_SIZE : Nat := Item.total (formatItems EVENT)

/-- The kind of an event: one of `LABELS`, or a number that has no label. -/
inductive Kind where
  | runtimeEnter
  | runtimeExit
  | hcclEnter
  | hcclExit
  | kernelDone
  | hcclDone
  | status
  | runtimeApiDone
  | unknown (n : Nat)
  deriving Repr, DecidableEq

namespace Kind

/-- The kind of a recorded number. -/
def ofNumber : Nat → Kind
  | 1 => runtimeEnter
  | 2 => runtimeExit
  | 3 => hcclEnter
  | 4 => hcclExit
  | 5 => kernelDone
  | 6 => hcclDone
  | 7 => status
  | 8 => runtimeApiDone
  | n => unknown n

/-- The label of a kind: that of `LABELS`, or `unknown_` and the number. -/
def label : Kind → String
  | runtimeEnter   => "runtime_enter"
  | runtimeExit    => "runtime_exit"
  | hcclEnter      => "hccl_enter"
  | hcclExit       => "hccl_exit"
  | kernelDone     => "kernel_done"
  | hcclDone       => "hccl_done"
  | status         => "status"
  | runtimeApiDone => "runtime_api_done"
  | unknown n      => "unknown_" ++ toString n

end Kind

/-- The header that `read_ring` returns. -/
structure RingHeader where
  pid : Nat
  capacity : Nat
  written : Nat
  wallNs : Nat
  monoNs : Nat
  dropped : Nat
  overwritten : Nat
  deriving Repr, DecidableEq

/-- A decoded event. -/
structure Event where
  seq : Nat
  observedNs : Nat
  startNs : Nat
  endNs : Nat
  correlationId : Nat
  pid : Nat
  tid : Nat
  device : Nat
  stream : Nat
  kind : Kind
  flags : Nat
  code : Nat
  name : String
  detail : String
  deriving Repr, DecidableEq

/-- `raw.split(b"\0", 1)[0].decode("utf-8", "replace")`. -/
def text (raw : List UInt8) : String := String.ofList (decodeReplace (raw.takeWhile (· ≠ 0)))

/-- The event in the bytes of a slot, if the slot has the number `seq`. -/
def decodeSlot (version seq : Nat) (raw : List UInt8) : Option Event :=
  match unpack (formatItems (if version = 2 then EVENT else EVENT_V1)) raw with
  | number :: observed :: start :: stop :: correlation :: pid :: tid :: device :: stream ::
      kind :: flags :: code :: name :: rest =>
      if ofBytesLE number ≠ seq then none
      else
        some {
          seq
          observedNs := ofBytesLE observed
          startNs := ofBytesLE start
          endNs := ofBytesLE stop
          correlationId := ofBytesLE correlation
          pid := ofBytesLE pid
          tid := ofBytesLE tid
          device := ofBytesLE device
          stream := ofBytesLE stream
          kind := .ofNumber (ofBytesLE kind)
          flags := ofBytesLE flags
          code := ofBytesLE code
          name := text name
          detail := if version = 2 then text (rest.headD []) else "" }
  -- Both formats have at least thirteen codes.
  | _ => none

/-- The first word of the slot of a number. -/
def slotWord (size capacity seq : Nat) : Nat := (128 + (seq - 1) % capacity * size) / 8

/-- One number of the window. -/
def readSlot (version size capacity seq : Nat) : Reading (Option Event) :=
  let w := slotWord size capacity seq
  .read w fun before =>
    -- `before != seq`: the slot is being written, or has been written again.
    if ofBytesLE before ≠ seq then .done none
    else
      (Reading.words w (size / 8)).bind fun raw =>
        .read w fun after =>
          -- The number is read once more after the copy.
          .done (if ofBytesLE after ≠ seq then none else decodeSlot version seq raw)

/-- The numbers of the window that are left, after the given events. -/
def scan (version size : Nat) (h : RingHeader) :
    List Nat → List Event → Reading (Except String (RingHeader × List Event))
  | [],          events => .done (.ok (h, events))
  | seq :: seqs, events =>
      (readSlot version size h.capacity seq).bind fun e =>
        scan version size h seqs (events ++ e.toList)

/-- `range(first, written + 1)`. -/
def window (capacity written : Nat) : List Nat :=
  let first := max 1 (written + 1 - capacity)
  List.range' first (written + 1 - first)

/-- The versions that are read, each with the size of its events. -/
def Supported (version size : Nat) : Prop :=
  (version, size) ∈ [(1, EVENT_V1_SIZE), (2, EVENT_SIZE)]

instance (version size : Nat) : Decidable (Supported version size) :=
  inferInstanceAs (Decidable (_ ∈ _))

/-- `read_ring` on a file of `len` bytes: the header and the events, or the text of the
`ValueError`. -/
def readRing (len : Nat) : Reading (Except String (RingHeader × List Event)) :=
  if len = 0 then .done (.error "cannot mmap an empty file")
  else if len < 128 then .done (.error "ring header is truncated")
  else
    (Reading.words 0 8).bind fun raw =>
      match (unpack (formatItems HEADER) raw).map ofBytesLE with
      | [magic, version, size, capacity, pid, _, written, wall, mono, dropped] =>
          if magic ≠ FILE_MAGIC ∨ ¬ Supported version size then
            .done (.error "unsupported msPTI ring format")
          else if len < 128 + capacity * size then .done (.error "ring is truncated")
          else
            scan version size
              ⟨pid, capacity, written, wall, mono, dropped, written - capacity⟩
              (window capacity written) []
      -- `HEADER` has ten codes, so `unpack` returns ten numbers.
      | _ => .done (.error "unsupported msPTI ring format")

/-- The word `w` of a file. -/
def fileWord (file : List UInt8) (w : Nat) : List UInt8 := (file.drop (8 * w)).take 8

/-- `read_ring` on a file that does not change. -/
def readFile (file : List UInt8) : Except String (RingHeader × List Event) :=
  (readRing file.length).eval (fileWord file)

end HangAnalyzer.Mspti
