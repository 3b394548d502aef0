import Mathlib.Algebra.GroupWithZero.Nat
import Mathlib.Algebra.Ring.Int.Defs
import Mathlib.Data.List.Dedup
import HangAnalyzer.Lib.JsonLines
import HangAnalyzer.Lib.TextFile

/-!
# `HangAnalyzer.Sampler.Capture`: utilization snapshots of the devices

The model of `flightrecorder/aicpu_sampler.py`: what `parse_usages` finds in the output of
`npu-smi`, the row of `sample`, the rows that `capture` writes, and `summarize`.

The clock values and what `npu-smi` prints are given, as is the text of an exception of
`subprocess.run`. The mean of a summary is kept as a sum and a number of samples, with the
exception that its division can raise.

`int` converts at most 4300 digits, and so do `str` and `json`. No number of a row is
longer: the usages and the device numbers come from `int`, and a clock value has 64 bits. So
`HangAnalyzer.Lib.Json` can do without the limit.
-/

set_option autoImplicit false

namespace HangAnalyzer.Sampler

open HangAnalyzer.Lib
open HangAnalyzer.Lib.Json (jsonLines loads)

/-! ### Numbers -/

/-- The zeros of the decimal digits of Unicode 15.0, the version of Python 3.12. The digits
from one to nine follow each of them. -/
def decimalZeros : List Nat :=
  [0x30, 0x660, 0x6F0, 0x7C0, 0x966, 0x9E6, 0xA66, 0xAE6, 0xB66, 0xBE6, 0xC66, 0xCE6, 0xD66,
    0xDE6, 0xE50, 0xED0, 0xF20, 0x1040, 0x1090, 0x17E0, 0x1810, 0x1946, 0x19D0, 0x1A80, 0x1A90,
    0x1B50, 0x1BB0, 0x1C40, 0x1C50, 0xA620, 0xA8D0, 0xA900, 0xA9D0, 0xA9F0, 0xAA50, 0xABF0,
    0xFF10, 0x104A0, 0x10D30, 0x11066, 0x110F0, 0x11136, 0x111D0, 0x112F0, 0x11450, 0x114D0,
    0x11650, 0x116C0, 0x11730, 0x118E0, 0x11950, 0x11C50, 0x11D50, 0x11DA0, 0x11F50, 0x16A60,
    0x16AC0, 0x16B50, 0x1D7CE, 0x1D7D8, 0x1D7E2, 0x1D7EC, 0x1D7F6, 0x1E140, 0x1E2F0, 0x1E4F0,
    0x1E950, 0x1FBF0]

/-- The value of a decimal digit. -/
def decimal (c : Char) : Option Nat :=
  (decimalZeros.find? fun first => first ≤ c.toNat && c.toNat < first + 10).map (c.toNat - ·)

/-- `\d`. -/
def isDecimal (c : Char) : Bool := (decimal c).isSome

/-- `sys.get_int_max_str_digits()`. -/
def INT_MAX_STR_DIGITS : Nat := 4300

/-- The `ValueError` of `int` for a text of so many digits. -/
def tooManyDigits (count : Nat) : List Char :=
  ("ValueError: Exceeds the limit (4300 digits) for integer string conversion: value has " ++
    toString count ++ " digits; use sys.set_int_max_str_digits() to increase the limit").toList

/-- The number that the digits denote. -/
def decimalValue (digits : List Char) : Nat :=
  digits.foldl (fun n c => 10 * n + (decimal c).getD 0) 0

/-- `int(text)` of decimal digits. -/
def int (digits : List Char) : Except (List Char) Nat :=
  if INT_MAX_STR_DIGITS < digits.length then .error (tooManyDigits digits.length)
  else .ok (decimalValue digits)

example : int "٠٠7".toList = .ok 7 := by decide

/-! ### The output of `npu-smi` -/

/-- `\s*$` with `re.M`. -/
def endsLine (s : List Char) : Bool :=
  (s.dropWhile isSpace).isEmpty || (s.takeWhile isSpace).contains '\n'

/-- `\s*:\s*(\d+)\s*$` with `re.M`: the group. -/
def matchValue (s : List Char) : Option (List Char) :=
  match s.dropWhile isSpace with
  | ':' :: rest =>
      let found := (rest.dropWhile isSpace).takeWhile isDecimal
      if found ≠ [] ∧ endsLine ((rest.dropWhile isSpace).dropWhile isDecimal) then some found
      else none
  | _ => none

/-- `\s*label\s*:\s*(\d+)\s*$` with `re.M`. -/
def matchUsage (label s : List Char) : Option (List Char) :=
  (label.isPrefixOf? (s.dropWhile isSpace)).bind matchValue

/-- `re.search`: the first line that begins with a match. -/
def searchUsage (label : List Char) (lineStart : Bool) : List Char → Option (List Char)
  | [] => none
  | c :: rest =>
      match if lineStart then matchUsage label (c :: rest) else none with
      | some digits => some digits
      | none        => searchUsage label (c == '\n') rest

/-- The values found. -/
structure Usages where
  aicpu : Option Nat
  aicore : Option Nat
  aivector : Option Nat
  ctrlcpu : Option Nat
  deriving Repr, DecidableEq

/-- The value of one field, if it is found. -/
def usage (output label : List Char) : Except (List Char) (Option Nat) :=
  match searchUsage label true output with
  | none        => .ok none
  | some digits => (int digits).map some

/-- `parse_usages`. The fields are read in this order, up to the first one that `int`
refuses. -/
def parseUsages (output : List Char) : Except (List Char) Usages := do
  let aicpu ← usage output "Aicpu Usage Rate(%)".toList
  let aicore ← usage output "Aicore Usage Rate(%)".toList
  let aivector ← usage output "Aivector Usage Rate(%)".toList
  let ctrlcpu ← usage output "Ctrlcpu Usage Rate(%)".toList
  pure ⟨aicpu, aicore, aivector, ctrlcpu⟩

example : parseUsages ("Aicore Usage Rate(%) : 12\n\tAivector Usage Rate(%) : 17\n" ++
    "\tAicpu Usage Rate(%) : 063\n").toList = .ok ⟨some 63, some 12, some 17, none⟩ := by decide

/-! ### Samples -/

/-- The values of a sample, or its error. -/
inductive Outcome where
  | values (aicpu : Nat) (aicore aivector ctrlcpu : Option Nat)
  | error (text : List Char)
  deriving Repr, DecidableEq

/-- A device number, as `int` reads it from the arguments. -/
structure Device where
  id : Int
  short : (Nat.toDigits 10 id.natAbs).length ≤ INT_MAX_STR_DIGITS

/-- What `sample` returns. -/
structure Sample where
  device : Int
  startedWallNs : Nat
  endedWallNs : Nat
  outcome : Outcome
  deriving Repr, DecidableEq

/-- One call of `npu-smi`: the clock before and after it, and its output or the text of the
exception with the name of its type. -/
structure Answer where
  started : Nat
  ended : Nat
  output : Except (List Char) (List Char)

/-- `sample`. -/
def sample (device : Device) (answer : Answer) : Sample where
  device := device.id
  startedWallNs := answer.started
  endedWallNs := answer.ended
  outcome :=
    -- The `ValueError` of `int` is caught with the other exceptions.
    match answer.output.bind parseUsages with
    | .error text => .error text
    | .ok ⟨some aicpu, aicore, aivector, ctrlcpu⟩ => .values aicpu aicore aivector ctrlcpu
    | .ok _ => .error "ValueError: npu-smi output has no Aicpu Usage Rate".toList

/-- An item that may be missing. -/
def optionalItem (key : List Char) : Option Nat → List (List Char × Json)
  | none   => []
  | some n => [(key, .int n)]

/-- The items that an outcome adds to the dictionary of a sample. -/
def Outcome.items : Outcome → List (List Char × Json)
  | .values aicpu aicore aivector ctrlcpu =>
      ("aicpu_pct".toList, .int aicpu) :: (optionalItem "aicore_pct".toList aicore ++
        (optionalItem "aivector_pct".toList aivector ++ optionalItem "ctrlcpu_pct".toList ctrlcpu))
  | .error text => [("error".toList, .str text)]

/-- The dictionary of a sample. -/
def Sample.json (s : Sample) : Json :=
  .dict (("device".toList, .int s.device) :: ("started_wall_ns".toList, .int s.startedWallNs) ::
    ("ended_wall_ns".toList, .int s.endedWallNs) :: s.outcome.items)

/-- The samples that `capture` writes, in the order of the rounds and the devices, or nothing
for its `ValueError`. A round has an answer for each device. -/
def capture (devices : List Device) (interval : Rat) (rounds : List (List Answer)) :
    Option (List Sample) :=
  if devices.isEmpty ∨ interval ≤ 0 then none
  else some (rounds.flatMap fun round => List.zipWith sample devices round)

/-- What `capture` writes into a new file. -/
def captureText (samples : List Sample) : List Char := jsonLines true (samples.map Sample.json)

/-! ### The summary -/

/-- `row.get(key)`. -/
def field (key : List Char) : Json → Option Json
  | .dict items => (items.find? (·.1 == key)).map Prod.snd
  | _           => none

/-- `row[key]` for a number. -/
def number (key : List Char) (row : Json) : Option Int :=
  match field key row with
  | some (.int n) => some n
  | _             => none

/-- `"aicpu_pct" in row`. -/
def hasUsage (row : Json) : Bool := (field "aicpu_pct".toList row).isSome

/-- `row.get("error")`. -/
def errorText (row : Json) : Option (List Char) :=
  match field "error".toList row with
  | some (.str text) => some text
  | _                => none

/-- What a line says about the valid samples of a device. -/
inductive Verdict where
  | noValid (lastError : Option (List Char))
  | valid (total peak last : Int) (count : Nat) (lastWallNs : Int)
  deriving Repr, DecidableEq

/-- A line of the summary. -/
structure DeviceLine where
  device : Int
  samples : Nat
  verdict : Verdict
  deriving Repr, DecidableEq

/-- What `summarize` says. -/
structure Summary where
  samples : Nat
  lines : List DeviceLine
  deriving Repr, DecidableEq

/-- From here on a quotient rounds to more than the greatest float. -/
def FLOAT_OVERFLOW : Nat := 2 ^ 1024 - 2 ^ 970

/-- `total / count`, as the two numbers, or nothing for `OverflowError`. -/
def mean (total : Int) (count : Nat) : Option (Int × Nat) :=
  if FLOAT_OVERFLOW * count ≤ total.natAbs then none else some (total, count)

/-- The line of a device, from its rows. -/
def deviceLine (device : Int) (group : List Json) : Option DeviceLine := do
  let valid := group.filter hasUsage
  match valid.getLast? with
  | none => some ⟨device, group.length, .noValid (group.getLast?.bind errorText)⟩
  | some row =>
      let usages ← valid.mapM (number "aicpu_pct".toList)
      let peak ← usages.max?
      let last ← number "aicpu_pct".toList row
      let (total, count) ← mean usages.sum usages.length
      let lastWallNs ← number "ended_wall_ns".toList row
      some ⟨device, group.length, .valid total peak last count lastWallNs⟩

/-- `[json.loads(line) for line in text.splitlines() if line.strip()]`. -/
def readRows (text : List Char) : Option (List Json) :=
  ((splitLines text).filter fun line => !(strip line).isEmpty).mapM loads

/-- `sorted(set(l))`. -/
def sortedSet (l : List Int) : List Int := l.dedup.mergeSort fun a b => decide (a ≤ b)

/-- `summarize`, or nothing for an exception. -/
def summarize (text : List Char) : Option Summary := do
  let rows ← readRows text
  let devices ← rows.mapM (number "device".toList)
  let lines ← (sortedSet devices).mapM fun device =>
    deviceLine device (rows.filter fun row => number "device".toList row == some device)
  some ⟨rows.length, lines⟩

end HangAnalyzer.Sampler
