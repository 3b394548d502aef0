/-!
# `HangAnalyzer.Lib.Utf8`: decoding UTF-8 with replacement

`decodeReplace` is `bytes.decode("utf-8", "replace")`. The decoder goes through the
bytes one at a time. `Pending` is a character that is not complete yet: the bits so
far, the range of the next byte, and how many bytes follow that one. The range of
the second byte keeps out overlong forms, surrogates and numbers that are too
large.

A byte that cannot continue a character ends it with one U+FFFD, and is then looked
at as a first byte.
-/

set_option autoImplicit false

namespace HangAnalyzer.Lib

/-- A character that needs another byte between `lo` and `hi`, and `more` after it. -/
structure Pending where
  bits : Nat
  lo : Nat
  hi : Nat
  more : Nat

/-- U+FFFD. -/
def replacement : Char := '\ufffd'

/-- A first byte: a whole character, the beginning of one, or neither. -/
def firstByte (b : UInt8) : Option (Char ⊕ Pending) :=
  let n := b.toNat
  if n < 0x80 then some (.inl (Char.ofNat n))
  else if n < 0xC2 then none
  else if n < 0xE0 then some (.inr ⟨n - 0xC0, 0x80, 0xBF, 0⟩)
  else if n = 0xE0 then some (.inr ⟨0, 0xA0, 0xBF, 1⟩)
  else if n = 0xED then some (.inr ⟨0xD, 0x80, 0x9F, 1⟩)
  else if n < 0xF0 then some (.inr ⟨n - 0xE0, 0x80, 0xBF, 1⟩)
  else if n = 0xF0 then some (.inr ⟨0, 0x90, 0xBF, 2⟩)
  else if n < 0xF4 then some (.inr ⟨n - 0xF0, 0x80, 0xBF, 2⟩)
  else if n = 0xF4 then some (.inr ⟨4, 0x80, 0x8F, 2⟩)
  else none

/-- The characters before the next byte, and what is pending after it, when nothing
was pending before. -/
def stepFirst (b : UInt8) : List Char × Option Pending :=
  match firstByte b with
  | some (.inl c) => ([c], none)
  | some (.inr p) => ([], some p)
  | none          => ([replacement], none)

/-- The same for any pending character. -/
def stepByte (pending : Option Pending) (b : UInt8) : List Char × Option Pending :=
  match pending with
  | none   => stepFirst b
  | some p =>
      let n := b.toNat
      if p.lo ≤ n ∧ n ≤ p.hi then
        let bits := p.bits * 64 + (n - 0x80)
        if p.more = 0 then ([Char.ofNat bits], none)
        else ([], some ⟨bits, 0x80, 0xBF, p.more - 1⟩)
      else
        let (chars, next) := stepFirst b
        (replacement :: chars, next)

/-- The characters of the bytes after a pending character. -/
def decodeFrom : Option Pending → List UInt8 → List Char
  | none,   []      => []
  | some _, []      => [replacement]
  | p,      b :: bs =>
      let (chars, next) := stepByte p b
      chars ++ decodeFrom next bs

/-- `bytes.decode("utf-8", "replace")`. -/
def decodeReplace (bs : List UInt8) : List Char := decodeFrom none bs

example : decodeReplace [0x41, 0xE4, 0xBD, 0xA0, 0xE4, 0xBD] = ['A', '你', '\ufffd'] := by decide

example : decodeReplace [0xC0, 0x80, 0xF4, 0x90, 0xED, 0xA0]
    = ['\ufffd', '\ufffd', '\ufffd', '\ufffd', '\ufffd', '\ufffd'] := by decide

end HangAnalyzer.Lib
