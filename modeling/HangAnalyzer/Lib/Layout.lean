import Mathlib.Data.Nat.Digits.Defs
import Mathlib.Data.List.Basic
import Mathlib.Tactic.Ring

/-!
# `HangAnalyzer.Lib.Layout`: fixed little-endian record layouts

A record is a sequence of `Item`s, padding gaps and fields, each of a fixed
number of bytes. Two independent descriptions lead to such a sequence:

* `cStruct` lays out a list of C fields by the natural-alignment rule, with the
  trailing padding the struct's own alignment asks for;
* `Code.item` reads one code of a Python `struct` format under `<`, which never
  aligns and pads only where the format says so.

`pack` writes the field chunks of a record and `unpack` cuts them out again.
`unpack_pack` is the round trip, stated for a reader whose items are a prefix
of the writer's. A writer and a reader that were written independently agree as
soon as their items do, and that is a closed check.
-/

set_option autoImplicit false

namespace HangAnalyzer.Lib

/-! ### Little-endian numbers -/

/-- The `w` little-endian bytes of `v`. Higher bytes of `v` are dropped, as a
store into a `w`-byte field drops them. -/
def toBytesLE : Nat → Nat → List UInt8
  | 0,     _ => []
  | w + 1, v => UInt8.ofNat v :: toBytesLE w (v / 256)

/-- The number a little-endian byte string stands for. -/
def ofBytesLE (bs : List UInt8) : Nat := Nat.ofDigits 256 (bs.map UInt8.toNat)

/-- A value takes as many bytes as it is wide. -/
@[simp] theorem length_toBytesLE (w v : Nat) : (toBytesLE w v).length = w := by
  induction w generalizing v with
  | zero => rfl
  | succ w ih => simp [toBytesLE, ih]

/-- The first byte is the lowest. -/
theorem ofBytesLE_cons (b : UInt8) (bs : List UInt8) :
    ofBytesLE (b :: bs) = b.toNat + 256 * ofBytesLE bs := by
  simp [ofBytesLE, Nat.ofDigits_cons]

/-- Reading back `w` bytes keeps the value modulo `256 ^ w`. -/
theorem ofBytesLE_toBytesLE (w v : Nat) : ofBytesLE (toBytesLE w v) = v % 256 ^ w := by
  induction w generalizing v with
  | zero => simp [toBytesLE, ofBytesLE, Nat.mod_one]
  | succ w ih =>
      have hbyte : (UInt8.ofNat v).toNat = v % 256 := by simp
      rw [toBytesLE, ofBytesLE_cons, ih, hbyte, Nat.pow_succ, Nat.mul_comm (256 ^ w),
        Nat.mod_mul]

/-! ### Items -/

/-- One piece of a record: a gap or a field, `n` bytes wide. -/
inductive Item where
  | pad (n : Nat)
  | field (n : Nat)
  deriving Repr, DecidableEq

namespace Item

/-- The number of bytes the item takes. -/
def size : Item → Nat
  | pad n   => n
  | field n => n

/-- The byte widths of the fields, in order. -/
def widths : List Item → List Nat
  | []           => []
  | pad _ :: l   => widths l
  | field n :: l => n :: widths l

/-- The byte offsets of the fields, of a record that starts at `off`. -/
def offsets : Nat → List Item → List Nat
  | _,   []           => []
  | off, pad n :: l   => offsets (off + n) l
  | off, field n :: l => off :: offsets (off + n) l

/-- The total size of a record. -/
def total (l : List Item) : Nat := (l.map size).sum

end Item

/-- The record with the given field chunks. A gap, and a field with no chunk
left, is zero, as a fresh file is. -/
def pack : List Item → List (List UInt8) → List UInt8
  | [],            _       => []
  | .pad n :: l,   cs      => List.replicate n 0 ++ pack l cs
  | .field n :: l, []      => List.replicate n 0 ++ pack l []
  | .field _ :: l, c :: cs => c ++ pack l cs

/-- The field chunks of the record at the front of `bs`. -/
def unpack : List Item → List UInt8 → List (List UInt8)
  | [],            _  => []
  | .pad n :: l,   bs => unpack l (bs.drop n)
  | .field n :: l, bs => bs.take n :: unpack l (bs.drop n)

/-- The reader cuts each field out at its offset. -/
theorem unpack_eq (l : List Item) (off : Nat) (bs : List UInt8) :
    unpack l (bs.drop off)
      = List.zipWith (fun o w => (bs.drop o).take w) (Item.offsets off l) (Item.widths l) := by
  induction l generalizing off with
  | nil => rfl
  | cons i l ih =>
      cases i with
      | pad n => simp [unpack, Item.offsets, Item.widths, ih]
      | field n => simp [unpack, Item.offsets, Item.widths, ih]

/-- A record whose chunks have the layout's widths has the layout's size. -/
theorem length_pack (l : List Item) (cs : List (List UInt8))
    (h : cs.map List.length = Item.widths l) : (pack l cs).length = Item.total l := by
  induction l generalizing cs with
  | nil => rfl
  | cons i l ih =>
      cases i with
      | pad n =>
          have hl := ih cs (by simpa [Item.widths] using h)
          simp [pack, hl, Item.total, Item.size]
      | field n =>
          cases cs with
          | nil => simp [Item.widths] at h
          | cons c cs =>
              simp only [List.map_cons, Item.widths, List.cons.injEq] at h
              have hl := ih cs h.2
              simp [pack, hl, h.1, Item.total, Item.size]

/-- The reader's items are the front of the writer's: it reads back the chunks
of the front. -/
theorem unpack_pack (l l' : List Item) (cs cs' : List (List UInt8)) (rest : List UInt8)
    (h : cs.map List.length = Item.widths l) :
    unpack l (pack (l ++ l') (cs ++ cs') ++ rest) = cs := by
  -- A field takes its bytes off the front, and a pad is skipped.
  induction l generalizing cs with
  | nil =>
      have hcs : cs = [] := by simpa [Item.widths] using h
      simp [unpack, hcs]
  | cons i l ih =>
      cases i with
      | pad n =>
          have hl := ih cs (by simpa [Item.widths] using h)
          simpa [pack, unpack, List.append_assoc, List.drop_left'] using hl
      | field n =>
          cases cs with
          | nil => simp [Item.widths] at h
          | cons c cs =>
              simp only [List.map_cons, Item.widths, List.cons.injEq] at h
              have hl := ih cs h.2
              simp only [List.cons_append, pack, unpack, List.append_assoc,
                List.take_left' h.1, List.drop_left' h.1, List.cons.injEq, true_and]
              simpa [List.append_assoc] using hl

/-! ### The C layout rule -/

/-- A C field: an unsigned integer of `n` bytes, aligned to its size, or a
`char[n]`, aligned to one. -/
inductive CField where
  | uint (n : Nat)
  | chars (n : Nat)
  deriving Repr, DecidableEq

namespace CField

/-- `sizeof` the field. -/
def size : CField → Nat
  | uint n  => n
  | chars n => n

/-- `alignof` the field. -/
def align : CField → Nat
  | uint n  => n
  | chars _ => 1

end CField

/-- The bytes missing from `off` to the next multiple of `a`. -/
def gap (a off : Nat) : Nat := (a - off % a) % a

/-- The padding item for a gap, none for an empty gap. -/
def gapItem (n : Nat) : List Item := if n = 0 then [] else [.pad n]

/-- The items of the fields placed from offset `off` on. -/
def cFields : Nat → List CField → List Item
  | _,   []      => []
  | off, f :: fs =>
      let g := gap f.align off
      gapItem g ++ .field f.size :: cFields (off + g + f.size) fs

/-- The items of a struct with the given alignment. -/
def cStruct (align : Nat) (fs : List CField) : List Item :=
  let items := cFields 0 fs
  items ++ gapItem (gap align (Item.total items))

/-! ### Python `struct` formats -/

/-- A code of a `struct` format string: `Q`, `I`, `H`, a run of pad bytes `nx`
and a byte string `ns`. -/
inductive Code where
  | Q
  | I
  | H
  | x (n : Nat)
  | s (n : Nat)
  deriving Repr, DecidableEq

/-- The item of a code in standard size, without alignment (`<`). -/
def Code.item : Code → Item
  | Q   => .field 8
  | I   => .field 4
  | H   => .field 2
  | x n => .pad n
  | s n => .field n

/-- The items of a format string, in order. -/
def formatItems (fmt : List Code) : List Item := fmt.map Code.item

end HangAnalyzer.Lib
