import Mathlib.Algebra.Group.Nat.Defs
import Mathlib.Logic.Function.Basic

/-!
# `HangAnalyzer.Lib.Memory`: a memory of fixed-width words

A `Memory width` holds one unsigned number per location, and the location's
width in bytes bounds it. `store` keeps the bound by truncating, the way a
machine store into a narrower field does, so no later proof has to carry a
range hypothesis.
-/

set_option autoImplicit false

namespace HangAnalyzer.Lib

/-- A memory over the locations `Loc`. Location `l` is `width l` bytes wide. -/
@[ext] structure Memory {Loc : Type} (width : Loc → Nat) where
  read : Loc → Nat
  read_lt : ∀ l, read l < 256 ^ width l

namespace Memory

variable {Loc : Type} {width : Loc → Nat}

/-- The memory of a fresh, zero-filled mapping. -/
def zero (width : Loc → Nat) : Memory width where
  read _ := 0
  read_lt _ := Nat.pow_pos (by decide)

/-- New memory is zero. -/
@[simp] theorem read_zero (l : Loc) : (zero width).read l = 0 := rfl

/-- A value read from memory is its own truncation. -/
@[simp] theorem read_mod (m : Memory width) (l : Loc) :
    m.read l % 256 ^ width l = m.read l :=
  Nat.mod_eq_of_lt (m.read_lt l)

/-- Copy the locations `p` selects from `src`, and keep the others. -/
def copyWhere (p : Loc → Bool) (src dst : Memory width) : Memory width where
  read l := if p l then src.read l else dst.read l
  read_lt l := by
    split
    · exact src.read_lt l
    · exact dst.read_lt l

/-- A copy takes the words that it is asked for. -/
theorem read_copyWhere (p : Loc → Bool) (src dst : Memory width) (l : Loc) :
    (copyWhere p src dst).read l = if p l then src.read l else dst.read l := rfl

variable [DecidableEq Loc]

/-- Store `v` at `l`, truncated to the width of `l`. -/
def store (m : Memory width) (l : Loc) (v : Nat) : Memory width where
  read := Function.update m.read l (v % 256 ^ width l)
  read_lt l' := by
    by_cases h : l' = l
    · subst h
      simpa using Nat.mod_lt v (Nat.pow_pos (by decide))
    · simpa [Function.update_of_ne h] using m.read_lt l'

/-- A store is read back up to the width of its location. -/
@[simp] theorem read_store_self (m : Memory width) (l : Loc) (v : Nat) :
    (m.store l v).read l = v % 256 ^ width l := by
  simp [store]

/-- A store leaves the other locations. -/
theorem read_store_of_ne (m : Memory width) {l l' : Loc} (v : Nat) (h : l' ≠ l) :
    (m.store l v).read l' = m.read l' := by
  simp [store, Function.update_of_ne h]

end Memory

end HangAnalyzer.Lib
