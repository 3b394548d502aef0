import HangAnalyzer.Lib.Layout

/-!
# `HangAnalyzer.Lib.Buffer`: decoding a buffer that may be too short

What a decoder in Python can raise on bytes it does not trust. `unpackFrom` and
`checkedMod` are the operations that can go wrong, each with the condition under which
it does not (`unpackFrom_ok`, `checkedMod_ok`). A decoder written with them is total,
and one that never returns another fault than `value` refuses bad bytes by its own
checks only.

The last section is about rings: `InWindow` says which numbers a slot of a ring may hold,
and `Selects` which events a reader has to return. `seqScan` looks the numbers of a window
up one after another, and returns these (`selects_seqScan`).
-/

set_option autoImplicit false

namespace HangAnalyzer.Lib

/-- An exception of a decoder: `struct.error`, `ZeroDivisionError`, `IndexError` or a
`ValueError` with its text. -/
inductive Fault where
  | struct
  | zeroDivision
  | index
  | value (text : String)
  deriving Repr, DecidableEq

/-- `struct.unpack_from`: the fields of the record at `offset`, all of which has to lie in
the buffer. -/
def unpackFrom (fmt : List Code) (data : List UInt8) (offset : Nat) :
    Except Fault (List (List UInt8)) :=
  if data.length < offset + Item.total (formatItems fmt) then .error .struct
  else .ok (unpack (formatItems fmt) (data.drop offset))

/-- `a % b`. -/
def checkedMod (a b : Nat) : Except Fault Nat :=
  if b = 0 then .error .zeroDivision else .ok (a % b)

/-- `fields[i]`. -/
def index (fields : List (List UInt8)) (i : Nat) : Except Fault (List UInt8) :=
  match fields[i]? with
  | some field => .ok field
  | none       => .error .index

/-- A loop over a list that keeps what its body yields, until the body raises. -/
def collect {α β : Type} (body : β → Except Fault (Option α)) : List β → Except Fault (List α)
  | []     => .ok []
  | b :: l => do
      let found ← body b
      let rest ← collect body l
      return found.toList ++ rest

section
variable {fmt : List Code} {data : List UInt8} {offset : Nat}

/-- A buffer that is long enough is unpacked. -/
theorem unpackFrom_ok (h : offset + Item.total (formatItems fmt) ≤ data.length) :
    unpackFrom fmt data offset = .ok (unpack (formatItems fmt) (data.drop offset)) :=
  if_neg (Nat.not_lt.mpr h)

/-- The remainder by a positive number. -/
theorem checkedMod_ok {a b : Nat} (h : 0 < b) : checkedMod a b = .ok (a % b) :=
  if_neg (Nat.ne_of_gt h)

/-- A loop whose body raises nothing keeps what the body yields. -/
theorem collect_ok {α β : Type} {body : β → Except Fault (Option α)} {g : β → Option α}
    {l : List β} (h : ∀ b ∈ l, body b = .ok (g b)) : collect body l = .ok (l.filterMap g) := by
  induction l with
  | nil => rfl
  | cons b l ih =>
      have hrest := ih fun b' hb' => h b' (List.mem_cons_of_mem _ hb')
      rw [collect, h b List.mem_cons_self, hrest]
      show Except.ok ((g b).toList ++ l.filterMap g) = _
      rw [List.filterMap_cons]
      cases g b with
      | none => rfl
      | some a => rfl

end

/-- The bytes behind a record do not count. -/
theorem unpack_take (l : List Item) (bs : List UInt8) {n : Nat} (h : Item.total l ≤ n) :
    unpack l (bs.take n) = unpack l bs := by
  induction l generalizing bs n with
  | nil => rfl
  | cons i l ih =>
      have hle : i.size + Item.total l ≤ n := by simpa [Item.total] using h
      cases i with
      | pad k =>
          simp only [Item.size] at hle
          rw [unpack, unpack, List.drop_take, ih _ (by omega)]
      | field k =>
          simp only [Item.size] at hle
          rw [unpack, unpack, List.drop_take, ih _ (by omega), List.take_take,
            Nat.min_eq_left (by omega)]

/-! ### The numbers of a ring -/

/-- The slot `slot` of a ring of `capacity` slots may hold the number `seq` when `written`
records were written: the number is one of the last `capacity`, and its residue is that of
the slot. -/
def InWindow (capacity written slot seq : Nat) : Prop :=
  max 1 (written + 1 - capacity) ≤ seq ∧ seq ≤ written ∧ (seq - 1) % capacity = slot

instance (capacity written slot seq : Nat) : Decidable (InWindow capacity written slot seq) :=
  inferInstanceAs (Decidable (_ ∧ _ ∧ _))

section
variable {α : Type} (number : α → Nat) (event : Nat → Option α)

/-- The events of the slots in which the numbers `seqs` belong, one number after another,
where the slot holds the number. -/
def seqScan (capacity : Nat) (seqs : List Nat) : List α :=
  seqs.filterMap fun seq => (event ((seq - 1) % capacity)).filter fun e => number e = seq

variable {number event}

/-- A scan by numbers finds the events that stand at their place. -/
theorem mem_seqScan {capacity : Nat} {seqs : List Nat} {e : α} :
    e ∈ seqScan number event capacity seqs ↔
      number e ∈ seqs ∧ event ((number e - 1) % capacity) = some e := by
  simp only [seqScan, List.mem_filterMap, Option.filter_eq_some_iff, decide_eq_true_eq]
  constructor
  · rintro ⟨seq, hseq, he, rfl⟩
    exact ⟨hseq, he⟩
  · rintro ⟨hseq, he⟩
    exact ⟨number e, hseq, he, rfl⟩

/-- Numbers in increasing order give events in increasing order. -/
theorem sorted_seqScan (capacity : Nat) {seqs : List Nat} (h : seqs.Pairwise (· < ·)) :
    (seqScan number event capacity seqs).Pairwise (number · < number ·) := by
  refine List.Pairwise.filterMap _ ?_ h
  intro seq seq' hlt e he e' he'
  simp only [Option.filter_eq_some_iff, decide_eq_true_eq] at he he'
  rw [he.2, he'.2]
  exact hlt

/-- `events` are the events of the slots below `slots` that hold a number of the window, in
increasing order of the numbers. There is one list of this kind. -/
structure Selects (number : α → Nat) (event : Nat → Option α) (slots capacity written : Nat)
    (events : List α) : Prop where
  sorted : events.Pairwise (number · < number ·)
  mem_iff : ∀ e, e ∈ events ↔
    ∃ slot < slots, event slot = some e ∧ InWindow capacity written slot (number e)

/-- Looking up the numbers of the window selects the events of all slots. -/
theorem selects_seqScan {capacity written : Nat} {seqs : List Nat} (h : seqs.Pairwise (· < ·))
    (hseqs : ∀ seq, seq ∈ seqs ↔ max 1 (written + 1 - capacity) ≤ seq ∧ seq ≤ written) :
    Selects number event capacity capacity written (seqScan number event capacity seqs) where
  sorted := sorted_seqScan capacity h
  mem_iff e := by
    rw [mem_seqScan, hseqs]
    constructor
    · rintro ⟨⟨hlow, hhigh⟩, he⟩
      -- A window that is not empty needs a slot.
      exact ⟨_, Nat.mod_lt _ (by omega), he, hlow, hhigh, rfl⟩
    · rintro ⟨slot, -, he, hlow, hhigh, rfl⟩
      exact ⟨⟨hlow, hhigh⟩, he⟩

end

end HangAnalyzer.Lib
