import Mathlib.Data.List.Induction
import Mathlib.Data.Nat.ModEq
import HangAnalyzer.Proofs.Recorder.Stores

/-!
# `HangAnalyzer.Proofs.Recorder.Sequential`: calls that do not overlap

`Ring.recordAll` is the mapping after a list of `flight_record` calls, one after
the other. `Wrapped` is its invariant: each slot is empty, or holds the event of
the last call whose number fell into it.

`events_recordAll` follows: the decoded events are the last calls, in order, as
many as fit into the ring. The statement covers every number of calls. The
counter is a 64-bit word, so after `n` calls the header shows `n % 2 ^ 64`, and
the reader's window reaches back at most that far.
-/

set_option autoImplicit false

namespace HangAnalyzer.Recorder

open HangAnalyzer.Lib

namespace Ring

/-! ### One call -/

section
variable (m : Ring) (owner : UInt32) (c : Call)

/-- A claim adds one to `write_seq`. -/
theorem read_claim : m.claim.read (.header .writeSeq)
    = (m.read (.header .writeSeq) + 1) % 2 ^ 64 := by
  rw [claim, Memory.read_store_self, width_counter]

/-- A claim leaves every other cell. -/
theorem read_claim_of_ne {l : Cell} (h : l ≠ .header .writeSeq) : m.claim.read l = m.read l :=
  Memory.read_store_of_ne _ _ h

/-- The sequence number of the next call. -/
def nextSeq : Nat := (m.read (.header .writeSeq) + 1) % 2 ^ 64

/-- The slot of the next call. -/
def nextSlot : Nat := slotOf (m.read (.header .capacity)) m.nextSeq

/-- A call claims its number and makes its stores. -/
theorem record_eq : m.record owner c
    = (recordStores owner (m.read (.header .capacity)) m.nextSeq c).foldl Assign.exec m.claim := by
  show (recordStores owner (m.claim.read (.header .capacity)) (m.claim.read (.header .writeSeq))
    c).foldl Assign.exec m.claim = _
  rw [read_claim, read_claim_of_ne m (by decide)]
  rfl

/-- A call leaves every header field alone but the counter and `last_ns`. -/
theorem read_record_header {f : HeaderField} (h : f ≠ .lastNs) :
    (m.record owner c).read (.header f)
      = if f = .writeSeq then m.nextSeq else m.read (.header f) := by
  rw [record_eq, read_exec_of_ne _ _ fun a ha => dst_ne_header _ _ _ _ ha h]
  split
  · rename_i hf
    rw [hf, read_claim, nextSeq]
  · rename_i hf
    exact read_claim_of_ne m (by simpa using hf)

/-- A call fills its slot with its own event. -/
theorem event_record_self :
    (m.record owner c).event m.nextSlot = c.event (m.origin owner) m.nextSeq := by
  refine event_eq_of_fields (Nat.mod_lt _ (by decide)) fun f => ?_
  obtain ⟨pre, post, hsplit, hpost⟩ :=
    recordStores_split owner (m.read (.header .capacity)) m.nextSeq c f
  have hlast := read_exec_last (a := fieldStore owner (m.read (.header .capacity)) m.nextSeq c f)
    pre post m.claim hpost
  rw [record_eq, hsplit]
  refine hlast.trans ?_
  -- The value is a constant, or a header word that no earlier store changes.
  have hload : ∀ g : HeaderField, g ≠ .lastNs → g ≠ .writeSeq →
      (pre.foldl Assign.exec m.claim).read (.header g) = m.read (.header g) := by
    intro g hg hg'
    rw [read_exec_of_ne pre m.claim fun a ha =>
      dst_ne_header owner _ m.nextSeq c (hsplit ▸ List.mem_append_left _ ha) hg]
    exact read_claim_of_ne m (by simpa using hg')
  have hsource : (c.source owner m.nextSeq f).eval (pre.foldl Assign.exec m.claim)
      = (c.source owner m.nextSeq f).eval m := by
    cases f <;> simp only [Call.source, Source.eval]
    · exact hload .device (by decide) (by decide)
    · exact hload .rank (by decide) (by decide)
  simp only [fieldStore, hsource]
  rfl

/-- A call leaves the other slots alone. -/
theorem event_record_of_ne {slot : Nat} (h : slot ≠ m.nextSlot) :
    (m.record owner c).event slot = m.event slot := by
  have hread : ∀ f, (m.record owner c).read (.event slot f) = m.read (.event slot f) := by
    intro f
    rw [record_eq, read_exec_of_ne]
    · exact read_claim_of_ne m (by simp)
    · intro a ha hdst
      exact h (mem_recordStores _ _ _ _ ha hdst).1
  unfold event
  simp only [hread]

end

/-! ### Many calls -/

/-- The mapping after the calls, one after the other. -/
def recordAll (m : Ring) (owner : UInt32) (calls : List Call) : Ring :=
  calls.foldl (fun m c => m.record owner c) m

/-- The last call records after the others. -/
theorem recordAll_concat (m : Ring) (owner : UInt32) (calls : List Call) (c : Call) :
    m.recordAll owner (calls ++ [c]) = (m.recordAll owner calls).record owner c := by
  simp [recordAll]

/-- A formatted mapping of `slots` slots that nobody has recorded to. -/
structure Fresh (m : Ring) (slots : Nat) : Prop where
  formatted : m.Formatted slots
  writeSeq : m.read (.header .writeSeq) = 0
  blank : ∀ slot f, m.read (.event slot f) = 0

/-- The sequence number of the call at position `k`, counted from zero. -/
def seqAt (k : Nat) : Nat := (k + 1) % 2 ^ 64

/-- The numbers of fewer than `2 ^ 64` calls are their positions, from one. -/
theorem seqAt_of_lt {k n : Nat} (hk : k < n) (hn : n < 2 ^ 64) : seqAt k = k + 1 :=
  Nat.mod_eq_of_lt (by omega)

/-- The slot of the call at position `k`. -/
def place (slots k : Nat) : Nat := k % 2 ^ 64 % slots

/-- The slot of a call is the place of its position. -/
theorem slotOf_seqAt (slots k : Nat) : slotOf slots (seqAt k) = place slots k := by
  unfold slotOf seqAt place
  rw [Nat.mod_add_mod]
  have hk : k + 1 + (2 ^ 64 - 1) = k + 2 ^ 64 := by omega
  rw [hk, Nat.add_mod_right]

/-- The mapping `m` after `calls` on the fresh mapping `m₀`: the header words
other than the counter and `last_ns` are those of `m₀`, the counter counts, and
each slot is empty or holds the last call that fell into it. -/
structure Wrapped (m₀ : Ring) (owner : UInt32) (slots : Nat) (calls : List Call) (m : Ring) :
    Prop where
  header : ∀ f, f ≠ .writeSeq → f ≠ .lastNs → m.read (.header f) = m₀.read (.header f)
  writeSeq : m.read (.header .writeSeq) = calls.length % 2 ^ 64
  slot : ∀ s, (m.read (.event s .seq) = 0 ∧ ∀ k < calls.length, place slots k ≠ s) ∨
    ∃ k c, calls[k]? = some c ∧ place slots k = s ∧
      (∀ k', k < k' → k' < calls.length → place slots k' ≠ s) ∧
      m.event s = c.event (m₀.origin owner) (seqAt k)

variable {m₀ m : Ring} {owner : UInt32} {slots : Nat} {calls : List Call}

/-- A fresh ring holds no call. -/
theorem wrapped_nil (h : m₀.Fresh slots) : Wrapped m₀ owner slots [] m₀ where
  header _ _ _ := rfl
  writeSeq := h.writeSeq
  slot s := .inl ⟨h.blank s .seq, by simp⟩

/-- The calls leave the origin of the ring. -/
theorem Wrapped.origin (h : Wrapped m₀ owner slots calls m) : m.origin owner = m₀.origin owner := by
  unfold Ring.origin
  rw [h.header _ (by decide) (by decide), h.header _ (by decide) (by decide)]

/-- One more call: it takes over one slot and leaves the others. -/
theorem wrapped_record (h₀ : m₀.Fresh slots) (h : Wrapped m₀ owner slots calls m) (c : Call) :
    Wrapped m₀ owner slots (calls ++ [c]) (m.record owner c) := by
  -- The call takes the next number and its slot.
  have hcap : m.read (.header .capacity) = slots :=
    (h.header _ (by decide) (by decide)).trans h₀.formatted.capacity
  have hnext : m.nextSeq = seqAt calls.length := by
    rw [nextSeq, h.writeSeq, seqAt, Nat.mod_add_mod]
  have hslot : m.nextSlot = place slots calls.length := by
    rw [nextSlot, hcap, hnext, slotOf_seqAt]
  refine ⟨?_, ?_, ?_⟩
  · intro f hf hf'
    rw [read_record_header m owner c hf', if_neg hf]
    exact h.header f hf hf'
  · rw [read_record_header m owner c (by decide), if_pos rfl, hnext]
    simp [seqAt]
  · -- The slot of the new call is its own, and the other slots have their last calls as before.
    intro s
    by_cases hs : s = m.nextSlot
    · rw [hs]
      refine .inr ⟨calls.length, c, by simp, hslot.symm, ?_, ?_⟩
      · -- No later call is there.
        intro k' hlt hle
        simp only [List.length_append, List.length_cons, List.length_nil] at hle
        omega
      · rw [event_record_self, hnext, h.origin]
    · have hevent := event_record_of_ne m owner c hs
      have hseq : (m.record owner c).read (.event s .seq) = m.read (.event s .seq) :=
        congrArg Event.seq hevent
      have hnew : place slots calls.length ≠ s := fun e => hs (e.symm.trans hslot.symm)
      -- The slot is still blank, or it has its last call.
      rcases h.slot s with ⟨hzero, hnone⟩ | ⟨k, c', hk, hplace, hlast, hev⟩
      · refine .inl ⟨hseq.trans hzero, fun k hk => ?_⟩
        simp only [List.length_append, List.length_cons, List.length_nil] at hk
        by_cases hkn : k = calls.length
        · exact hkn ▸ hnew
        · exact hnone k (by omega)
      · refine .inr ⟨k, c', ?_, hplace, fun k' hlt hle => ?_, hevent.trans hev⟩
        · rw [List.getElem?_append_left (List.getElem?_eq_some_iff.mp hk).1]
          exact hk
        · simp only [List.length_append, List.length_cons, List.length_nil] at hle
          by_cases hkn : k' = calls.length
          · exact hkn ▸ hnew
          · exact hlast k' hlt (by omega)

/-- A ring holds the last calls made. -/
theorem wrapped_recordAll (owner : UInt32) (h₀ : m₀.Fresh slots) (calls : List Call) :
    Wrapped m₀ owner slots calls (m₀.recordAll owner calls) := by
  induction calls using List.reverseRecOn with
  | nil => exact wrapped_nil h₀
  | append_singleton calls c ih =>
      rw [recordAll_concat]
      exact wrapped_record h₀ ih c

/-- The calls leave the mapping readable. -/
theorem formatted_recordAll (owner : UInt32) (h₀ : m₀.Fresh slots) (calls : List Call) :
    (m₀.recordAll owner calls).Formatted slots := by
  have hw := wrapped_recordAll owner h₀ calls
  have hf := h₀.formatted
  exact {
    magic := (hw.header _ (by decide) (by decide)).trans hf.magic
    version := (hw.header _ (by decide) (by decide)).trans hf.version
    eventSize := (hw.header _ (by decide) (by decide)).trans hf.eventSize
    capacity := (hw.header _ (by decide) (by decide)).trans hf.capacity
    two_le := hf.two_le }

/-- The number of calls the reader gets to see: the capacity, or all of them
since the counter last passed through zero. -/
def retained (slots n : Nat) : Nat := min slots (n % 2 ^ 64)

/-- The events of the calls, with their positions. -/
def events (o : Origin) (calls : List Call) : List Event :=
  calls.mapIdx fun k c => c.event o (seqAt k)

/-- The events behind the first `n` are those of the later calls. -/
theorem mem_events {o : Origin} {calls : List Call} {n : Nat} {e : Event} :
    e ∈ (events o calls).drop n ↔
      ∃ k c, n ≤ k ∧ calls[k]? = some c ∧ e = c.event o (seqAt k) := by
  simp only [List.mem_iff_getElem?, List.getElem?_drop, events, List.getElem?_mapIdx,
    Option.map_eq_some_iff]
  constructor
  · rintro ⟨i, c, hc, rfl⟩
    exact ⟨n + i, c, Nat.le_add_right n i, hc, rfl⟩
  · rintro ⟨k, c, hle, hc, rfl⟩
    exact ⟨k - n, c, by rwa [Nat.add_sub_cancel' hle], by rw [Nat.add_sub_cancel' hle]⟩

/-- Between two wraps of the counter, sequence numbers are positions past the
last wrap. -/
theorem seqAt_window {n k : Nat} (hlo : n - n % 2 ^ 64 ≤ k) (hhi : k < n) :
    seqAt k = k + 1 - (n - n % 2 ^ 64) := by
  have hdm := Nat.div_add_mod n (2 ^ 64)
  have hlt := Nat.mod_lt n (show 0 < 2 ^ 64 by decide)
  have hbase : n - n % 2 ^ 64 = 2 ^ 64 * (n / 2 ^ 64) := by omega
  have hk : k + 1 = k + 1 - (n - n % 2 ^ 64) + 2 ^ 64 * (n / 2 ^ 64) := by omega
  unfold seqAt
  rw [hk, Nat.add_mul_mod_self_left, Nat.mod_eq_of_lt (by omega)]
  omega

/-- Between two wraps of the counter, slots follow the positions past the last
wrap. -/
theorem place_window {n k : Nat} (slots : Nat) (hlo : n - n % 2 ^ 64 ≤ k) (hhi : k < n) :
    place slots k = (k - (n - n % 2 ^ 64)) % slots := by
  have hdm := Nat.div_add_mod n (2 ^ 64)
  have hlt := Nat.mod_lt n (show 0 < 2 ^ 64 by decide)
  have hbase : n - n % 2 ^ 64 = 2 ^ 64 * (n / 2 ^ 64) := by omega
  have hk : k = k - (n - n % 2 ^ 64) + 2 ^ 64 * (n / 2 ^ 64) := by omega
  have hmod : k % 2 ^ 64 = k - (n - n % 2 ^ 64) := by
    conv_lhs => rw [hk]
    rw [Nat.add_mul_mod_self_left, Nat.mod_eq_of_lt (by omega)]
  rw [place, hmod]

/-- Two numbers less than `d` apart with one residue modulo `d` are equal. -/
theorem eq_of_mod_eq {a b d : Nat} (hab : a ≤ b) (hd : b < a + d) (h : a % d = b % d) :
    a = b := by
  have hdvd : d ∣ b - a := (Nat.modEq_iff_dvd' hab).mp h
  have hzero : b - a = 0 := Nat.eq_zero_of_dvd_of_lt hdvd (by omega)
  omega

/-- The validity test of the decoded mapping, spelled out. -/
theorem accepts_iff {m : Ring} {path : String} {slot seq : Nat} :
    (m.header path).accepts slot seq = true ↔
      (1 ≤ seq ∧ m.read (.header .writeSeq) + 1 - m.read (.header .capacity) ≤ seq) ∧
        seq ≤ m.read (.header .writeSeq) ∧
        (seq - 1) % m.read (.header .capacity) = slot := by
  unfold FlightHeader.accepts FlightHeader.lower
  rw [decide_eq_true_eq, max_le_iff]
  rfl

/-- The retained events are strictly sorted by number. -/
theorem sorted_events (o : Origin) (slots : Nat) (calls : List Call) :
    ((events o calls).drop (calls.length - retained slots calls.length)).Pairwise
      (·.seq < ·.seq) := by
  have hret : retained slots calls.length ≤ calls.length % 2 ^ 64 := Nat.min_le_right _ _
  rw [List.pairwise_iff_getElem]
  intro i j hi hj hij
  simp only [events, List.length_drop, List.length_mapIdx] at hi hj
  simp only [events, List.getElem_drop, List.getElem_mapIdx, Call.event]
  rw [seqAt_window (n := calls.length) (by omega) (by omega),
    seqAt_window (n := calls.length) (by omega) (by omega)]
  omega

/-- **The reader returns the last calls.** After any number of calls on a fresh
ring, the decoded events are those of the last `retained` calls, in order. -/
theorem events_recordAll (h₀ : m₀.Fresh slots) (calls : List Call) (path : String) :
    ((m₀.recordAll owner calls).snapshot path).events
      = (events (m₀.origin owner) calls).drop
          (calls.length - retained slots calls.length) := by
  have hw := wrapped_recordAll owner h₀ calls
  have hcap : (m₀.recordAll owner calls).read (.header .capacity) = slots :=
    (formatted_recordAll owner h₀ calls).capacity
  have hslots : 2 ≤ slots := h₀.formatted.two_le
  refine eq_of_sorted (Snapshot.sorted _) (sorted_events _ _ _) fun e => ?_
  rw [mem_snapshot, mem_events]
  simp only [accepts_iff, hcap, hw.writeSeq]
  have hwle : calls.length % 2 ^ 64 ≤ calls.length := Nat.mod_le _ _
  constructor
  · rintro ⟨slot, -, rfl, ⟨hone, hlow⟩, hhigh, hres⟩
    rcases hw.slot slot with ⟨hzero, -⟩ | ⟨k, c, hc, hplace, hlast, hev⟩
    · -- An empty slot has no number.
      have hz : ((m₀.recordAll owner calls).event slot).seq = 0 := hzero
      omega
    · have hseq : ((m₀.recordAll owner calls).event slot).seq = seqAt k := by
        rw [hev]
        rfl
      have hkn : k < calls.length := (List.getElem?_eq_some_iff.mp hc).1
      rw [hseq] at hone hlow hhigh hres
      -- The position inside the window that has this number shares the slot.
      have hbase : calls.length - calls.length % 2 ^ 64 ≤ k := by
        by_contra hlt
        refine hlast (calls.length - calls.length % 2 ^ 64 + seqAt k - 1) (by omega) (by omega) ?_
        rw [place_window (n := calls.length) slots (by omega) (by omega), ← hres]
        congr 1
        omega
      have hk := seqAt_window hbase hkn
      refine ⟨k, c, ?_, hc, hev⟩
      unfold retained
      omega
  · rintro ⟨k, c, hle, hc, rfl⟩
    have hkn : k < calls.length := (List.getElem?_eq_some_iff.mp hc).1
    have hret : retained slots calls.length ≤ calls.length % 2 ^ 64 := Nat.min_le_right _ _
    have hret' : retained slots calls.length ≤ slots := Nat.min_le_left _ _
    have hbase : calls.length - calls.length % 2 ^ 64 ≤ k := by omega
    have hk := seqAt_window hbase hkn
    have hpk := place_window slots hbase hkn
    -- No later call of the window falls into the same slot.
    have hevent : (m₀.recordAll owner calls).event (place slots k)
        = c.event (m₀.origin owner) (seqAt k) := by
      rcases hw.slot (place slots k) with ⟨-, hnone⟩ | ⟨k', c', hc', hplace', hlast', hev'⟩
      · exact absurd rfl (hnone k hkn)
      · have hkn' : k' < calls.length := (List.getElem?_eq_some_iff.mp hc').1
        have hle' : k ≤ k' := by
          by_contra hlt
          exact hlast' k (by omega) hkn rfl
        have hpk' := place_window (k := k') slots (by omega) hkn'
        have heq := eq_of_mod_eq (a := k - (calls.length - calls.length % 2 ^ 64))
          (b := k' - (calls.length - calls.length % 2 ^ 64)) (d := slots) (by omega) (by omega)
          (by rw [← hpk, ← hpk', hplace'])
        have hkk : k = k' := by omega
        subst hkk
        rw [hc, Option.some.injEq] at hc'
        rw [hev', hc']
    refine ⟨place slots k, Nat.mod_lt _ (by omega), hevent, ⟨?_, ?_⟩, ?_, ?_⟩
    · simp only [Call.event, hk]
      omega
    · simp only [Call.event, hk]
      unfold retained at hle
      omega
    · simp only [Call.event, hk]
      omega
    · simp only [Call.event]
      rw [hk, hpk]
      congr 1
      omega

end Ring

end HangAnalyzer.Recorder
