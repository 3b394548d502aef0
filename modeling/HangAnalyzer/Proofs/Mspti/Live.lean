import HangAnalyzer.Lib.SeqLock
import HangAnalyzer.Proofs.Mspti.Slot

/-!
# `HangAnalyzer.Proofs.Mspti.Live`: reading the ring while calls write to it

The reader runs next to any number of `record` calls, word by word and store by store.
The ring has the shape of `HangAnalyzer.Lib.SeqLock`: the regions are the slots
(`framed_record`). So a number that the reader finds twice in a slot comes with the
event of its call, and otherwise the number word showed another number at one of the
two looks (`reads_readSlot`). The header fields other than the counter do not change
(`reads_readRing`).
-/

set_option autoImplicit false

namespace HangAnalyzer.Mspti

open HangAnalyzer.Lib
open Relation (ReflTransGen)

/-! ### The slots as regions -/

/-- The regions of a ring are its slots. -/
def slotRegions (capacity : Nat) : Regions Cell where
  region
    | .header _     => none
    | .event slot _ => some slot
  home := slotOf capacity
  number slot := .event slot .seq

/-- A call stores to its own slot only, and first and last to the number of the slot. -/
theorem framed_record (owner : UInt32) (capacity : Nat) :
    (msptiProtocol owner capacity).Framed (slotRegions capacity) where
  counter := rfl
  number _ := rfl
  dst seq c a ha := by
    obtain ⟨f, v, rfl⟩ := mem_recordStores ha
    rfl
  const seq c a ha := by
    obtain ⟨f, v, rfl⟩ := mem_recordStores ha
    exact ⟨v, rfl⟩
  frame seq c := by
    refine ⟨fieldStores owner (.event (slotOf capacity seq)) c, rfl, fun a ha => ?_⟩
    obtain ⟨f, v, hf, rfl⟩ := mem_fieldStores ha
    intro heq
    exact hf (Cell.event.inj heq).2

/-- The slot of the call with the number `k + 1`. -/
theorem slotOf_succ (capacity : Nat) {k : Nat} (hk : k < 2 ^ 64) :
    slotOf capacity (k + 1) = k % capacity := by
  have hsum : k + 1 + (2 ^ 64 - 1) = k + 2 ^ 64 := by omega
  rw [slotOf, hsum, Nat.add_mod_right, Nat.mod_eq_of_lt hk]

/-! ### A fresh ring -/

/-- A ring of `slots` slots before the first call. -/
structure Ring.Fresh (m : Ring) (slots : Nat) : Prop where
  magic : m.read (.header .magic) = FILE_MAGIC
  version : m.read (.header .version) = 2
  eventSize : m.read (.header .eventSize) = EVENT_SIZE
  capacity : m.read (.header .capacity) = slots
  writeSeq : m.read (.header .writeSeq) = 0
  empty : ∀ slot, m.read (.event slot .seq) = 0
  pos : 0 < slots

/-- The header of a new ring. -/
theorem read_initRing (capacity : UInt64) (getpid : UInt32) (wallNs monoNs : UInt64) :
    (initRing capacity getpid wallNs monoNs).read (.header .magic) = FILE_MAGIC ∧
      (initRing capacity getpid wallNs monoNs).read (.header .version) = 2 ∧
      (initRing capacity getpid wallNs monoNs).read (.header .eventSize) = EVENT_SIZE ∧
      (initRing capacity getpid wallNs monoNs).read (.header .capacity) = capacity.toNat ∧
      (initRing capacity getpid wallNs monoNs).read (.header .pid) = getpid.toNat ∧
      (initRing capacity getpid wallNs monoNs).read (.header .startedWallNs) = wallNs.toNat ∧
      (initRing capacity getpid wallNs monoNs).read (.header .startedMonoNs) = monoNs.toNat := by
  simp [initRing, Memory.read_store_of_ne, Cell.width, HeaderField.width, FILE_MAGIC, MAGIC,
    EVENT_SIZE_eq]

/-- A new ring is empty. -/
theorem fresh_initRing (capacity : UInt64) (getpid : UInt32) (wallNs monoNs : UInt64)
    (h : 0 < capacity) : (initRing capacity getpid wallNs monoNs).Fresh capacity.toNat := by
  obtain ⟨hmagic, hversion, hsize, hcapacity, -⟩ := read_initRing capacity getpid wallNs monoNs
  refine ⟨hmagic, hversion, hsize, hcapacity, ?_, ?_, by simpa using UInt64.lt_iff_toNat_lt.mp h⟩
  · simp [initRing, Memory.read_store_of_ne]
  · intro slot
    simp [initRing, Memory.read_store_of_ne]

section
variable {m₀ : Ring} {owner : UInt32} {slots k : Nat} {args : Nat → Call}
  {s : Shared Cell.width} {fl : Flight Cell}

/-- As long as the calls fit, each of them has a slot of its own. -/
theorem slot_of_few (hm : m₀.Fresh slots) (hslots : slots < 2 ^ 64)
    (htracked : (msptiProtocol owner slots).Tracked args m₀ s) (hfew : s.calls.length ≤ slots)
    (hk : s.calls[k]? = some fl) : slotOf slots fl.seq = k := by
  have hlt := (List.getElem?_eq_some_iff.mp hk).1
  have hnumbered : Protocol.Numbered m₀ (msptiProtocol owner slots) s :=
    ⟨hm.writeSeq, (by omega : s.calls.length < 2 ^ 64)⟩
  rw [hnumbered.seq_eq htracked hk, slotOf_succ _ (by omega), Nat.mod_eq_of_lt (by omega)]

/-- As long as no slot is used a second time, every call has its slot for itself. -/
theorem exclusive_of_few (hm : m₀.Fresh slots) (hslots : slots < 2 ^ 64)
    (htracked : (msptiProtocol owner slots).Tracked args m₀ s) (hfew : s.calls.length ≤ slots) :
    Protocol.Exclusive (slotRegions slots) s := by
  intro i j fi fj hij hi hj _ _ hsame
  refine hij ?_
  rw [← slot_of_few hm hslots htracked hfew hi, ← slot_of_few hm hslots htracked hfew hj]
  exact hsame

end

/-! ### The reader -/

/-- The words of the file behind the mapping. -/
def view (slots : Nat) (s : Shared Cell.width) (w : Nat) : List UInt8 :=
  fileWord (Ring.fileBytes s.mem slots) w

section
variable {m₀ : Ring} {owner : UInt32} {slots : Nat} {args : Nat → Call}
  {Q : Shared Cell.width → Nat → Prop} {s t u : Shared Cell.width}

/-- A step in which no two calls in progress share a slot. -/
abbrev Moves (owner : UInt32) (slots : Nat) (args : Nat → Call) :
    Shared Cell.width → Shared Cell.width → Prop :=
  Protocol.Moves (msptiProtocol owner slots) args (slotRegions slots)

/-- Slots with the same fields have the same bytes. -/
theorem Ring.slotBytes_congr {m m' : Ring} {slot : Nat}
    (h : ∀ f, m.read (.event slot f) = m'.read (.event slot f)) :
    m.slotBytes slot = m'.slotBytes slot := by
  simp only [Ring.slotBytes, Ring.chunk, Ring.chars, h]

/-- The words of a slot that is the same whenever one of them is read. -/
theorem flatMap_view {slot : Nat} (hslot : slot < slots) {moment : Nat → Shared Cell.width}
    (h : ∀ i < 24, ∀ f, (moment i).mem.read (.event slot f) = s.mem.read (.event slot f)) :
    ((List.range 24).flatMap fun i => view slots (moment i) ((128 + slot * 192) / 8 + i))
      = Ring.slotBytes s.mem slot := by
  have hword : ∀ i ∈ List.range 24, view slots (moment i) ((128 + slot * 192) / 8 + i)
      = ((Ring.slotBytes s.mem slot).drop (8 * i)).take 8 := by
    intro i hi
    have hlt := List.mem_range.mp hi
    rw [view, Ring.fileWord_slot _ hslot hlt, Ring.slotBytes_congr (h i hlt)]
  rw [List.flatMap_congr hword, flatMap_words]
  exact List.take_of_length_le (by rw [Ring.length_slotBytes])

/-- A slot that shows the number of call `k` decodes to its event. -/
theorem decodeSlot_number (hm : m₀.Fresh slots)
    (hstart : ReflTransGen (Moves owner slots args) (Protocol.start m₀) s) {k : Nat}
    (hfew : s.calls.length < 2 ^ 64) (hk : k < 2 ^ 64)
    (hnumber : s.mem.read (.event (k % slots) .seq) = k + 1) :
    Protocol.Finished s k ∧ decodeSlot 2 (k + 1) (Ring.slotBytes s.mem (k % slots))
      = some ((args k).event owner (k + 1)) := by
  have hP := framed_record owner slots
  have horderly := Protocol.orderly_later hstart Protocol.orderly_start
  have hnumbered : Protocol.Numbered m₀ (msptiProtocol owner slots) s := ⟨hm.writeSeq, hfew⟩
  obtain ⟨-, hfinished, hholds⟩ := Protocol.holds_of_number hP horderly hnumbered rfl
    (hm.empty _) (Protocol.settled_later hP hstart Protocol.orderly_start
      (Protocol.settled_start (k % slots))) hnumber
  refine ⟨hfinished, ?_⟩
  obtain ⟨seq, hcall⟩ := hfinished
  obtain ⟨fl, done, m', hcall', -, -, hprog, hmem⟩ := hholds.stored
  obtain rfl := Option.some.inj (hcall.symm.trans hcall')
  obtain rfl : seq = k + 1 := hnumbered.seq_eq horderly.tracked hcall
  -- All stores of the call are done.
  have hdone : recordStores owner slots (k + 1) (args k) = done := by
    rw [← List.append_nil done]
    exact hprog
  have hlt := (List.getElem?_eq_some_iff.mp hcall).1
  rw [← slotOf_succ slots hk]
  refine decodeSlot_exec m' (by omega) fun f => ?_
  rw [hdone, slotOf_succ slots hk]
  exact hmem (.event (k % slots) f) rfl

/-- Between two looks that show the same number, the reader reads one state of the slot. -/
theorem raw_of_two_looks (hm : m₀.Fresh slots)
    (hstart : ReflTransGen (Moves owner slots args) (Protocol.start m₀) s) {k : Nat}
    {raw : List UInt8} (hfew : u.calls.length < 2 ^ 64)
    (hraw : Reads (Moves owner slots args) (view slots) Q s
      (.words ((128 + k % slots * 192) / 8) 24) t raw)
    (hlater : ReflTransGen (Moves owner slots args) t u)
    (hbefore : s.mem.read (.event (k % slots) .seq) = k + 1)
    (hafter : u.mem.read (.event (k % slots) .seq) = k + 1) :
    raw = Ring.slotBytes s.mem (k % slots) := by
  have hP := framed_record owner slots
  have hnumbered : Protocol.Numbered m₀ (msptiProtocol owner slots) u := ⟨hm.writeSeq, hfew⟩
  obtain ⟨moment, hmoment, rfl⟩ := reads_words hraw
  refine flatMap_view (Nat.mod_lt _ hm.pos) fun i hi f => ?_
  obtain ⟨hfrom, hto, -⟩ := hmoment i hi
  have htwice := Protocol.twice hP (Protocol.orderly_later hstart Protocol.orderly_start)
    hnumbered rfl (hm.empty _) (Protocol.settled_later hP hstart Protocol.orderly_start
      (Protocol.settled_start (k % slots))) hfrom (hto.trans hlater) hbefore hafter
  exact htwice.2 (.event (k % slots) f) rfl

/-- **One number of the window.** The reader returns the event of the call with the
number, which has then finished, or at one of its two looks the number word showed
another number. -/
theorem reads_readSlot (hm : m₀.Fresh slots)
    (hstart : ReflTransGen (Moves owner slots args) (Protocol.start m₀) s) {k : Nat}
    {b : Option Event} (hfew : u.calls.length < 2 ^ 64) (hk : k < 2 ^ 64)
    (h : Reads (Moves owner slots args) (view slots) Q s
      (readSlot 2 EVENT_SIZE slots (k + 1)) u b) :
    (b = some ((args k).event owner (k + 1)) ∧ Protocol.Finished u k) ∨
      b = none ∧ ∃ t, ReflTransGen (Moves owner slots args) s t ∧
        ReflTransGen (Moves owner slots args) t u ∧ Q t (slotWord EVENT_SIZE slots (k + 1)) ∧
        t.mem.read (.event (k % slots) .seq) ≠ k + 1 := by
  have hw : slotWord EVENT_SIZE slots (k + 1) = (128 + k % slots * 192) / 8 := by
    rw [slotWord, EVENT_SIZE_eq, Nat.add_sub_cancel]
  have hnumber : ∀ t, ofBytesLE (view slots t (slotWord EVENT_SIZE slots (k + 1)))
      = t.mem.read (.event (k % slots) .seq) := by
    intro t
    rw [hw]
    exact Ring.number_word _ (Nat.mod_lt _ hm.pos)
  -- The three reads of a slot: its number, its words, and its number again.
  unfold readSlot at h
  cases h with
  | @read _ t₀ _ _ _ _ hfirst hq₀ hrest =>
      simp only [hnumber] at hrest
      by_cases hbefore : t₀.mem.read (.event (k % slots) .seq) = k + 1
      · rw [if_neg (not_not_intro hbefore)] at hrest
        obtain ⟨t₁, raw, hraw, hend⟩ := reads_bind hrest
        cases hend with
        | @read _ t₂ _ _ _ _ hsecond hq₂ hdone =>
            simp only [hnumber] at hdone
            cases hdone with
            | done hlast =>
                have hlater := hraw.later.trans (hsecond.trans hlast)
                by_cases hafter : t₂.mem.read (.event (k % slots) .seq) = k + 1
                · have hlen := Protocol.length_later hlater
                  have hlen₂ := Protocol.length_later hlast
                  obtain ⟨hfinished, hdecode⟩ :=
                    decodeSlot_number hm (hstart.trans hfirst) (by omega) hk hbefore
                  rw [hw, EVENT_SIZE_eq] at hraw
                  have hslot := raw_of_two_looks hm (hstart.trans hfirst) (by omega) hraw hsecond
                    hbefore hafter
                  rw [if_neg (not_not_intro hafter), hslot]
                  exact Or.inl ⟨hdecode, hfinished.later hlater⟩
                · rw [if_pos hafter]
                  exact Or.inr ⟨rfl, t₂, hfirst.trans (hraw.later.trans hsecond), hlast, hq₂,
                    hafter⟩
      · rw [if_pos hbefore] at hrest
        cases hrest with
        | done hlast => exact Or.inr ⟨rfl, t₀, hfirst, hlast, hq₀, hbefore⟩

/-! ### The window -/

/-- Each number of the window is read once, between the start and the end of the scan. -/
theorem reads_scan {R : Shared Cell.width → Shared Cell.width → Prop}
    {look : Shared Cell.width → Nat → List UInt8} {version size : Nat} {hd : RingHeader}
    {seqs : List Nat} {events : List Event} {r : Except String (RingHeader × List Event)}
    (hnodup : seqs.Nodup) (h : Reads R look Q s (scan version size hd seqs events) u r) :
    ∃ found : Nat → Option Event,
      r = .ok (hd, events ++ seqs.flatMap fun seq => (found seq).toList) ∧
      ∀ seq ∈ seqs, ∃ t t', ReflTransGen R s t ∧ ReflTransGen R t' u ∧
        Reads R look Q t (readSlot version size hd.capacity seq) t' (found seq) := by
  induction seqs generalizing s events with
  | nil =>
      cases h with
      | done hlater => exact ⟨fun _ => none, by simp, by simp⟩
  | cons seq seqs ih =>
      obtain ⟨hnotin, hnodup⟩ := List.nodup_cons.mp hnodup
      -- The number that is read first is no later one, so its event is not replaced.
      obtain ⟨t, e, hslot, hrest⟩ := reads_bind h
      obtain ⟨found, hr, hfound⟩ := ih hnodup hrest
      refine ⟨Function.update found seq e, ?_, fun q hq => ?_⟩
      · have hsame : seqs.flatMap (fun q => (Function.update found seq e q).toList)
            = seqs.flatMap fun q => (found q).toList := by
          refine List.flatMap_congr fun q hq => ?_
          rw [Function.update_of_ne]
          intro heq
          exact hnotin (heq ▸ hq)
        rw [List.flatMap_cons, Function.update_self, hsame, ← List.append_assoc]
        exact hr
      · by_cases heq : q = seq
        · subst heq
          rw [Function.update_self]
          exact ⟨s, t, .refl, hrest.later, hslot⟩
        · rw [Function.update_of_ne heq]
          obtain ⟨t₁, t₂, hfrom, hto, hreads⟩ :=
            hfound q ((List.mem_cons.mp hq).resolve_left heq)
          exact ⟨t₁, t₂, hslot.later.trans hfrom, hto, hreads⟩

/-- The numbers from `max 1 (written + 1 - capacity)` to `written`. -/
theorem mem_window {capacity written seq : Nat} :
    seq ∈ window capacity written ↔ 1 ≤ seq ∧ written < seq + capacity ∧ seq ≤ written := by
  rw [window, List.mem_range'_1]
  omega

/-- No number is twice in the window. -/
theorem nodup_window (capacity written : Nat) : (window capacity written).Nodup :=
  List.nodup_range'

/-! ### The header -/

/-- No call changes the header apart from the counter. -/
theorem readOnly_header {f : HeaderField} (h : f ≠ .writeSeq) :
    (msptiProtocol owner slots).ReadOnly (.header f) := by
  refine ⟨by simpa [msptiProtocol] using h, fun seq c a ha => ?_⟩
  obtain ⟨f', v, rfl⟩ := mem_recordStores ha
  simp

/-- The header that the reader returns when it has found the counter at `written`. -/
def Ring.header (m : Ring) (slots written : Nat) : RingHeader where
  pid := m.read (.header .pid)
  capacity := slots
  written := written
  wallNs := m.read (.header .startedWallNs)
  monoNs := m.read (.header .startedMonoNs)
  dropped := m.read (.header .dropped)
  overwritten := written - slots

/-- **The header.** The reader accepts the file, and the window is that of the number
of claims at the moment when it reads the counter, modulo `2 ^ 64`. -/
theorem reads_readRing (hm : m₀.Fresh slots)
    (hstart : ReflTransGen (Moves owner slots args) (Protocol.start m₀) s)
    {r : Except String (RingHeader × List Event)}
    (h : Reads (Moves owner slots args) (view slots) Q s (readRing (128 + slots * 192)) u r) :
    ∃ t t', ReflTransGen (Moves owner slots args) s t ∧ Q t 4 ∧
      ReflTransGen (Moves owner slots args) t t' ∧
      Reads (Moves owner slots args) (view slots) Q t'
        (scan 2 EVENT_SIZE (m₀.header slots (t.calls.length % 2 ^ 64))
          (window slots (t.calls.length % 2 ^ 64)) []) u r := by
  have hlen : ¬ 128 + slots * 192 = 0 := by omega
  have hlong : ¬ 128 + slots * 192 < 128 := by omega
  rw [readRing, if_neg hlen, if_neg hlong] at h
  obtain ⟨t', raw, hraw, hrest⟩ := reads_bind h
  obtain ⟨moment, hmoment, rfl⟩ := reads_words hraw
  refine ⟨moment 4, t', (hmoment 4 (by omega)).1, by simpa using (hmoment 4 (by omega)).2.2,
    (hmoment 4 (by omega)).2.1, ?_⟩
  have htracked : ∀ i < 8, (msptiProtocol owner slots).Tracked args m₀ (moment i) := by
    intro i hi
    exact (Protocol.orderly_later (hstart.trans (hmoment i hi).1) Protocol.orderly_start).tracked
  have hfield : ∀ i < 8, ∀ f, f ≠ .writeSeq →
      (moment i).mem.read (.header f) = m₀.read (.header f) := by
    intro i hi f hf
    exact (htracked i hi).readOnly (readOnly_header hf)
  have hcounter : (moment 4).mem.read (.header .writeSeq)
      = (moment 4).calls.length % 2 ^ 64 := by
    have hcounter := (htracked 4 (by omega)).counter
    rw [show (msptiProtocol owner slots).counter = .header .writeSeq from rfl, hm.writeSeq,
      Nat.zero_add] at hcounter
    exact hcounter
  -- The numbers that the reader unpacks.
  have hunpack : (unpack (formatItems HEADER) ((List.range 8).flatMap fun i =>
      view slots (moment i) (0 + i))).map ofBytesLE
      = [FILE_MAGIC, 2, EVENT_SIZE, slots, m₀.read (.header .pid), m₀.read (.header .reserved),
          (moment 4).calls.length % 2 ^ 64, m₀.read (.header .startedWallNs),
          m₀.read (.header .startedMonoNs), m₀.read (.header .dropped)] := by
    have hwords := Ring.header_words (fun i => (moment i).mem) slots
    simp only [Nat.zero_add]
    show (unpack (formatItems HEADER) ((List.range 8).flatMap fun i =>
      fileWord (Ring.fileBytes (moment i).mem slots) i)).map ofBytesLE = _
    rw [hwords]
    have hpack := unpack_pack (formatItems HEADER) []
      [Ring.chunk (moment 0).mem (.header .magic), Ring.chunk (moment 1).mem (.header .version),
        Ring.chunk (moment 1).mem (.header .eventSize),
        Ring.chunk (moment 2).mem (.header .capacity), Ring.chunk (moment 3).mem (.header .pid),
        Ring.chunk (moment 3).mem (.header .reserved),
        Ring.chunk (moment 4).mem (.header .writeSeq),
        Ring.chunk (moment 5).mem (.header .startedWallNs),
        Ring.chunk (moment 6).mem (.header .startedMonoNs),
        Ring.chunk (moment 7).mem (.header .dropped)] [] []
      (by simp [Ring.length_chunk, Cell.width, HeaderField.width, HEADER, formatItems, Code.item,
        Item.widths])
    simp only [List.append_nil] at hpack
    rw [hpack]
    simp [hfield, hcounter, hm.magic, hm.version, hm.eventSize, hm.capacity]
  simp only [hunpack] at hrest
  have hformat : ¬ (FILE_MAGIC ≠ FILE_MAGIC ∨ ¬ Supported 2 EVENT_SIZE) := by
    simp [Supported]
  have hsize : ¬ 128 + slots * 192 < 128 + slots * EVENT_SIZE := by
    rw [EVENT_SIZE_eq]
    exact Nat.lt_irrefl _
  rw [if_neg hformat, if_neg hsize] at hrest
  exact hrest

/-! ### Calls one after the other -/

/-- The mapping after the calls, one after the other. -/
def Ring.recordAll (m : Ring) (owner : UInt32) (calls : List Call) : Ring :=
  calls.foldl (fun m c => m.record owner c) m

/-- The last call records after the others. -/
theorem Ring.recordAll_concat (m : Ring) (owner : UInt32) (calls : List Call) (c : Call) :
    m.recordAll owner (calls ++ [c]) = (m.recordAll owner calls).record owner c := by
  rw [recordAll, List.foldl_concat, recordAll]

/-- Calls that do not overlap are one of the interleavings. -/
theorem exists_run_recordAll (owner : UInt32) (hm : m₀.Fresh slots) (calls : List Call)
    (hargs : ∀ k c, calls[k]? = some c → args k = c) :
    ∃ ops s, Run ((msptiProtocol owner slots).step args) (Protocol.start m₀) ops s ∧
      Run.Along ((msptiProtocol owner slots).step args)
        (fun t _ _ => Protocol.Exclusive (slotRegions slots) t) (Protocol.start m₀) ops ∧
      s.mem = m₀.recordAll owner calls ∧ s.calls.length = calls.length ∧
      ∀ fl ∈ s.calls, fl.todo = [] := by
  induction calls using List.reverseRecOn with
  | nil => exact ⟨[], _, Run.nil_iff.mpr rfl, Run.along_nil, rfl, rfl, by simp [Protocol.start]⟩
  | append_singleton calls c ih =>
      obtain ⟨ops, s, hrun, halong, hmem, hlen, hdone⟩ := ih fun k c' hk => hargs k c' <| by
        rw [List.getElem?_append_left (List.getElem?_eq_some_iff.mp hk).1, hk]
      have hc : args s.calls.length = c := hargs _ _ <| by
        rw [hlen, List.getElem?_concat_length]
      have hcap : (m₀.recordAll owner calls).claim.read (.header .capacity) = slots := by
        rw [Ring.claim, Memory.read_store_of_ne _ _ (by simp), ← hmem,
          (Protocol.tracked_run hrun).readOnly (readOnly_header (by simp)), hm.capacity]
      obtain ⟨ops', s', seq, hrun', hothers, hseq, hmem', hcalls'⟩ :=
        Protocol.exists_run_call (msptiProtocol owner slots) args s
      refine ⟨ops ++ ops', s', hrun.append hrun', Run.along_append hrun halong ?_, ?_, ?_, ?_⟩
      · -- Only the new call is in progress.
        refine hothers.mono fun t _ _ ht => ?_
        refine Protocol.exclusive_of_one (k := s.calls.length) fun i fi hne hi => ?_
        rw [ht i hne] at hi
        exact hdone fi (List.mem_of_getElem? hi)
      · rw [hmem', hc, hmem, Ring.recordAll_concat, Ring.record, hcap, hseq, hmem]
        rfl
      · rw [hcalls', List.length_append, List.length_append, hlen]
        rfl
      · intro fl hfl
        rw [hcalls'] at hfl
        rcases List.mem_append.mp hfl with hold | hnew
        · exact hdone fl hold
        · rw [List.mem_singleton.mp hnew]

end

end HangAnalyzer.Mspti
